/-
# LlmEngine.Tokenizer.Rendered — the prompt built piece by piece against the rendered template.

A ChatML prompt is meant to be the encoding of a template: each turn between `<|im_start|>` and
`<|im_end|>`, its role on a line of its own, its content, then the opening of the answer and, when the
model is not to think, an empty think block.  `eng_chat_build` (`src/tokenizer/chat.c`) does not render
it: it puts the markers down as ids and passes the texts between them to the tokenizer one by one,
without special tokens.

`templateStretches` and `opening` are that template as `Template` knows it, so its comparison applies
(`stretches_iff`).  For every container, every system and user text without a special token's text in
it and every pair of capacities for which both succeed, the two encodings are the same exactly when

* the scan of the rendered template takes its tags and, beside them, only special tokens that it takes
  from one of the fixed texts by itself: none that reaches over a seam, and none longer than a tag at a
  tag's place.  A special token whose text occurs in the template but is not taken does no harm;
* each fixed text is spelled out: merging it makes the special tokens in it too, with their ids;
* no content's leading newlines merge with the newline of the line in front of it (`SeamAlone`);
* with an empty think block, neither of its tags is a token.

The last two are where the code and a usual container part: the think tags are special tokens in the
vocabularies that have them, and a run of newlines is one token.
-/
import LlmEngine.Tokenizer.Template

namespace LlmEngine.Tokenizer

open LlmEngine.Lib
open LlmEngine.Lib.LittleEndian
open LlmEngine.Formats

/-! ## The rendered template -/

def thinkText : Bytes := ascii "<think>"

def endThinkText : Bytes := ascii "</think>"

/-- The template, rendered. -/
def rendered (c : EngChat) (system user : Option Bytes) (think : Bool) : Bytes :=
  (if system.getD [] ≠ [] then
      imStartText ++ ascii "system\n" ++ system.getD [] ++ imEndText ++ ascii "\n"
    else []) ++
    imStartText ++ ascii "user\n" ++ user.getD [] ++ imEndText ++ ascii "\n" ++
    imStartText ++ ascii "assistant\n" ++
    if !think && c.supportsThink then ascii "<think>\n\n</think>\n\n" else []

/-! ## Its stretches -/

def thinkBlock : Bytes := ascii "<think>\n\n</think>\n\n"

/-- A turn behind its marker, up to the next. -/
def turnStretches (role content : Bytes) : List Stretch :=
  [⟨role, content, imEndText⟩, ⟨ascii "\n", [], imStartText⟩]

/-- The turns of the template. -/
def templateStretches (system user : Option Bytes) : List Stretch :=
  ⟨[], [], imStartText⟩ ::
    ((if system.getD [] ≠ [] then turnStretches (ascii "system\n") (system.getD []) else []) ++
      turnStretches (ascii "user\n") (user.getD []))

/-- The opening of the answer: its role, and the empty think block if there is to be one. -/
def opening (c : EngChat) (think : Bool) : Bytes :=
  ascii "assistant\n" ++ if !think && c.supportsThink then thinkBlock else []

theorem render_template (c : EngChat) (system user : Option Bytes) (think : Bool) :
    render (templateStretches system user) (opening c think) = rendered c system user think := by
  unfold templateStretches opening rendered turnStretches
  split_ifs <;> simp [render, thinkBlock]

/-! ## The prompt, stretch by stretch -/

section Prompt

variable {g : Gguf} {b : EngBpe} {c : EngChat}

theorem passedText_eq {s : Bytes} (h : s.length < 2 ^ 31) : passedText s = s := by
  unfold passedText
  apply List.take_of_length_le
  have hint : (BitVec.ofNat 32 s.length).toInt = s.length := by
    rw [BitVec.toInt_eq_toNat_cond, BitVec.toNat_ofNat, Nat.mod_eq_of_lt (by omega)]
    split_ifs <;> omega
  rw [hint]
  exact Nat.le_refl _

theorem contentIds_eq {s : Bytes} (h : s.length < 2 ^ 31) :
    contentIds b s = (textIds b s).map (·.map Int.ofNat) := by
  rw [contentIds, passedText_eq h]

/-- An empty text adds nothing. -/
theorem promptIds_empty (segs : List Seg) : promptIds b (.text [] :: segs) = promptIds b segs := by
  rw [promptIds_cons, segIds, contentIds_eq (by simp), textIds_nil]
  cases promptIds b segs <;> rfl

/-- A stretch, as it is put down. -/
theorem promptIds_stretch (st : Stretch) {segs : List Seg} {x : Option (List Nat)}
    (hfixed : st.fixed.length < 2 ^ 31) (hcontent : st.content.length < 2 ^ 31)
    (hsegs : promptIds b segs = x.map (·.map Int.ofNat)) :
    promptIds b (.text st.fixed :: .text st.content :: .marker ((engBpeFind b st.tag).getD 0 : Nat) :: segs) =
      ((textIds b st.fixed).bind fun fs => (textIds b st.content).bind fun xs =>
        x.map fun x => fs ++ (xs ++ (engBpeFind b st.tag).getD 0 :: x)).map (·.map Int.ofNat) := by
  rw [promptIds_cons, promptIds_cons, promptIds_cons, segIds, segIds, segIds, contentIds_eq hfixed,
    contentIds_eq hcontent, hsegs]
  cases textIds b st.fixed with
  | none => rfl
  | some fs =>
      cases textIds b st.content with
      | none => rfl
      | some xs =>
          cases x with
          | none => rfl
          | some x => simp

/-- The opening goes out as two texts, which encode apart. -/
theorem promptIds_opening (think : Bool) :
    promptIds b (.text (ascii "assistant\n") ::
      if !think && c.supportsThink then [.text thinkBlock] else []) =
      (textIds b (opening c think)).map (·.map Int.ofNat) := by
  unfold opening
  rw [promptIds_cons, segIds, contentIds_eq (by decide)]
  split_ifs
  · rw [promptIds_cons, segIds, contentIds_eq (by decide), textIds_append (by decide +kernel)]
    cases textIds b (ascii "assistant\n") with
    | none => rfl
    | some rs =>
        cases textIds b thinkBlock with
        | none => rfl
        | some ts => simp [promptIds]
  · rw [List.append_nil]
    cases textIds b (ascii "assistant\n") with
    | none => rfl
    | some rs => simp [promptIds]

/-- A turn behind its marker: two stretches, the second without a content. -/
theorem promptIds_turn (hstart : c.imStart = ((engBpeFind b imStartText).getD 0 : Nat))
    (hend : c.imEnd = ((engBpeFind b imEndText).getD 0 : Nat)) (role : Bytes) {content : Bytes} {segs : List Seg}
    {sts : List Stretch} {last : Bytes} (hrole : role.length < 2 ^ 31) (hcontent : content.length < 2 ^ 31)
    (hsegs : promptIds b segs = (stretchIds b sts last).map (·.map Int.ofNat)) :
    promptIds b (.text role :: .text content :: .marker c.imEnd :: .text (ascii "\n") :: .marker c.imStart :: segs) =
      (stretchIds b (turnStretches role content ++ sts) last).map (·.map Int.ofNat) := by
  have hline := promptIds_stretch ⟨ascii "\n", [], imStartText⟩ (by decide) (by decide) hsegs
  rw [promptIds_cons, promptIds_empty, ← promptIds_cons] at hline
  rw [hstart, hend]
  exact promptIds_stretch ⟨role, content, imEndText⟩ hrole hcontent hline

/-- **The prompt is its stretches**, each text for itself. -/
theorem promptIds_template (hstart : c.imStart = ((engBpeFind b imStartText).getD 0 : Nat))
    (hend : c.imEnd = ((engBpeFind b imEndText).getD 0 : Nat)) {system user : Option Bytes}
    (hsystem : (system.getD []).length < 2 ^ 31) (huser : (user.getD []).length < 2 ^ 31) (think : Bool) :
    promptIds b (segments c system user think) =
      (stretchIds b (templateStretches system user) (opening c think)).map (·.map Int.ofNat) := by
  have hopening : promptIds b _ = (stretchIds b [] (opening c think)).map (·.map Int.ofNat) :=
    promptIds_opening think
  have huserTurn := promptIds_turn hstart hend (ascii "user\n") (by decide) huser hopening
  have hmarker : ∀ {segs : List Seg} {sts : List Stretch},
      promptIds b segs = (stretchIds b sts (opening c think)).map (·.map Int.ofNat) →
      promptIds b (.marker c.imStart :: segs) =
        (stretchIds b (⟨[], [], imStartText⟩ :: sts) (opening c think)).map (·.map Int.ofNat) := by
    intro segs sts hsegs
    have hstretch := promptIds_stretch ⟨[], [], imStartText⟩ (by decide) (by decide) hsegs
    rw [promptIds_empty, promptIds_empty, ← hstart] at hstretch
    exact hstretch
  unfold segments templateStretches turn
  by_cases hsys : system.getD [] = []
  · rw [if_neg (not_not.mpr hsys), if_neg (not_not.mpr hsys)]
    simpa [thinkBlock] using hmarker huserTurn
  · have hsystemTurn := promptIds_turn hstart hend (ascii "system\n") (by decide) hsystem huserTurn
    rw [if_pos hsys, if_pos hsys]
    simpa [thinkBlock] using hmarker hsystemTurn

end Prompt

/-! ## The think block -/

section Think

variable {g : Gguf} {b : EngBpe}

/-- **Where a special token stands**, the scan takes it or a longer one, or one that reaches into it
with the byte in front of it. -/
theorem Occurs.covers {s : Bytes} {cs : List (Bytes × Nat)} {fin : Bytes} (h : Occurs b s cs fin) {id : Nat}
    (hid : b.Findable id) : ∀ {u v : Bytes}, s = u ++ (b.text id ++ v) →
    ∃ p ∈ cs, b.text id <+: b.text p.2 ∨ ∃ c, u.getLast? = some c ∧ c ∈ b.text p.2 := by
  induction h with
  | last hno =>
      intro u v hs
      exact absurd ⟨id, hid, List.prefix_append _ v⟩ (hno u _ hs)
  | @next t rest i cs fin hbefore hlong _ ih =>
      intro u v hs
      rcases List.append_eq_append_iff.mp hs with ⟨z, rfl, hz⟩ | ⟨z, rfl, hz⟩
      · rcases List.append_eq_append_iff.mp hz with ⟨z', rfl, hz'⟩ | ⟨z', hz', -⟩
        · -- behind the one that is taken
          obtain ⟨p, hp, hfound⟩ := ih hz'
          refine ⟨p, List.mem_cons_of_mem _ hp, hfound.imp_right ?_⟩
          rintro ⟨c, hc, hmem⟩
          exact ⟨c, by simp [List.getLast?_append, hc], hmem⟩
        · refine ⟨(t, i), List.mem_cons_self, ?_⟩
          rcases List.eq_nil_or_concat' z with rfl | ⟨z, c, rfl⟩
          · -- at its place
            left
            rw [List.nil_append] at hz
            have hfront : b.text id <+: b.text i ++ rest := hz ▸ List.prefix_append _ v
            exact List.prefix_of_prefix_length_le hfront (List.prefix_append _ rest) (hlong.longest id hid hfront)
          · right
            refine ⟨c, by simp [List.getLast?_append], ?_⟩
            show c ∈ b.text i
            rw [hz']
            simp
      · rcases eq_or_ne z [] with rfl | hz0
        · rw [List.nil_append] at hz
          have hfront : b.text id <+: b.text i ++ rest := hz ▸ List.prefix_append _ v
          exact ⟨_, List.mem_cons_self, .inl
            (List.prefix_of_prefix_length_le hfront (List.prefix_append _ rest) (hlong.longest id hid hfront))⟩
        · refine absurd ⟨id, hid, ?_⟩ (hbefore u z rfl hz0)
          rw [← hz]
          exact List.prefix_append _ v

/-- A spelled-out text has no such token, if no fragment of it has both of the brackets. -/
theorem bracketed_absent (hb : engBpeFromGguf g = some b) {u m v : Bytes} (h : Spelled b (u ++ (m ++ v)))
    (hfrags : ∀ f ∈ fragments (u ++ (m ++ v)), ¬ (60 ∈ f.flatMap b2u ∧ 62 ∈ f.flatMap b2u))
    (hlast : u.getLast? = some 10) (hopen : 60 ∈ m) (hclose : 62 ∈ m)
    (hspecial : ∀ id, engBpeFind b m = some id → engBpeIsSpecial b id = true) : engBpeFind b m = none := by
  by_contra hsome
  obtain ⟨id, hid⟩ := Option.ne_none_iff_exists'.mp hsome
  have htext := text_of_find hb hid
  have hfindable : b.Findable id := by
    refine ⟨(List.getElem?_eq_some_iff.mp (tok_of_get hb hid)).1, hspecial id hid, ?_⟩
    rw [htext]
    exact List.ne_nil_of_mem hopen
  have hocc := occurs_specials hb (u ++ (m ++ v))
  obtain ⟨p, hp, hfront | ⟨c, hc, hmem⟩⟩ := hocc.covers hfindable (by rw [htext])
  · obtain ⟨f, hf, hsub⟩ := mem_textPieces (h.piece p hp)
    rw [htext] at hfront
    exact hfrags f hf ⟨hsub (hfront.subset hopen), hsub (hfront.subset hclose)⟩
  · obtain rfl := Option.some.inj (hlast.symm.trans hc)
    exact h.newline p hp hmem

/-- **The tags of a spelled-out think block are no tokens.** -/
theorem thinkTags_absent (hb : engBpeFromGguf g = some b)
    (hspecial : ∀ m ∈ [imStartText, imEndText, thinkText, endThinkText], ∀ id,
      engBpeFind b m = some id → engBpeIsSpecial b id = true)
    (h : Spelled b (ascii "assistant\n" ++ thinkBlock)) :
    engBpeFind b thinkText = none ∧ engBpeFind b endThinkText = none := by
  have hfrags : ∀ f ∈ fragments (ascii "assistant\n" ++ thinkBlock),
      ¬ (60 ∈ f.flatMap b2u ∧ 62 ∈ f.flatMap b2u) := by
    decide +kernel
  constructor
  · have hsplit : ascii "assistant\n" ++ thinkBlock =
        ascii "assistant\n" ++ (thinkText ++ ascii "\n\n</think>\n\n") := rfl
    rw [hsplit] at h hfrags
    exact bracketed_absent hb h hfrags rfl (by decide) (by decide) (hspecial _ (by simp))
  · have hsplit : ascii "assistant\n" ++ thinkBlock =
        ascii "assistant\n<think>\n\n" ++ (endThinkText ++ ascii "\n\n") := rfl
    rw [hsplit] at h hfrags
    exact bracketed_absent hb h hfrags rfl (by decide) (by decide) (hspecial _ (by simp))

end Think

/-! ## The comparison -/

section Template

variable {g : Gguf} {b : EngBpe}

theorem marker_isTag {m : Bytes} (hlead : ∃ c m', m = c :: m' ∧ c < 0x80) {id : Nat}
    (hid : engBpeFind b m = some id) (hspecial : engBpeIsSpecial b id = true) :
    IsTag b m ((engBpeFind b m).getD 0) := by
  rw [hid, Option.getD_some]
  exact ⟨hid, hspecial, hlead⟩

theorem turn_wellFormed {w content : Bytes} (hw : ∀ c ∈ w, isLetter c = true ∧ b2u c = [c])
    (hstart : IsTag b imStartText ((engBpeFind b imStartText).getD 0))
    (hend : IsTag b imEndText ((engBpeFind b imEndText).getD 0))
    (hclear : ∀ id, b.Findable id → ¬ b.text id <:+: content) :
    ∀ st ∈ turnStretches (w ++ [10]) content, st.WellFormed b := by
  rw [turnStretches, List.forall_mem_cons, List.forall_mem_singleton]
  refine ⟨⟨⟨w, [10], rfl, hw, .inl rfl⟩, hclear, hend⟩, ⟨⟨[], [10], rfl, ?_, .inl rfl⟩, ?_, hstart⟩⟩
  · exact fun c hc => absurd hc List.not_mem_nil
  · intro id hid hin
    exact hid.nonempty (List.infix_nil.mp hin)

/-- The roles are letters that stand for themselves. -/
theorem role_letters : ∀ w ∈ [ascii "system", ascii "user"], ∀ c ∈ w, isLetter c = true ∧ b2u c = [c] := by
  have hall : ([ascii "system", ascii "user"].all fun w => w.all fun c => isLetter c && b2u c == [c]) = true := by decide
  intro w hw c hc
  simpa using List.all_eq_true.mp (List.all_eq_true.mp hall w hw) c hc

/-- The stretches of the template are well formed. -/
theorem template_wellFormed {system user : Option Bytes}
    (hstart : IsTag b imStartText ((engBpeFind b imStartText).getD 0))
    (hend : IsTag b imEndText ((engBpeFind b imEndText).getD 0))
    (hsystem : ∀ id, b.Findable id → ¬ b.text id <:+: system.getD [])
    (huser : ∀ id, b.Findable id → ¬ b.text id <:+: user.getD []) :
    ∀ st ∈ templateStretches system user, st.WellFormed b := by
  rw [templateStretches, List.forall_mem_cons, List.forall_mem_append]
  refine ⟨⟨⟨[], [], rfl, fun c hc => absurd hc List.not_mem_nil, .inr ⟨rfl, rfl, rfl⟩⟩, ?_, hstart⟩, ?_, ?_⟩
  · intro id hid hin
    exact hid.nonempty (List.infix_nil.mp hin)
  · split_ifs
    · exact turn_wellFormed (role_letters (ascii "system") (by simp)) hstart hend hsystem
    · exact fun st hst => absurd hst List.not_mem_nil
  · exact turn_wellFormed (role_letters (ascii "user") (by simp)) hstart hend huser

end Template

/-- The fixed texts of the template. -/
def fixedTexts (c : EngChat) (system : Option Bytes) (think : Bool) : List Bytes :=
  (if system.getD [] ≠ [] then [ascii "system\n"] else []) ++ [ascii "user\n", ascii "\n", opening c think]

/-- What is asked of the stretches, for the template. -/
theorem template_spelled (b : EngBpe) (c : EngChat) (system user : Option Bytes) (think : Bool) :
    (∀ st ∈ templateStretches system user, Spelled b st.fixed ∧ SeamAlone b st.content) ∧
        Spelled b (opening c think) ↔
      (∀ f ∈ fixedTexts c system think, Spelled b f) ∧
        SeamAlone b (system.getD []) ∧ SeamAlone b (user.getD []) := by
  have hnone := spelled_nil b
  have hempty := seamAlone_nil (b := b)
  unfold templateStretches fixedTexts turnStretches
  by_cases hsys : system.getD [] = []
  · rw [if_neg (not_not.mpr hsys), if_neg (not_not.mpr hsys), hsys]
    simp [hnone, hempty]
    tauto
  · rw [if_pos hsys, if_pos hsys]
    simp [hnone, hempty]
    tauto

/-- **When the prompt is the rendered template.**  The markers and, where there are any, the think tags
are special tokens, and neither text contains a special token's.  Then the two agree exactly when the
scan of the rendered template takes nothing but its tags and what it takes from the fixed texts by
themselves, those are spelled out, no content's leading newlines merge with the newline in front of
them, and no tag of a think block is a token. -/
theorem engChatBuild_rendered_iff (g : Gguf) (b : EngBpe) (c : EngChat)
    (hb : engBpeFromGguf g = some b) (hc : engChatDetect g b = c) (hfam : c.family = .chatml)
    (hspecial : ∀ m ∈ [imStartText, imEndText, thinkText, endThinkText], ∀ id,
      engBpeFind b m = some id → engBpeIsSpecial b id = true)
    (system user : Option Bytes) (think : Bool)
    (hlen : (rendered c system user think).length < 2 ^ 31)
    (hsystem : ∀ id ∈ b.spec, ¬ b.text id <:+: system.getD [])
    (huser : ∀ id ∈ b.spec, ¬ b.text id <:+: user.getD []) (cap cap' : Int) (x : List Int)
    (y : List Nat) (hx : engChatBuild c b system user think cap = some x)
    (hy : engBpeEncode b (rendered c system user think) cap' true = some y) :
    x = y.map Int.ofNat ↔
      specials b (rendered c system user think) = cutOf b (templateStretches system user) (opening c think) ∧
      (∀ f ∈ fixedTexts c system think, Spelled b f) ∧
      SeamAlone b (system.getD []) ∧ SeamAlone b (user.getD []) ∧
      (think = false → c.supportsThink = true →
        engBpeFind b thinkText = none ∧ engBpeFind b endThinkText = none) := by
  obtain ⟨si, ei, hs, he, hsi, hei⟩ := engChatDetect_ids hc hfam
  have hstart := marker_isTag ⟨_, _, rfl, by decide⟩ hs (hspecial imStartText (by simp) si hs)
  have hend := marker_isTag ⟨_, _, rfl, by decide⟩ he (hspecial imEndText (by simp) ei he)
  have hlens : (system.getD []).length < 2 ^ 31 ∧ (user.getD []).length < 2 ^ 31 := by
    unfold rendered at hlen
    simp only [List.length_append] at hlen
    by_cases hsys : system.getD [] = []
    · rw [hsys, List.length_nil]
      omega
    · rw [if_pos hsys] at hlen
      simp only [List.length_append] at hlen
      omega
  -- what each of the two comes to
  obtain ⟨x₀, hx₀, rfl⟩ : ∃ x₀, stretchIds b (templateStretches system user) (opening c think) = some x₀ ∧
      x = x₀.map Int.ofNat := by
    rw [engChatBuild_eq b cap hfam, promptIds_template (by rw [hsi, hs]; rfl) (by rw [hei, he]; rfl)
      hlens.1 hlens.2] at hx
    obtain ⟨ids, hids, hwithin⟩ := Option.bind_eq_some_iff.mp hx
    obtain ⟨x₀, hx₀, rfl⟩ := Option.map_eq_some_iff.mp hids
    unfold within at hwithin
    split_ifs at hwithin
    exact ⟨x₀, hx₀, (Option.some.inj hwithin).symm⟩
  have hcut : cutIds b (specials b (rendered c system user think)).1
      (specials b (rendered c system user think)).2 = some y := by
    have hpoints := (occurs_specials hb (rendered c system user think)).cut hb
    rw [engBpeEncode, encodeLoop_cut hpoints _ _ (Nat.le_refl _), appendFitting] at hy
    obtain ⟨ids, hids, hfit⟩ := Option.bind_eq_some_iff.mp hy
    split_ifs at hfit
    obtain rfl := Option.some.inj hfit
    exact hids
  rw [← render_template] at hcut ⊢
  have hiff := stretches_iff hb (opening c think) (templateStretches system user)
    (template_wellFormed hstart hend (fun id hid => hsystem id ((mem_spec hb).mpr hid))
      fun id hid => huser id ((mem_spec hb).mpr hid)) hx₀ hcut
  rw [List.map_inj_right (f := Int.ofNat) fun _ _ h => Int.ofNat.inj h, hiff, template_spelled]
  have htags (hfixed : ∀ f ∈ fixedTexts c system think, Spelled b f) :
      think = false → c.supportsThink = true →
        engBpeFind b thinkText = none ∧ engBpeFind b endThinkText = none := by
    rintro rfl hthink
    have hopening := hfixed (opening c false) (by simp [fixedTexts])
    simp only [opening, hthink, Bool.not_false, Bool.and_self, if_true] at hopening
    exact thinkTags_absent hb hspecial hopening
  constructor
  · rintro ⟨hscan, hfixed, hsys, hus⟩
    exact ⟨hscan, hfixed, hsys, hus, htags hfixed⟩
  · rintro ⟨hscan, hfixed, hsys, hus, -⟩
    exact ⟨hscan, hfixed, hsys, hus⟩

/-- A template with a think block, the tags the vocabulary has of it, a pair of newlines as a token
with its merge, and the bytes of a short prompt. -/
def thinkContainer (tags : List Bytes) : Gguf :=
  tableContainer
    (imStartText :: imEndText :: (b2u 10 ++ b2u 10) :: (ascii "useratin\n<>/hk").map (fun c => b2u c) ++
      tags)
    (3 :: 3 :: List.replicate 15 1 ++ tags.map fun _ => 4) [b2u 10 ++ [32] ++ b2u 10]
    (ascii "<|im_start|>enable_thinking")

/-- Beside the markers the vocabulary has a special token for the two characters they start with. -/
def plainBpe : EngBpe := (engBpeFromGguf (thinkContainer [ascii "<|"])).get (by decide +kernel)

def plainChat : EngChat := engChatDetect (thinkContainer [ascii "<|"]) plainBpe

def taggedBpe : EngBpe :=
  (engBpeFromGguf (thinkContainer [thinkText, endThinkText])).get (by decide +kernel)

def taggedChat : EngChat := engChatDetect (thinkContainer [thinkText, endThinkText]) taggedBpe

/-- Without the think tags in the vocabulary the empty think block is text on both sides, and `<|` is
never taken, since the longer marker stands at its place. -/
theorem plain_prompt_rendered :
    engChatBuild plainChat plainBpe none (some (ascii "hi")) false 38 =
      (engBpeEncode plainBpe (rendered plainChat none (some (ascii "hi")) false) 38 true).map
        (·.map Int.ofNat) := by
  have hload : engBpeFromGguf (thinkContainer [ascii "<|"]) = some plainBpe := (Option.some_get _).symm
  have hfacts : plainChat.family = .chatml ∧
      [imStartText, imEndText, thinkText, endThinkText].all (fun m =>
        (engBpeFind plainBpe m).all (engBpeIsSpecial plainBpe)) = true ∧
      (rendered plainChat none (some (ascii "hi")) false).length < 2 ^ 31 ∧
      (∀ id ∈ plainBpe.spec, ¬ plainBpe.text id <:+: ascii "hi") ∧
      (∀ id ∈ plainBpe.spec, ¬ plainBpe.text id <:+: []) ∧
      specials plainBpe (rendered plainChat none (some (ascii "hi")) false) =
        cutOf plainBpe (templateStretches none (some (ascii "hi"))) (opening plainChat false) ∧
      (∀ f ∈ fixedTexts plainChat none false, Spelled plainBpe f) ∧
      SeamAlone plainBpe [] ∧ SeamAlone plainBpe (ascii "hi") ∧
      engBpeFind plainBpe thinkText = none ∧ engBpeFind plainBpe endThinkText = none ∧
      engChatBuild plainChat plainBpe none (some (ascii "hi")) false 38 ≠ none ∧
      engBpeEncode plainBpe (rendered plainChat none (some (ascii "hi")) false) 38 true ≠ none := by
    decide +kernel
  obtain ⟨hfam, hall, hlen, huser, hsystem, hscan, hfixed, hseam, hseam', hopen, hclose, hbuilt, hencoded⟩ := hfacts
  have hspecial : ∀ m ∈ [imStartText, imEndText, thinkText, endThinkText], ∀ id,
      engBpeFind plainBpe m = some id → engBpeIsSpecial plainBpe id = true := by
    intro m hm id hid
    simpa [hid] using List.all_eq_true.mp hall m hm
  obtain ⟨x, hx⟩ := Option.ne_none_iff_exists'.mp hbuilt
  obtain ⟨y, hy⟩ := Option.ne_none_iff_exists'.mp hencoded
  have heq := (engChatBuild_rendered_iff (thinkContainer [ascii "<|"]) plainBpe plainChat hload rfl hfam hspecial
    none (some (ascii "hi")) false hlen hsystem huser 38 38 x y hx hy).mpr
    ⟨hscan, hfixed, hseam, hseam', fun _ _ => ⟨hopen, hclose⟩⟩
  rw [hx, hy, heq]
  rfl

/-- With them the prompt spells the tags out, and with a newline in front of the user's text the
template has one token for the two. -/
theorem tagged_prompt_not_rendered :
    engBpeFromGguf (thinkContainer [thinkText, endThinkText]) = some taggedBpe ∧
    taggedChat.family = .chatml ∧
    (∀ m ∈ [imStartText, imEndText, thinkText, endThinkText],
      (engBpeFind taggedBpe m).any (engBpeIsSpecial taggedBpe) = true) ∧
    (∀ id ∈ taggedBpe.spec, contains (ascii "\nhi") (taggedBpe.text id) = false) ∧
    engChatBuild taggedChat taggedBpe none (some (ascii "hi")) false 60 =
      some [0, 3, 4, 5, 6, 11, 15, 9, 1, 11, 0, 7, 4, 4, 9, 4, 8, 7, 10, 8, 11, 12, 8, 15, 9, 10, 16,
        13, 2, 12, 14, 8, 15, 9, 10, 16, 13, 2] ∧
    engBpeEncode taggedBpe (rendered taggedChat none (some (ascii "hi")) false) 60 true =
      some [0, 3, 4, 5, 6, 11, 15, 9, 1, 11, 0, 7, 4, 4, 9, 4, 8, 7, 10, 8, 11, 17, 2, 18, 2] ∧
    engChatBuild taggedChat taggedBpe none (some (ascii "\nhi")) true 60 =
      some [0, 3, 4, 5, 6, 11, 11, 15, 9, 1, 11, 0, 7, 4, 4, 9, 4, 8, 7, 10, 8, 11] ∧
    engBpeEncode taggedBpe (rendered taggedChat none (some (ascii "\nhi")) true) 60 true =
      some [0, 3, 4, 5, 6, 2, 15, 9, 1, 11, 0, 7, 4, 4, 9, 4, 8, 7, 10, 8, 11] :=
  ⟨(Option.some_get _).symm, by decide +kernel⟩

end LlmEngine.Tokenizer
