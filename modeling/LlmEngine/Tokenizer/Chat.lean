/-
# LlmEngine.Tokenizer.Chat — prompts as token ids (`src/tokenizer/chat.c`).

The markers of a turn go out as ids, the content as ordinary text.  `segments` is the layout of a
prompt and `promptIds` its ids, whatever the capacity; `eng_chat_build` is that, or nothing
(`engChatBuild_eq`).  A piece of ordinary text is one mapped byte or a text that a merge entry
spells, so with no such entry for a marker none of its ids comes out of text
(`engChatBuild_unforgeable`).

A C string is the list of its bytes before the terminator.

* `putSegs_eq`: put one by one, the segments are the whole layout or nothing, by induction on the layout.
* `piece_origin`: a piece is a single mapped byte, or merging joined it, and then an entry of the list spells it.
* `not_mem_contentIds`: so the id of a longer text that no entry spells does not come out of ordinary text.
* `engChatDetect_ids`: the markers' ids are those found for their texts.

What relates the layout to a rendered template is `Tokenizer.Rendered`.
-/
import LlmEngine.Tokenizer.RoundTrip

namespace LlmEngine.Tokenizer

open LlmEngine.Lib
open LlmEngine.Lib.LittleEndian
open LlmEngine.Formats

/-! ## The family -/

inductive EngChatFamily where
  /-- `ENG_CHAT_NONE`: no template, or one that is not implemented -/
  | none
  /-- `ENG_CHAT_CHATML` -/
  | chatml
  deriving DecidableEq, Repr

/-- `EngChat`; an id is -1 where the token is absent. -/
structure EngChat where
  family : EngChatFamily
  imStart : Int
  imEnd : Int
  eos : Int
  supportsThink : Bool
  deriving DecidableEq, Repr

/-- `contains`. -/
def contains (hay needle : Bytes) : Bool :=
  needle ≠ [] && hay.tails.any needle.isPrefixOf

def imStartText : Bytes := ascii "<|im_start|>"

def imEndText : Bytes := ascii "<|im_end|>"

/-- `eng_chat_detect`. -/
def engChatDetect (g : Gguf) (b : EngBpe) : EngChat :=
  let absent : EngChat :=
    { family := .none, imStart := -1, imEnd := -1, eos := b.eos, supportsThink := false }
  match ggufStr g (ascii "tokenizer.chat_template") with
  | none => absent
  | some tpl =>
      if tpl.length = 0 then absent
      else if contains tpl imStartText then
        match engBpeFind b imStartText, engBpeFind b imEndText with
        | some s, some e =>
            { absent with
              family := .chatml
              imStart := s
              imEnd := e
              supportsThink := contains tpl (ascii "enable_thinking") }
        | _, _ => absent  -- the markers are not tokens
      else absent

/-! ## Building a prompt -/

/-- `put_id`. -/
def putId (cap : Int) (out : List Int) (id : Int) : Option (List Int) :=
  if out.length ≥ cap then none else some (out ++ [id])

/-- What `eng_bpe_encode` is given of a text: its length goes over as a C `int`, and a negative one
comes back from `(int)strlen` as it was. -/
def passedText (s : Bytes) : Bytes := s.take (BitVec.ofNat 32 s.length).toInt.toNat

/-- `put_text`. -/
def putText (b : EngBpe) (cap : Int) (out : List Int) (s : Bytes) : Option (List Int) :=
  if s = [] then some out
  else
    match engBpeEncode b (passedText s) (cap - out.length) false with
    | none => none
    | some ids => some (out ++ ids.map Int.ofNat)

/-- `eng_chat_build`; `none` is -1 for the prompt and `NULL` for a text. -/
def engChatBuild (c : EngChat) (b : EngBpe) (system user : Option Bytes) (think : Bool) (cap : Int) :
    Option (List Int) :=
  if cap ≤ 0 then none
  else if c.family ≠ .chatml then none
  else do
    let out ←
      if system.getD [] ≠ [] then do
        let out ← putId cap [] c.imStart
        let out ← putText b cap out (ascii "system\n")
        let out ← putText b cap out (system.getD [])
        let out ← putId cap out c.imEnd
        putText b cap out (ascii "\n")
      else some []
    let out ← putId cap out c.imStart
    let out ← putText b cap out (ascii "user\n")
    let out ← putText b cap out (user.getD [])
    let out ← putId cap out c.imEnd
    let out ← putText b cap out (ascii "\n")
    let out ← putId cap out c.imStart
    let out ← putText b cap out (ascii "assistant\n")
    if !think && c.supportsThink then putText b cap out (ascii "<think>\n\n</think>\n\n")
    else some out

/-! ## The layout -/

/-- A prompt alternates between ids put down as they are and texts. -/
inductive Seg where
  | marker (id : Int)
  | text (s : Bytes)
  deriving DecidableEq, Repr

/-- A turn: a marker, the role's line, the content, the closing marker and its newline. -/
def turn (c : EngChat) (role content : Bytes) : List Seg :=
  [.marker c.imStart, .text role, .text content, .marker c.imEnd, .text (ascii "\n")]

/-- The turns of a prompt and the opening of the answer. -/
def segments (c : EngChat) (system user : Option Bytes) (think : Bool) : List Seg :=
  (if system.getD [] ≠ [] then turn c (ascii "system\n") (system.getD []) else []) ++
    turn c (ascii "user\n") (user.getD []) ++
    [.marker c.imStart, .text (ascii "assistant\n")] ++
    if !think && c.supportsThink then [.text (ascii "<think>\n\n</think>\n\n")] else []

/-- The ids of a text, whatever the capacity. -/
def contentIds (b : EngBpe) (s : Bytes) : Option (List Int) :=
  (textIds b (passedText s)).map (·.map Int.ofNat)

def segIds (b : EngBpe) : Seg → Option (List Int)
  | .marker id => some [id]
  | .text s => contentIds b s

/-- The ids of a layout, whatever the capacity. -/
def promptIds (b : EngBpe) (segs : List Seg) : Option (List Int) :=
  (segs.mapM (segIds b)).map List.flatten

/-- A list, if it fits. -/
def within (cap : Int) (ids : List Int) : Option (List Int) :=
  if ids.length ≤ cap then some ids else none

/-- `put_id` and `put_text`, by the kind of segment. -/
def putSeg (b : EngBpe) (cap : Int) (out : List Int) : Seg → Option (List Int)
  | .marker id => putId cap out id
  | .text s => putText b cap out s

section Layout

variable (b : EngBpe) (cap : Int)

theorem promptIds_cons (seg : Seg) (segs : List Seg) : promptIds b (seg :: segs) =
    (segIds b seg).bind fun xs => (promptIds b segs).map (xs ++ ·) := by
  unfold promptIds
  rw [List.mapM_cons]
  cases segIds b seg with
  | none => rfl
  | some xs =>
      cases segs.mapM (segIds b) with
      | none => rfl
      | some ys => rfl

theorem promptIds_none (segs : List Seg) :
    promptIds b segs = none ↔ ∃ seg ∈ segs, segIds b seg = none := by
  induction segs with
  | nil => simp [promptIds]
  | cons seg segs ih =>
      rw [promptIds_cons]
      cases hseg : segIds b seg with
      | none => simp [hseg]
      | some xs => simp [hseg, ih]

theorem putSeg_eq (seg : Seg) (out : List Int) (hout : out.length ≤ cap) :
    putSeg b cap out seg = (segIds b seg).bind fun ids => within cap (out ++ ids) := by
  cases seg with
  | marker id =>
      simp only [putSeg, putId, segIds, within, Option.bind_some, List.length_append,
        List.length_singleton]
      push_cast
      by_cases hfull : (out.length : Int) ≥ cap
      · rw [if_pos hfull, if_neg (by omega)]
      · rw [if_neg hfull, if_pos (by omega)]
  | text s =>
      simp only [putSeg, putText, segIds, contentIds]
      by_cases hs : s = []
      · subst hs
        simp [passedText, textIds_nil, within, hout]
      · rw [if_neg hs, engBpeEncode_eq]
        cases textIds b (passedText s) with
        | none => rfl
        | some ids =>
            have hiff : fitting (cap - out.length) 0 ids ↔ (out.length + ids.length : Int) ≤ cap := by
              unfold fitting
              constructor
              · rintro (rfl | h)
                · simpa using hout
                · omega
              · intro h
                right
                omega
            by_cases hfit : fitting (cap - out.length) 0 ids
            · simp [appendFitting, within, hfit, hiff.mp hfit]
            · have hno := mt hiff.mpr hfit
              simp [appendFitting, within, hfit]
              omega

/-- **Segment by segment**: the whole layout, or nothing. -/
theorem putSegs_eq (segs : List Seg) : ∀ out : List Int, out.length ≤ cap →
    segs.foldlM (putSeg b cap) out = (promptIds b segs).bind fun ids => within cap (out ++ ids) := by
  induction segs with
  | nil =>
      intro out hout
      simp [promptIds, within, hout]
  | cons seg segs ih =>
      intro out hout
      rw [List.foldlM_cons, putSeg_eq b cap seg out hout, promptIds_cons]
      cases segIds b seg with
      | none => rfl
      | some xs =>
          by_cases hxs : ((out ++ xs).length : Int) ≤ cap
          · have hput : within cap (out ++ xs) = some (out ++ xs) := if_pos hxs
            simp only [Option.bind_some, hput, Option.bind_eq_bind]
            rw [ih _ hxs]
            cases promptIds b segs with
            | none => rfl
            | some ys => simp
          · -- what does not fit now does not fit with more behind it
            have hput : within cap (out ++ xs) = none := if_neg hxs
            simp only [Option.bind_some, hput, Option.bind_eq_bind, Option.bind_none]
            cases promptIds b segs with
            | none => rfl
            | some ys =>
                have hno : ¬ ((out ++ (xs ++ ys)).length : Int) ≤ cap := by
                  simp only [List.length_append] at hxs ⊢
                  push_cast at hxs ⊢
                  omega
                exact (if_neg hno).symm

/-- The first thing in a layout is a marker. -/
theorem segments_cons (c : EngChat) (system user : Option Bytes) (think : Bool) :
    ∃ rest, segments c system user think = .marker c.imStart :: rest := by
  unfold segments turn
  split_ifs <;> exact ⟨_, rfl⟩

/-- **`eng_chat_build` is its layout**, if that can be encoded and fits. -/
theorem engChatBuild_eq {c : EngChat} (hc : c.family = .chatml) (system user : Option Bytes)
    (think : Bool) :
    engChatBuild c b system user think cap =
      (promptIds b (segments c system user think)).bind (within cap) := by
  by_cases hcap : cap ≤ 0
  · -- there is no room for the first marker
    have hnone : (promptIds b (segments c system user think)).bind (within cap) = none := by
      rcases Int.lt_or_eq_of_le hcap with hneg | hzero
      · apply Option.bind_eq_none_iff.mpr
        intro ids _
        exact if_neg (by omega)
      · have hputs := putSegs_eq b cap (segments c system user think) [] (by simp [hzero])
        obtain ⟨rest, hrest⟩ := segments_cons c system user think
        simp only [List.nil_append] at hputs
        rw [show within cap = fun ids => within cap ids from rfl, ← hputs, hrest, List.foldlM_cons]
        simp [putSeg, putId, hzero]
    rw [hnone, engChatBuild, if_pos hcap]
  · have hputs := putSegs_eq b cap (segments c system user think) [] (by simp; omega)
    simp only [List.nil_append] at hputs
    rw [show within cap = fun ids => within cap ids from rfl, ← hputs, engChatBuild, if_neg hcap,
      if_neg (by simp [hc])]
    unfold segments turn
    split_ifs <;> simp [putSeg]

end Layout

/-! ## What text cannot spell -/

section Unforgeable

variable {g : Gguf} {b : EngBpe}

/-- A piece is one mapped byte, or a text that the merge table knows. -/
theorem piece_origin {frag p : Bytes} (h : p ∈ pieces b frag) :
    (∃ c, p = b2u c) ∨ ∃ r, mapGet b.merge p = some r := by
  rcases PairMerge.mem_run h with hbyte | ⟨x, y, r, rfl, hr⟩
  · obtain ⟨c, -, rfl⟩ := List.mem_map.mp hbyte
    exact .inl ⟨c, rfl⟩
  · exact .inr ⟨r, hr⟩

theorem b2u_length_le (c : UInt8) : (b2u c).length ≤ 2 := by
  unfold b2u
  simp only
  split_ifs <;> simp

/-- A text of more than two bytes that no merge entry spells is no piece. -/
theorem not_piece (h : engBpeFromGguf g = some b) {t frag : Bytes} (hlen : 2 < t.length)
    (hmerge : ∀ i s, mergeEntry g i = some s → mergeText s ≠ some t) : t ∉ pieces b frag := by
  intro hmem
  rcases piece_origin hmem with ⟨c, rfl⟩ | ⟨r, hr⟩
  · have := b2u_length_le c
    omega
  · obtain ⟨s, hentry, hs⟩ := Option.bind_eq_some_iff.mp (mergeEntry_of_get h hr)
    exact hmerge r s hentry hs

theorem mem_of_mapM {α β : Type} {f : α → Option β} (l : List α) : ∀ {ys : List β} {y : β},
    l.mapM f = some ys → y ∈ ys → ∃ x ∈ l, f x = some y := by
  induction l with
  | nil =>
      intro ys y h hy
      obtain rfl := Option.some.inj h
      exact absurd hy List.not_mem_nil
  | cons x xs ih =>
      intro ys y h hy
      rw [List.mapM_cons] at h
      obtain ⟨z, hz, hrest⟩ := Option.bind_eq_some_iff.mp h
      obtain ⟨zs, hzs, hys⟩ := Option.bind_eq_some_iff.mp hrest
      obtain rfl := Option.some.inj hys
      rcases List.mem_cons.mp hy with rfl | hmem
      · exact ⟨x, List.mem_cons_self, hz⟩
      · obtain ⟨w, hw, hfw⟩ := ih hzs hmem
        exact ⟨w, List.mem_cons_of_mem x hw, hfw⟩

/-- **The id of such a text does not come out of text.** -/
theorem not_mem_contentIds (h : engBpeFromGguf g = some b) {t : Bytes} (hlen : 2 < t.length)
    (hmerge : ∀ i s, mergeEntry g i = some s → mergeText s ≠ some t) {id : Nat}
    (hid : engBpeFind b t = some id) {s : Bytes} {ids : List Int}
    (hids : contentIds b s = some ids) : (id : Int) ∉ ids := by
  intro hmem
  obtain ⟨ns, hns, rfl⟩ := Option.map_eq_some_iff.mp hids
  obtain ⟨n, hn, hcast⟩ := List.mem_map.mp hmem
  obtain rfl : n = id := Int.ofNat.inj hcast
  obtain ⟨fids, hfids, rfl⟩ := Option.map_eq_some_iff.mp hns
  obtain ⟨xs, hxs, hnx⟩ := List.mem_flatten.mp hn
  obtain ⟨frag, -, hfrag⟩ := mem_of_mapM _ hfids hxs
  unfold fragIds at hfrag
  split_ifs at hfrag
  obtain ⟨p, hp, hget⟩ := mem_of_mapM _ hfrag hnx
  -- the id is that of the piece, so the piece is the text
  have hpt := (tok_of_get h hget).symm.trans (tok_of_get h hid)
  rw [Option.some.inj hpt] at hp
  exact not_piece h hlen hmerge hp

/-- What ChatML means for the ids. -/
theorem engChatDetect_ids {c : EngChat} (hc : engChatDetect g b = c) (hfam : c.family = .chatml) :
    ∃ s e : Nat, engBpeFind b imStartText = some s ∧ engBpeFind b imEndText = some e ∧
      c.imStart = s ∧ c.imEnd = e := by
  subst hc
  unfold engChatDetect at hfam ⊢
  simp only at hfam ⊢
  split at hfam
  · exact absurd hfam (by simp)
  · next tpl _ =>
      split_ifs at hfam ⊢ with hempty hml
      split at hfam
      · next s e hs he => exact ⟨s, e, hs, he, rfl, rfl⟩
      · exact absurd hfam (by simp)

end Unforgeable

/-- **User text cannot forge a turn.**  A prompt is its layout, markers and texts in order, or there
is none: when a text of it cannot be encoded, or the whole does not fit.  The two markers differ, and
no text encodes to either of them. -/
theorem engChatBuild_unforgeable (g : Gguf) (b : EngBpe) (c : EngChat)
    (hb : engBpeFromGguf g = some b) (hc : engChatDetect g b = c) (hfam : c.family = .chatml)
    (hmerge : ∀ i s, mergeEntry g i = some s →
      mergeText s ≠ some imStartText ∧ mergeText s ≠ some imEndText)
    (system user : Option Bytes) (think : Bool) (cap : Int) :
    (∀ out, engChatBuild c b system user think cap = some out ↔
      promptIds b (segments c system user think) = some out ∧ (out.length : Int) ≤ cap) ∧
    (engChatBuild c b system user think cap = none ↔
      (∃ seg ∈ segments c system user think, segIds b seg = none) ∨
      ∃ ids, promptIds b (segments c system user think) = some ids ∧ cap < ids.length) ∧
    c.imStart ≠ c.imEnd ∧
    ∀ s ids, contentIds b s = some ids → c.imStart ∉ ids ∧ c.imEnd ∉ ids := by
  obtain ⟨si, ei, hs, he, hsi, hei⟩ := engChatDetect_ids hc hfam
  rw [engChatBuild_eq b cap hfam, hsi, hei]
  refine ⟨fun out => ?_, ?_, ?_, fun s ids hids => ⟨?_, ?_⟩⟩
  · cases promptIds b (segments c system user think) with
    | none => simp
    | some ids =>
        rw [Option.bind_some, within]
        split_ifs with hfit
        · simp only [Option.some.injEq]
          constructor
          · rintro rfl
            exact ⟨rfl, hfit⟩
          · exact fun h => h.1
        · simp only [Option.some.injEq, false_iff]
          rintro ⟨rfl, hle⟩
          exact hfit hle
  · rw [← promptIds_none]
    cases promptIds b (segments c system user think) with
    | none => simp
    | some ids => simp [within]
  · intro heq
    have hst := tok_of_get hb hs
    rw [Int.ofNat.inj heq, tok_of_get hb he] at hst
    exact absurd (Option.some.inj hst) (by decide)
  · exact not_mem_contentIds hb (by decide) (fun i t ht => (hmerge i t ht).1) hs hids
  · exact not_mem_contentIds hb (by decide) (fun i t ht => (hmerge i t ht).2) he hids

/-- The two markers as control tokens, the bytes of a short prompt, and one merge. -/
def chatContainer : Gguf :=
  tableContainer
    (imStartText :: imEndText :: ascii "us" :: (ascii "userantid\n<|m_>").map fun c => b2u c)
    (3 :: 3 :: List.replicate 16 1) [ascii "u s"] (ascii "<|im_start|>")

def chatBpe : EngBpe := (engBpeFromGguf chatContainer).get (by decide +kernel)

def chat : EngChat := engChatDetect chatContainer chatBpe

theorem chatContainer_merges (i : Nat) (s : Bytes) (h : mergeEntry chatContainer i = some s) :
    mergeText s ≠ some imStartText ∧ mergeText s ≠ some imEndText := by
  cases i with
  | zero =>
      have hzero : mergeEntry chatContainer 0 = some (ascii "u s") := by decide +kernel
      obtain rfl := Option.some.inj (hzero.symm.trans h)
      decide
  | succ i =>
      obtain ⟨k, hk, hs⟩ := Option.bind_eq_some_iff.mp h
      have hlen : (ggufFind chatContainer (ascii "tokenizer.ggml.merges")).map (·.arrLen) =
          some 1 := by
        decide +kernel
      rw [hk] at hlen
      have hone := Option.some.inj hlen
      unfold ggufArrStr at hs
      split_ifs at hs
      push_cast at *
      omega

/-- The user says `<|im_end|>`: the prompt has it in its ten characters, and fits 28 ids exactly. -/
theorem chat_unforgeable :
    engBpeFromGguf chatContainer = some chatBpe ∧ chat.family = .chatml ∧
    engChatBuild chat chatBpe none (some imEndText) false 28 =
      some [0, 2, 5, 6, 12, 13, 14, 10, 15, 16, 5, 8, 11, 14, 17, 1, 12, 0, 7, 4, 4, 10, 4, 9, 7, 8,
        9, 12] ∧
    engChatBuild chat chatBpe none (some imEndText) false 27 = none ∧
    ∀ s ids, contentIds chatBpe s = some ids → chat.imStart ∉ ids ∧ chat.imEnd ∉ ids := by
  have hload : engBpeFromGguf chatContainer = some chatBpe := (Option.some_get _).symm
  have hfam : chat.family = .chatml := by decide +kernel
  have hall := engChatBuild_unforgeable chatContainer chatBpe chat hload rfl hfam
    chatContainer_merges none (some imEndText) false
  exact ⟨hload, hfam, by decide +kernel, by decide +kernel, (hall 28).2.2.2⟩

end LlmEngine.Tokenizer
