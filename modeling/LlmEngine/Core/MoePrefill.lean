/-
# LlmEngine.Core.MoePrefill — the batched MoE computes what the per-token MoE computes.

The per-token value of the block is written down once as a function of the input alone
(`moeValue`), for a source whose answers do not depend on its state (`Steady`).  The token loop
computes it, and so does the expert-major loop: every cell of the staging buffer that a slot reads
has been written with that slot's expert, because every expert a slot names is in the list of
unique experts, and the cells are then summed in slot order.

* `moeWith_value`, `moePrefillWith_value`: both paths give `moeValue` on every token, from any state of the source.
* `expertOut_drops`, `stageAll_drops` and what is built of them: neither path drops an expert.
* `collect` lists each expert of a sub-chunk once, in the order of first use (`collectSlot_fold`), so an expert is
  fetched once a sub-chunk where the token loop fetches it once a slot.

`moe_prefill_is_moe` puts these together for a source that serves every expert of the layer, for any number of
tokens, any sub-chunk size the code has and whatever the staging buffer held.  In cache-only mode the batched path
steps aside and calls the other one (`moePrefillWith_cacheOnly`), so there is nothing to compare.
-/
import LlmEngine.Core.Moe

namespace LlmEngine.Core

open LlmEngine.Lib

variable {F D σ : Type} [Arith F] [Arith D] (fp : Fpu F D) (c : K3NumCfg F)

/-! ## What the block computes -/

/-- A source whose answers depend on the expert alone, for the `n` experts of the layer: in
cache-only mode which experts are resident does not change, and otherwise `get` always succeeds. -/
structure Steady (n : Nat) (w : K3MoeW F σ) (answer : Nat → Option K3ExpertQ) : Prop where
  get : w.cacheOnly = false → ∀ src ∈ w.src, ∀ s, ∀ e < n, (src.get s w.layer e).1 = answer e
  served : w.cacheOnly = false → ∀ e < n, (answer e).isSome = true
  resident : w.cacheOnly = true → ∀ src ∈ w.src, ∀ r ∈ src.resident, ∀ s, ∀ e < n,
    (r s w.layer e).1 = answer e

/-- The output of expert `e` on `z`. -/
def expertValue (w : K3MoeW F σ) (answer : Nat → Option K3ExpertQ) (z : Vec F) (e : Nat) :
    Option (Vec F) :=
  if w.src.isSome then (answer e).map fun q => streamedExpert fp c q z
  else some (bankExpert fp c w e z)

/-- One more slot of the aggregate. -/
def addSlot (w : K3MoeW F σ) (answer : Nat → Option K3ExpertQ) (z acc : Vec F) (p : Nat × F) :
    Vec F :=
  match expertValue fp c w answer z p.1 with
  | some edn => accumulate c acc p.2 edn
  | none => acc

/-- The slots a token uses, from the answers alone. -/
def slotsValue (w : K3MoeW F σ) (answer : Nat → Option K3ExpertQ) (slots : List (Nat × F)) :
    List (Nat × F) :=
  if w.cacheOnly && (w.src.bind K3ExpertSrc.resident).isSome then
    let kept := slots.filter fun p => (answer p.1).isSome
    let wsum := kept.foldl (fun s p => s + p.2) 0
    if fp.gt wsum 0 then kept.map fun p => (p.1, p.2 / wsum) else kept
  else slots

/-- **The block on one token**, as a function of the token alone. -/
def moeValue (w : K3MoeW F σ) (answer : Nat → Option K3ExpertQ) (route : Vec F → List (Nat × F))
    (x : Vec F) : Vec F :=
  moeTail fp c w x ((slotsValue fp w answer (route x)).foldl
    (addSlot fp c w answer (mmw fp x w.down c.hidden c.latent)) fun _ => 0)

/-! ## The token loop -/

section PerToken

variable {n : Nat} {w : K3MoeW F σ} {answer : Nat → Option K3ExpertQ}

omit [Arith F] in
theorem fetch_answer (hs : Steady n w answer) {src : K3ExpertSrc σ} (hsrc : src ∈ w.src)
    (io : ExpertIo σ) {e : Nat} (he : e < n) : (fetch w src io e).1 = answer e := by
  unfold fetch
  rcases hco : w.cacheOnly with _ | _
  · have h := hs.get hco src hsrc io.src e he
    rw [if_neg Bool.false_ne_true, ← h]
    split <;> next heq => rw [heq]
  · obtain ⟨r, hr⟩ := Option.isSome_iff_exists.mp (w.draft_resident hco src hsrc)
    rw [if_pos rfl, hr]
    exact hs.resident hco src hsrc r hr io.src e he

theorem expertOut_value (hs : Steady n w answer) (z : Vec F) (io : ExpertIo σ) {e : Nat}
    (he : e < n) :
    (expertOut fp c w z io e).1 = expertValue fp c w answer z e := by
  unfold expertOut expertValue
  cases hsrc : w.src with
  | none => rfl
  | some src =>
      dsimp only
      rw [fetch_answer hs (by rw [hsrc]; exact rfl) io he, Option.isSome_some, if_pos rfl]

theorem sumExperts_value (hs : Steady n w answer) (z : Vec F) {slots : List (Nat × F)}
    (hslots : ∀ p ∈ slots, p.1 < n) (io : ExpertIo σ) :
    (sumExperts fp c w z slots io).1 =
      slots.foldl (addSlot fp c w answer z) fun _ => 0 := by
  unfold sumExperts
  -- by induction on the slots, for every aggregate and source state reached before them
  generalize (fun _ => 0 : Vec F) = acc
  induction slots generalizing acc io with
  | nil => rfl
  | cons p slots ih =>
      rw [List.foldl_cons, List.foldl_cons]
      obtain ⟨hp, hrest⟩ := List.forall_mem_cons.mp hslots
      have hval := expertOut_value fp c hs z io hp
      unfold addSlot
      rw [← hval]
      rcases expertOut fp c w z io p.1 with ⟨_ | edn, io'⟩
      · exact ih hrest io' acc
      · exact ih hrest io' (accumulate c acc p.2 edn)

/-- The cache-only loop keeps the resident slots and sums their weights in order. -/
theorem keepSlot_fold {src : K3ExpertSrc σ} (hs : Steady n w answer) (hco : w.cacheOnly = true)
    (hsrc : src ∈ w.src) {r : σ → Nat → Nat → Option K3ExpertQ × σ} (hr : r ∈ src.resident)
    {slots : List (Nat × F)} (hslots : ∀ p ∈ slots, p.1 < n) (kept : List (Nat × F)) (ws : F)
    (io : ExpertIo σ) :
    ∃ io', slots.foldl (keepSlot w r) (kept, ws, io) =
      (kept ++ slots.filter (fun p => (answer p.1).isSome),
        (slots.filter fun p => (answer p.1).isSome).foldl (fun s p => s + p.2) ws, io') := by
  induction slots generalizing kept ws io with
  | nil =>
      refine ⟨io, ?_⟩
      rw [List.foldl_nil, List.filter_nil, List.append_nil, List.foldl_nil]
  | cons p slots ih =>
      obtain ⟨hp, hrest⟩ := List.forall_mem_cons.mp hslots
      have hans := hs.resident hco src hsrc r hr io.src p.1 hp
      rw [List.foldl_cons, List.filter_cons]
      rcases hcall : r io.src w.layer p.1 with ⟨_ | q, s'⟩
      · rw [hcall] at hans
        have hstep : keepSlot w r (kept, ws, io) p = (kept, ws, ⟨s', io.drops⟩) := by
          unfold keepSlot
          rw [hcall]
        have hmiss : ¬ (answer p.1).isSome = true := by rw [← hans]; exact Bool.false_ne_true
        rw [hstep, if_neg hmiss]
        exact ih hrest kept ws ⟨s', io.drops⟩
      · rw [hcall] at hans
        have hstep : keepSlot w r (kept, ws, io) p = (kept ++ [p], ws + p.2, ⟨s', io.drops⟩) := by
          unfold keepSlot
          rw [hcall]
        have hhit : (answer p.1).isSome = true := by rw [← hans]; rfl
        rw [hstep, if_pos hhit, List.foldl_cons,
          List.append_cons kept p (slots.filter fun p => (answer p.1).isSome)]
        exact ih hrest (kept ++ [p]) (ws + p.2) ⟨s', io.drops⟩

omit [Arith D] in
theorem keepResident_value {src : K3ExpertSrc σ} (hs : Steady n w answer)
    (hco : w.cacheOnly = true) (hsrc : src ∈ w.src)
    {r : σ → Nat → Nat → Option K3ExpertQ × σ} (hr : r ∈ src.resident)
    {slots : List (Nat × F)} (hslots : ∀ p ∈ slots, p.1 < n) (io : ExpertIo σ) :
    (keepResident fp w r slots io).1 =
      (let kept := slots.filter fun p => (answer p.1).isSome
       let wsum := kept.foldl (fun s p => s + p.2) 0
       if fp.gt wsum 0 then kept.map fun p => (p.1, p.2 / wsum) else kept) := by
  obtain ⟨io', h⟩ := keepSlot_fold hs hco hsrc hr hslots [] 0 io
  unfold keepResident
  rw [h, List.nil_append]
  dsimp only
  split
  · rfl
  · rfl

omit [Arith D] in
theorem usedSlots_value (hs : Steady n w answer) {slots : List (Nat × F)}
    (hslots : ∀ p ∈ slots, p.1 < n) (io : ExpertIo σ) :
    (usedSlots fp w slots io).1 = slotsValue fp w answer slots := by
  unfold usedSlots slotsValue
  cases hco : w.cacheOnly with
  | false => rfl
  | true =>
      rw [if_pos rfl, Bool.true_and]
      cases hr : w.src.bind K3ExpertSrc.resident with
      | none => rfl
      | some r =>
          obtain ⟨src, hsrc, hres⟩ := Option.bind_eq_some_iff.mp hr
          rw [Option.isSome_some, if_pos rfl]
          exact keepResident_value fp hs hco hsrc hres hslots io

omit [Arith D] in
/-- Filtering and renormalising the slots names no new expert. -/
theorem slotsValue_lt {slots : List (Nat × F)} (hslots : ∀ p ∈ slots, p.1 < n) :
    ∀ p ∈ slotsValue fp w answer slots, p.1 < n := by
  intro p hp
  unfold slotsValue at hp
  split at hp
  · dsimp only at hp
    split at hp
    · obtain ⟨p', hp', rfl⟩ := List.mem_map.mp hp
      exact hslots p' (List.mem_of_mem_filter hp')
    · exact hslots p (List.mem_of_mem_filter hp)
  · exact hslots p hp

theorem moeToken_value (hs : Steady n w answer) {route : Vec F → List (Nat × F)}
    (hroute : ∀ x, ∀ p ∈ route x, p.1 < n) (io : ExpertIo σ) (x : Vec F) :
    (moeToken fp c w route io x).1 = moeValue fp c w answer route x := by
  have hslots := usedSlots_value fp hs (hroute x) io
  unfold moeToken moeValue
  dsimp only
  rw [hslots, sumExperts_value fp c hs _ (slotsValue_lt fp (hroute x))]

/-- **The token loop**, from any state of the source. -/
theorem moeWith_value (hs : Steady n w answer) {route : Vec F → List (Nat × F)}
    (hroute : ∀ x, ∀ p ∈ route x, p.1 < n) (io : ExpertIo σ) (xs : List (Vec F)) :
    (moeWith fp c w route io xs).1 = xs.map (moeValue fp c w answer route) := by
  unfold moeWith
  induction xs generalizing io with
  | nil => rw [scan_nil, List.map_nil]
  | cons x xs ih =>
      rw [scan_cons, List.map_cons]
      dsimp only
      rw [moeToken_value fp c hs hroute, ih]

end PerToken

/-! ## The drop counter -/

section Drops

variable {n : Nat} {w : K3MoeW F σ} {answer : Nat → Option K3ExpertQ}

theorem expertOut_drops (hs : Steady n w answer) (hco : w.cacheOnly = false) (z : Vec F)
    (io : ExpertIo σ) {e : Nat} (he : e < n) :
    (expertOut fp c w z io e).2.drops = io.drops := by
  unfold expertOut
  cases hsrc : w.src with
  | none => rfl
  | some src =>
      have hget := hs.get hco src (by rw [hsrc]; exact rfl) io.src e he
      have hserved := hs.served hco e he
      dsimp only
      unfold fetch
      rw [hco, if_neg Bool.false_ne_true]
      rcases hcall : src.get io.src w.layer e with ⟨_ | q, s⟩
      · -- a miss is excluded: the source serves every expert
        rw [hcall] at hget
        rw [← hget] at hserved
        exact absurd hserved Bool.false_ne_true
      · rfl

theorem sumExperts_drops (hs : Steady n w answer) (hco : w.cacheOnly = false) (z : Vec F)
    {slots : List (Nat × F)} (hslots : ∀ p ∈ slots, p.1 < n) (io : ExpertIo σ) :
    (sumExperts fp c w z slots io).2.drops = io.drops := by
  unfold sumExperts
  generalize (fun _ => 0 : Vec F) = acc
  induction slots generalizing acc io with
  | nil => rfl
  | cons p slots ih =>
      rw [List.foldl_cons]
      obtain ⟨hp, hrest⟩ := List.forall_mem_cons.mp hslots
      have hdrops := expertOut_drops fp c hs hco z io hp
      rw [← hdrops]
      rcases hcall : expertOut fp c w z io p.1 with ⟨_ | edn, io'⟩
      · exact ih hrest io' acc
      · exact ih hrest io' (accumulate c acc p.2 edn)

omit [Arith F] in
theorem prefetch_drops (w : K3MoeW F σ) (experts : List Nat) (io : ExpertIo σ) :
    (prefetch w experts io).drops = io.drops := by
  unfold prefetch
  split
  · rfl
  · split
    · rfl
    · rfl

theorem moeWith_drops (hs : Steady n w answer) (hco : w.cacheOnly = false)
    {route : Vec F → List (Nat × F)} (hroute : ∀ x, ∀ p ∈ route x, p.1 < n)
    (io : ExpertIo σ) (xs : List (Vec F)) :
    (moeWith fp c w route io xs).2.drops = io.drops := by
  unfold moeWith
  induction xs generalizing io with
  | nil => rw [scan_nil]
  | cons x xs ih =>
      rw [scan_cons]
      dsimp only
      rw [ih]
      have hslots : usedSlots fp w (route x) io = (route x, io) := by
        unfold usedSlots
        rw [hco, if_neg Bool.false_ne_true]
      unfold moeToken
      dsimp only
      rw [hslots, sumExperts_drops fp c hs hco _ (hroute x), prefetch_drops]

end Drops

/-! ## The staging buffer -/

section Staging

variable {n : Nat} {w : K3MoeW F σ} {src : K3ExpertSrc σ} {bytes : Nat → K3ExpertQ}

omit [Arith F] in
/-- Collecting: the marks never run ahead of the list, the list only grows, and every existing
expert named by a slot is in it at the end. -/
theorem collectSlot_fold {nExperts : Nat} (slots : List (Nat × F)) (s : List Nat × (Nat → Bool))
    (hseen : ∀ e, s.2 e = true → e ∈ s.1) :
    (∀ e ∈ s.1, e ∈ (slots.foldl (collectSlot nExperts) s).1) ∧
      ∀ p ∈ slots, p.1 < nExperts → p.1 ∈ (slots.foldl (collectSlot nExperts) s).1 := by
  induction slots generalizing s with
  | nil =>
      refine ⟨fun e he => he, ?_⟩
      intro p hp
      exact absurd hp (List.not_mem_nil)
  | cons q slots ih =>
      rw [List.foldl_cons]
      by_cases hq : q.1 < nExperts ∧ s.2 q.1 = false
      · have hstep : collectSlot nExperts s q =
            (s.1 ++ [q.1], fun e => if e = q.1 then true else s.2 e) := if_pos hq
        rw [hstep]
        have hseen' : ∀ e, (if e = q.1 then true else s.2 e) = true → e ∈ s.1 ++ [q.1] := by
          intro e he
          apply List.mem_append.mpr
          by_cases heq : e = q.1
          · exact .inr (List.mem_singleton.mpr heq)
          · rw [if_neg heq] at he
            exact .inl (hseen e he)
        obtain ⟨hgrow, hall⟩ := ih (s.1 ++ [q.1], fun e => if e = q.1 then true else s.2 e) hseen'
        refine ⟨fun e he => hgrow e (List.mem_append_left _ he), ?_⟩
        intro p hp hlt
        rcases List.mem_cons.mp hp with rfl | hp
        · exact hgrow _ (List.mem_append_right _ (List.mem_singleton.mpr rfl))
        · exact hall p hp hlt
      · have hstep : collectSlot nExperts s q = s := if_neg hq
        rw [hstep]
        obtain ⟨hgrow, hall⟩ := ih s hseen
        refine ⟨hgrow, ?_⟩
        intro p hp hlt
        rcases List.mem_cons.mp hp with rfl | hp
        · -- an existing expert that is not added here has been marked before
          apply hgrow
          apply hseen
          rcases hmark : s.2 p.1 with _ | _
          · exact absurd ⟨hlt, hmark⟩ hq
          · rfl
        · exact hall p hp hlt

omit [Arith F] in
theorem mem_collect {nExperts : Nat} {slots : List (Nat × F)} {p : Nat × F} (hp : p ∈ slots)
    (hlt : p.1 < nExperts) : p.1 ∈ (collect nExperts slots).1 := by
  unfold collect
  apply (collectSlot_fold slots ([], fun _ => false) ?_).2 p hp hlt
  intro e he
  exact absurd he Bool.false_ne_true

omit [Arith F] in
/-- Only existing experts are collected. -/
theorem collect_lt (nExperts : Nat) (slots : List (Nat × F)) :
    ∀ e ∈ (collect nExperts slots).1, e < nExperts := by
  have key : ∀ (slots : List (Nat × F)) (s : List Nat × (Nat → Bool)),
      (∀ e ∈ s.1, e < nExperts) →
        ∀ e ∈ (slots.foldl (collectSlot nExperts) s).1, e < nExperts := by
    intro slots
    induction slots with
    | nil => exact fun s hs => hs
    | cons p slots ih =>
        intro s hs
        rw [List.foldl_cons]
        apply ih
        unfold collectSlot
        split
        · next hp =>
          intro e he
          rcases List.mem_append.mp he with he | he
          · exact hs e he
          · rw [List.mem_singleton.mp he]
            exact hp.1
        · exact hs
  exact key slots ([], fun _ => false) fun e he => absurd he (List.not_mem_nil)

omit [Arith D] in
/-- **The expert-major loop.**  A cell whose expert is still to come, or has been staged already,
ends up holding that expert's output on its token; and no expert is dropped. -/
theorem stageAll_cell (hget : ∀ s, ∀ e < n, (src.get s w.layer e).1 = some (bytes e))
    (routes : List (List (Nat × F))) (zz : List (Vec F)) {t j e : Nat}
    (hcell : ((routes.getD t []).map Prod.fst)[j]? = some e) {uniq : List Nat}
    (huniq : ∀ e ∈ uniq, e < n) (contrib : Nat → Nat → Vec F) (io : ExpertIo σ)
    (h : e ∈ uniq ∨ contrib t j = streamedExpert fp c (bytes e) (zz.getD t fun _ => 0)) :
    (stageAll fp c w src routes zz uniq contrib io).1 t j =
      streamedExpert fp c (bytes e) (zz.getD t fun _ => 0) := by
  unfold stageAll
  induction uniq generalizing contrib io with
  | nil =>
      rcases h with h | h
      · exact absurd h (List.not_mem_nil)
      · exact h
  | cons e' uniq ih =>
      rw [List.foldl_cons]
      obtain ⟨he', hrest⟩ := List.forall_mem_cons.mp huniq
      have hq := hget io.src e' he'
      rcases hcall : src.get io.src w.layer e' with ⟨q, s⟩
      rw [hcall] at hq
      obtain rfl : q = some (bytes e') := hq
      apply ih hrest
      dsimp only
      unfold stage
      by_cases heq : e' = e
      · subst heq
        exact .inr (if_pos hcell)
      · -- another expert leaves the cell alone
        have hother : ¬ ((routes.getD t []).map Prod.fst)[j]? = some e' := by
          rw [hcell]
          exact fun h => heq (Option.some.inj h).symm
        rw [if_neg hother]
        rcases h with h | h
        · rcases List.mem_cons.mp h with h | h
          · exact absurd h.symm heq
          · exact .inl h
        · exact .inr h

omit [Arith D] in
theorem stageAll_drops (hget : ∀ s, ∀ e < n, (src.get s w.layer e).1 = some (bytes e))
    (routes : List (List (Nat × F))) (zz : List (Vec F)) {uniq : List Nat}
    (huniq : ∀ e ∈ uniq, e < n) (contrib : Nat → Nat → Vec F) (io : ExpertIo σ) :
    (stageAll fp c w src routes zz uniq contrib io).2.drops = io.drops := by
  unfold stageAll
  induction uniq generalizing contrib io with
  | nil => rfl
  | cons e uniq ih =>
      rw [List.foldl_cons]
      obtain ⟨he, hrest⟩ := List.forall_mem_cons.mp huniq
      have hq := hget io.src e he
      rcases hcall : src.get io.src w.layer e with ⟨q, s⟩
      rw [hcall] at hq
      obtain rfl : q = some (bytes e) := hq
      exact ih hrest _ { src := s, drops := io.drops }

theorem addSlot_served {w : K3MoeW F σ} (hsrc : w.src.isSome = true) (z acc : Vec F)
    (p : Nat × F) :
    addSlot fp c w (fun e => some (bytes e)) z acc p =
      accumulate c acc p.2 (streamedExpert fp c (bytes p.1) z) := by
  unfold addSlot expertValue
  rw [hsrc, if_pos rfl]
  rfl

/-- Summing staged cells that hold the slots' experts is summing the experts; the slots start at
cell `k`. -/
theorem zipIdx_foldl_staged {w : K3MoeW F σ} (hsrc : w.src.isSome = true) (z : Vec F)
    (cb : Nat → Vec F) (slots : List (Nat × F)) (k : Nat) (acc : Vec F)
    (h : ∀ j p, slots[j]? = some p → cb (k + j) = streamedExpert fp c (bytes p.1) z) :
    (slots.zipIdx k).foldl (fun acc p => accumulate c acc p.1.2 (cb p.2)) acc =
      slots.foldl (addSlot fp c w (fun e => some (bytes e)) z) acc := by
  induction slots generalizing k acc with
  | nil => rfl
  | cons p slots ih =>
      rw [List.zipIdx_cons, List.foldl_cons, List.foldl_cons, addSlot_served fp c hsrc]
      have hhead : cb k = streamedExpert fp c (bytes p.1) z := h 0 p rfl
      rw [hhead]
      apply ih
      intro j p' hj
      rw [Nat.add_assoc, Nat.add_comm 1 j]
      exact h (j + 1) p' hj

theorem sumStaged_eq {w : K3MoeW F σ} (hsrc : w.src.isSome = true) (z : Vec F)
    (slots : List (Nat × F)) (cb : Nat → Vec F)
    (h : ∀ j p, slots[j]? = some p → cb j = streamedExpert fp c (bytes p.1) z) :
    sumStaged c slots cb =
      slots.foldl (addSlot fp c w (fun e => some (bytes e)) z) fun _ => 0 := by
  apply zipIdx_foldl_staged fp c hsrc
  intro j p hj
  rw [Nat.zero_add]
  exact h j p hj

end Staging

/-! ## The batched path -/

section Batched

variable {w : K3MoeW F σ} {src : K3ExpertSrc σ} {bytes : Nat → K3ExpertQ}
  {route : Vec F → List (Nat × F)}

omit [Arith D] in
theorem slotsValue_exact (answer : Nat → Option K3ExpertQ) (hco : w.cacheOnly = false)
    (slots : List (Nat × F)) : slotsValue fp w answer slots = slots := by
  unfold slotsValue
  rw [hco, Bool.false_and, if_neg Bool.false_ne_true]

/-- **A sub-chunk**, whatever was in the staging buffer before it. -/
theorem moePrefillChunk_value (hsrc : w.src = some src) (hco : w.cacheOnly = false)
    (hget : ∀ s, ∀ e < c.nExperts, (src.get s w.layer e).1 = some (bytes e))
    (hroute : ∀ x, ∀ p ∈ route x, p.1 < c.nExperts) (junk : Nat → Nat → Vec F)
    (io : ExpertIo σ) (xs : List (Vec F)) :
    (moePrefillChunk fp c w src route junk io xs).1 =
      xs.map (moeValue fp c w (fun e => some (bytes e)) route) := by
  unfold moePrefillChunk
  dsimp only
  apply List.ext_getElem
  · rw [List.length_map, List.length_range, List.length_map]
  · intro t h₁ h₂
    have ht : t < xs.length := by rwa [List.length_map] at h₂
    rw [List.getElem_map, List.getElem_map, List.getElem_range]
    -- token `t`, its slots and its latent input
    have hx : xs.getD t (fun _ => 0) = xs[t] := List.getD_eq_getElem _ _ ht
    have hr : (xs.map route).getD t [] = route xs[t] := by
      rw [List.getD_eq_getElem _ _ (by rwa [List.length_map]), List.getElem_map]
    have hz : (xs.map fun x => mmw fp x w.down c.hidden c.latent).getD t (fun _ => 0) =
        mmw fp xs[t] w.down c.hidden c.latent := by
      rw [List.getD_eq_getElem _ _ (by rwa [List.length_map]), List.getElem_map]
    unfold moeValue
    rw [hx, hr, slotsValue_exact fp _ hco]
    congr 1
    apply sumStaged_eq fp c (by rw [hsrc]; rfl)
    intro j p hj
    have hcell : (((xs.map route).getD t []).map Prod.fst)[j]? = some p.1 := by
      rw [hr, List.getElem?_map, hj]
      rfl
    rw [stageAll_cell fp c hget _ _ hcell (collect_lt _ _), hz]
    -- the slot's expert exists, so it is one of the unique experts
    have hp : p ∈ route xs[t] := List.mem_of_getElem? hj
    apply Or.inl
    apply mem_collect _ (hroute _ p hp)
    apply List.mem_flatten.mpr
    exact ⟨route xs[t], List.mem_map.mpr ⟨xs[t], List.getElem_mem ht, rfl⟩, hp⟩

theorem moePrefillChunk_drops
    (hget : ∀ s, ∀ e < c.nExperts, (src.get s w.layer e).1 = some (bytes e))
    (junk : Nat → Nat → Vec F) (io : ExpertIo σ) (xs : List (Vec F)) :
    (moePrefillChunk fp c w src route junk io xs).2.drops = io.drops := by
  unfold moePrefillChunk
  dsimp only
  rw [stageAll_drops fp c hget _ _ (collect_lt _ _), prefetch_drops]

theorem prefillPiece_value (hs : Steady c.nExperts w (fun e => some (bytes e)))
    (hsrc : w.src = some src) (hco : w.cacheOnly = false)
    (hget : ∀ s, ∀ e < c.nExperts, (src.get s w.layer e).1 = some (bytes e))
    (hroute : ∀ x, ∀ p ∈ route x, p.1 < c.nExperts) (junk : Nat → Nat → Vec F)
    (io : ExpertIo σ) (xs : List (Vec F)) :
    (prefillPiece fp c w src route junk io xs).1 =
        xs.map (moeValue fp c w (fun e => some (bytes e)) route) ∧
      (prefillPiece fp c w src route junk io xs).2.drops = io.drops := by
  unfold prefillPiece
  split
  · exact ⟨moeWith_value fp c hs hroute io xs, moeWith_drops fp c hs hco hroute io xs⟩
  · exact ⟨moePrefillChunk_value fp c hsrc hco hget hroute junk io xs,
      moePrefillChunk_drops fp c hget junk io xs⟩

omit [Arith F] in
/-- A source that serves every expert the same bytes is steady outside cache-only mode. -/
theorem steady_of_get {n : Nat} (hco : w.cacheOnly = false)
    (hget : ∀ src ∈ w.src, ∀ s, ∀ e < n, (src.get s w.layer e).1 = some (bytes e)) :
    Steady n w (fun e => some (bytes e)) where
  get := fun _ => hget
  served := fun _ _ _ => rfl
  resident := fun h => absurd (hco.symm.trans h) Bool.false_ne_true

/-- **The batched path**, outside cache-only mode: every token's value, and no drop. -/
theorem moePrefillWith_value (hco : w.cacheOnly = false)
    (hget : ∀ src ∈ w.src, ∀ s, ∀ e < c.nExperts, (src.get s w.layer e).1 = some (bytes e))
    (hroute : ∀ x, ∀ p ∈ route x, p.1 < c.nExperts) (noBatch : Bool)
    (junk : Nat → Nat → Vec F) (io : ExpertIo σ) (xs : List (Vec F)) :
    (moePrefillWith fp c w route noBatch junk io xs).1 =
        xs.map (moeValue fp c w (fun e => some (bytes e)) route) ∧
      (moePrefillWith fp c w route noBatch junk io xs).2.drops = io.drops := by
  have hs := steady_of_get hco hget
  have hmoe : (moeWith fp c w route io xs).1 =
        xs.map (moeValue fp c w (fun e => some (bytes e)) route) ∧
      (moeWith fp c w route io xs).2.drops = io.drops :=
    ⟨moeWith_value fp c hs hroute io xs, moeWith_drops fp c hs hco hroute io xs⟩
  unfold moePrefillWith
  split
  · exact hmoe
  · next src hsrc =>
    split
    · exact hmoe
    · have hget' := hget src (by rw [hsrc]; exact rfl)
      -- by induction on the sub-chunks, which together make up the batch
      have hpieces : ∀ (pieces : List (List (Vec F))) (io : ExpertIo σ),
          (scan (prefillPiece fp c w src route junk) io pieces).1.flatten =
              pieces.flatten.map (moeValue fp c w (fun e => some (bytes e)) route) ∧
            (scan (prefillPiece fp c w src route junk) io pieces).2.drops = io.drops := by
        intro pieces
        induction pieces with
        | nil => exact fun io => ⟨rfl, rfl⟩
        | cons ys pieces ih =>
            intro io
            obtain ⟨hout, hdrops⟩ := prefillPiece_value fp c hs hsrc hco hget' hroute junk io ys
            rw [scan_cons, List.flatten_cons, List.flatten_cons, List.map_append, (ih _).1,
              (ih _).2, hout]
            exact ⟨rfl, hdrops⟩
      have h := hpieces (pieces prefillChunk xs) io
      rwa [pieces_flatten (by decide)] at h

/-- Cache-only mode takes the per-token path whatever the batch. -/
theorem moePrefillWith_cacheOnly (hco : w.cacheOnly = true) (noBatch : Bool)
    (junk : Nat → Nat → Vec F) (io : ExpertIo σ) (xs : List (Vec F)) :
    moePrefillWith fp c w route noBatch junk io xs = moeWith fp c w route io xs := by
  unfold moePrefillWith
  split
  · rfl
  · rw [hco, Bool.or_true, if_pos rfl]

/-- The two paths, in either mode. -/
theorem moePrefillWith_eq_moeWith
    (hget : w.cacheOnly = false → ∀ src ∈ w.src, ∀ s, ∀ e < c.nExperts,
      (src.get s w.layer e).1 = some (bytes e))
    (hroute : ∀ x, ∀ p ∈ route x, p.1 < c.nExperts) (noBatch : Bool)
    (junk : Nat → Nat → Vec F) (io : ExpertIo σ) (xs : List (Vec F)) :
    (moePrefillWith fp c w route noBatch junk io xs).1 = (moeWith fp c w route io xs).1 ∧
      (moePrefillWith fp c w route noBatch junk io xs).2.drops =
        (moeWith fp c w route io xs).2.drops := by
  rcases hco : w.cacheOnly with _ | _
  · have hs := steady_of_get hco (hget hco)
    obtain ⟨hout, hdrops⟩ := moePrefillWith_value fp c hco (hget hco) hroute noBatch junk io xs
    rw [hout, hdrops, moeWith_value fp c hs hroute, moeWith_drops fp c hs hco hroute]
    exact ⟨rfl, rfl⟩
  · rw [moePrefillWith_cacheOnly fp c hco]
    exact ⟨rfl, rfl⟩

/-- **One token at a time or all at once.**  Let `get` succeed for every expert of the layer and
always answer with the same bytes.  Then for every batch, whatever the staging buffer held:

* `k3_moe_prefill` leaves in every token's output what `k3_moe` leaves there, and drops nothing
  that `k3_moe` does not drop;
* so it is for every routing of tokens to existing experts, with experts shared between tokens in
  any order and repeated within one token;
* outside cache-only mode the output of a token is what `k3_moe` computes for that token alone,
  from any state of the source. -/
theorem moe_prefill_is_moe (w : K3MoeW F σ) (bytes : Nat → K3ExpertQ)
    (hget : ∀ src ∈ w.src, ∀ s, ∀ e < c.nExperts, (src.get s w.layer e).1 = some (bytes e))
    (noBatch : Bool) (junk : Nat → Nat → Vec F) (io : ExpertIo σ) (xs : List (Vec F)) :
    ((k3MoePrefill fp c w noBatch junk io xs).1 = (k3Moe fp c w io xs).1 ∧
      (k3MoePrefill fp c w noBatch junk io xs).2.drops = (k3Moe fp c w io xs).2.drops) ∧
    (∀ route : Vec F → List (Nat × F), (∀ x, ∀ p ∈ route x, p.1 < c.nExperts) →
      (moePrefillWith fp c w route noBatch junk io xs).1 = (moeWith fp c w route io xs).1 ∧
      (moePrefillWith fp c w route noBatch junk io xs).2.drops =
        (moeWith fp c w route io xs).2.drops) ∧
    (w.cacheOnly = false → ∀ io' : ExpertIo σ,
      (k3MoePrefill fp c w noBatch junk io xs).1 =
        xs.flatMap fun x => (k3Moe fp c w io' [x]).1) := by
  have hrouter : ∀ x, ∀ p ∈ router fp c w.gate w.bias x, p.1 < c.nExperts :=
    fun x p hp => router_lt fp c w.gate w.bias x hp
  refine ⟨moePrefillWith_eq_moeWith fp c (fun _ => hget) hrouter noBatch junk io xs, ?_, ?_⟩
  · intro route hroute
    exact moePrefillWith_eq_moeWith fp c (fun _ => hget) hroute noBatch junk io xs
  · intro hco io'
    have hs := steady_of_get hco hget
    have hone : ∀ x, (k3Moe fp c w io' [x]).1 =
        [moeValue fp c w (fun e => some (bytes e)) (router fp c w.gate w.bias) x] :=
      fun x => moeWith_value fp c hs hrouter io' [x]
    unfold k3MoePrefill
    rw [(moePrefillWith_value fp c hco hget hrouter noBatch junk io xs).1]
    simp only [hone]
    exact List.map_eq_flatMap

end Batched

/-! ### A layer of three experts over integer arithmetic -/

scoped instance : Arith Int where

/-- Integer arithmetic in the place of floating point, with a step for a sigmoid. -/
def intFpu : Fpu Int Int where
  wide := id
  narrow := id
  ofInt := fun n => n
  ofIntD := fun n => n
  fma := fun a b d => a * b + d
  sqrt := fun _ => 1
  sqrtf := fun _ => 1
  expf := fun x => if x < 0 then 0 else x + 1
  tanhf := id
  gt := fun a b => decide (b < a)
  isZero := fun a => decide (a = 0)
  negInfinity := -1000000
  l2Eps := 1
  renormEps := 1
  bf16f := fun b => b.toInt
  matmulQ8 := fun W x inn out => tab out fun o =>
    loop inn 0 fun acc i => acc + (W (o * (4 + inn) + 4 + i)).toInt * x i
  mxfp4DotRowG := fun packed _ x n _ => loop n 0 fun acc i => acc + (packed (i / 2)).toInt * x i

/-- Two layers, KDA then MLA; three experts, two to a token. -/
def smallCfg : K3NumCfg Int where
  hidden := 2
  nLayers := 2
  vocab := 4
  kdaHeads := 1
  kdaHeadDim := 2
  convK := 3
  nHeads := 1
  qLora := 1
  kvLora := 1
  qkNope := 1
  qkRope := 1
  vHead := 1
  mlaOutGate := true
  nExperts := 3
  topk := 2
  nShared := 1
  latent := 2
  moeInter := 2
  moeRenorm := false
  latentNorm := true
  firstDense := 0
  denseInter := 1
  attnResBlock := 2
  fullAttn := [2]
  layers_pos := Nat.two_pos
  hidden_pos := Nat.two_pos
  vocab_pos := by decide
  some_kda := by decide
  in_range := by decide
  topk_max := by decide
  topk_le := by decide
  block_pos := Nat.two_pos
  conv_pos := by decide
  rmsEps := 1
  gateLb := -5
  routedScale := 1
  situB1 := 1
  situB2 := 1

/-- Expert `e` of the small layer: every packed byte is `e + 1`. -/
def smallExpert (e : Nat) : K3ExpertQ :=
  let b : Bytes := fun _ => BitVec.ofNat 8 (e + 1)
  ⟨b, b, b, b, b, b⟩

/-- A source that counts the fetches and refuses an expert the layer does not have. -/
def countingSrc : K3ExpertSrc Nat where
  get := fun s _ e => (if e < 3 then some (smallExpert e) else none, s + 1)
  getmany := none
  resident := none

/-- A streamed MoE layer of the small configuration. -/
def smallMoe : K3MoeW Int Nat where
  gate := fun i => 3 - i
  bias := none
  w1 := fun _ => 0
  w3 := fun _ => 0
  w2 := fun _ => 0
  latentNorm := fun _ => 1
  down := .f32 fun i => i + 1
  up := .f32 fun i => i + 1
  sh1 := .f32 fun _ => 1
  sh3 := .f32 fun _ => 1
  sh2 := .f32 fun _ => 1
  src := some countingSrc
  layer := 0
  cacheOnly := false
  draft_resident := fun h => absurd h Bool.false_ne_true

def smallTokens : List (Vec Int) := [fun _ => 1, fun i => i, fun _ => -2]

/-- Three tokens over the counting source: the batched path fetches each of the three experts once
where the per-token path fetches two for each token, and the outputs agree. -/
theorem small_prefill_is_moe :
    (k3MoePrefill intFpu smallCfg smallMoe false (fun _ _ _ => 9) ⟨0, 0⟩ smallTokens).1 =
        (k3Moe intFpu smallCfg smallMoe ⟨0, 0⟩ smallTokens).1 ∧
      (k3MoePrefill intFpu smallCfg smallMoe false (fun _ _ _ => 9) ⟨0, 0⟩ smallTokens).2.src = 3 ∧
      (k3Moe intFpu smallCfg smallMoe ⟨0, 0⟩ smallTokens).2.src = 6 := by
  have hget : ∀ src ∈ smallMoe.src, ∀ s, ∀ e < smallCfg.nExperts,
      (src.get s smallMoe.layer e).1 = some (smallExpert e) := by
    rintro src ⟨⟩ s e he
    exact if_pos he
  have h := moe_prefill_is_moe intFpu smallCfg smallMoe smallExpert hget false
    (fun _ _ _ => 9) ⟨0, 0⟩ smallTokens
  exact ⟨h.1.1, by decide, by decide⟩

end LlmEngine.Core
