/-
# LlmEngine.Cli.Draft — what backs the ids of an n-gram draft (`spec_draft` of `src/cli/k3_run.c`).

The drafter keeps two matches, the most recent ones.  What it emits is what followed both of them; the
rule it states is about every occurrence.  The two differ exactly where a still older occurrence went
on differently (`specDraft_ok_iff`).

The definition is that of the loop (`Cli.Generate`): four ids of suffix are tried, then three; for each the two
most recent earlier occurrences are looked for from the end, and ids are emitted while both went on alike.

* `lastHit_eq_some`: the scan down ends on the most recent occurrence, so the two matches are known without it.
* `draftAt_getElem?`: what is emitted at a position, as a condition on the sequence.
* `draftAt_backed_iff`: at one length the stated rule holds exactly where the older occurrences agree with the two.
* `specDraft_congr`: nothing but the first `T` ids is read.

`thrice` is a sequence on which a third, older occurrence went on differently; the draft is emitted all the same.
-/
import LlmEngine.Cli.GenerateSerial

namespace LlmEngine.Cli

variable (seq : Nat → Tok) (T n : Nat)

/-! ## Occurrences -/

/-- The last `n` ids were there before, from `j` on. -/
def Occurs (j : Nat) : Prop := j < T - n ∧ ∀ i < n, seq (j + i) = seq (T - n + i)

/-- `m` is the most recent occurrence that starts before `bound`. -/
structure LatestBefore (bound m : Nat) : Prop where
  below : m < bound
  occurs : Occurs seq T n m
  latest : ∀ j, m < j → j < bound → ¬ Occurs seq T n j

/-- `m` is the most recent occurrence. -/
def Latest (m : Nat) : Prop := LatestBefore seq T n (T - n) m

variable {seq T n}

theorem occurs_iff {j : Nat} : Occurs seq T n j ↔ j < T - n ∧ suffixHit seq T n j = true := by
  unfold Occurs suffixHit
  simp only [List.all_eq_true, List.mem_range, beq_iff_eq]

/-- **The scan down from `j`** ends on the most recent occurrence below it. -/
theorem lastHit_eq_some {m : Nat} (j : Nat) (hj : j ≤ T - n) :
    lastHit seq T n j = some m ↔ LatestBefore seq T n j m := by
  induction j with
  | zero => exact iff_of_false (by simp [lastHit]) fun h => absurd h.below (Nat.not_lt_zero m)
  | succ j ih =>
      rw [lastHit]
      split_ifs with hhit
      · have hocc : Occurs seq T n j := occurs_iff.mpr ⟨hj, hhit⟩
        constructor
        · intro h
          obtain rfl := Option.some.inj h
          exact ⟨Nat.lt_succ_self j, hocc, fun k hk hlt => absurd hlt (by omega)⟩
        · intro h
          have hle := h.below
          rcases Nat.lt_or_ge m j with hlt | hge
          · exact absurd hocc (h.latest j hlt (Nat.lt_succ_self j))
          · rw [show m = j by omega]
      · have hnot : ¬ Occurs seq T n j := fun h => hhit (occurs_iff.mp h).2
        rw [ih (by omega)]
        constructor
        · intro h
          refine ⟨Nat.lt_succ_of_lt h.below, h.occurs, fun k hk hlt => ?_⟩
          rcases Nat.lt_succ_iff_lt_or_eq.mp hlt with hlt | rfl
          · exact h.latest k hk hlt
          · exact hnot
        · intro h
          have hne : m ≠ j := fun heq => hnot (heq ▸ h.occurs)
          have hlt := h.below
          exact ⟨by omega, h.occurs, fun k hk hlt => h.latest k hk (Nat.lt_succ_of_lt hlt)⟩

/-- An occurrence below a bound is the most recent one there or older. -/
theorem exists_latest {bound j : Nat} (hb : bound ≤ T - n) (hj : j < bound) (hocc : Occurs seq T n j) :
    ∃ m, LatestBefore seq T n bound m ∧ j ≤ m := by
  induction bound with
  | zero => exact absurd hj (Nat.not_lt_zero j)
  | succ b ih =>
      by_cases hb' : Occurs seq T n b
      · exact ⟨b, ⟨Nat.lt_succ_self b, hb', fun k hk hlt => absurd hlt (by omega)⟩, by omega⟩
      · have hlt : j < b := by
          rcases Nat.lt_succ_iff_lt_or_eq.mp hj with hlt | rfl
          · exact hlt
          · exact absurd hocc hb'
        obtain ⟨m, hm, hle⟩ := ih (by omega) hlt
        refine ⟨m, ⟨Nat.lt_succ_of_lt hm.below, hm.occurs, fun k hk hlt => ?_⟩, hle⟩
        rcases Nat.lt_succ_iff_lt_or_eq.mp hlt with hlt | rfl
        · exact hm.latest k hk hlt
        · exact hb'

/-! ## One match length -/

/-- The two matches go on alike at offset `i`, before the sequence ends and before the older one runs
into the other. -/
def GoesOn (seq : Nat → Tok) (T n m1 : Nat) (m2 : Option Nat) (i : Nat) : Prop :=
  m1 + n + i < T ∧ ∀ m ∈ m2, m + n + i < m1 ∧ seq (m + n + i) = seq (m1 + n + i)

theorem continuation_cons {m1 : Nat} {m2 : Option Nat} {left i : Nat} (h : GoesOn seq T n m1 m2 i) :
    continuation seq T n m1 m2 (left + 1) i =
      seq (m1 + n + i) :: continuation seq T n m1 m2 left (i + 1) := by
  rw [continuation, if_pos h.1]
  cases m2 with
  | none => rfl
  | some m =>
      obtain ⟨hlt, heq⟩ := h.2 m rfl
      have hcut : ¬ (m + n + i ≥ m1 ∨ seq (m + n + i) ≠ seq (m1 + n + i)) := by
        rintro (hge | hne)
        · omega
        · exact hne heq
      simp only [if_neg hcut]

theorem continuation_stop {m1 : Nat} {m2 : Option Nat} {left i : Nat} (h : ¬ GoesOn seq T n m1 m2 i) :
    continuation seq T n m1 m2 left i = [] := by
  cases left with
  | zero => rfl
  | succ left =>
      rw [continuation]
      split_ifs with hT
      · cases m2 with
        | none => exact absurd ⟨hT, fun m hm => absurd hm (by simp)⟩ h
        | some m =>
            have hcut : m + n + i ≥ m1 ∨ seq (m + n + i) ≠ seq (m1 + n + i) := by
              by_contra hnot
              obtain ⟨hbefore, halike⟩ := not_or.mp hnot
              refine h ⟨hT, fun m' hm => ?_⟩
              obtain rfl := Option.some.inj hm
              exact ⟨Nat.lt_of_not_le hbefore, not_not.mp halike⟩
            simp only [if_pos hcut]
      · rfl

/-- **What is emitted at a position**: what followed the most recent match, as long as both went on
alike up to there. -/
theorem continuation_getElem? {m1 : Nat} {m2 : Option Nat} {id : Tok} (left : Nat) : ∀ {i p : Nat},
    (continuation seq T n m1 m2 left i)[p]? = some id ↔
      p < left ∧ id = seq (m1 + n + (i + p)) ∧ ∀ k ≤ p, GoesOn seq T n m1 m2 (i + k) := by
  induction left with
  | zero => intro i p; simp [continuation]
  | succ left ih =>
      intro i p
      by_cases hgo : GoesOn seq T n m1 m2 i
      · rw [continuation_cons hgo]
        cases p with
        | zero =>
            rw [List.getElem?_cons_zero, Option.some.injEq]
            constructor
            · rintro rfl
              refine ⟨Nat.succ_pos left, rfl, fun k hk => ?_⟩
              obtain rfl := Nat.le_zero.mp hk
              exact hgo
            · rintro ⟨-, rfl, -⟩
              rfl
        | succ p =>
            rw [List.getElem?_cons_succ, ih, show i + 1 + p = i + (p + 1) by omega]
            constructor
            · rintro ⟨hlt, heq, hall⟩
              refine ⟨by omega, heq, fun k hk => ?_⟩
              cases k with
              | zero => exact hgo
              | succ k =>
                  have := hall k (by omega)
                  rwa [show i + 1 + k = i + (k + 1) by omega] at this
            · rintro ⟨hlt, heq, hall⟩
              refine ⟨by omega, heq, fun k hk => ?_⟩
              rw [show i + 1 + k = i + (k + 1) by omega]
              exact hall (k + 1) (by omega)
      · rw [continuation_stop hgo]
        exact iff_of_false (by simp) fun h => hgo (h.2.2 0 (Nat.zero_le p))

/-- The most recent match below `m1`, as the scan finds it. -/
theorem mem_lastHit {bound m : Nat} (hb : bound ≤ T - n) :
    m ∈ lastHit seq T n bound ↔ LatestBefore seq T n bound m := lastHit_eq_some bound hb

/-- **What one match length emits at a position.** -/
theorem draftAt_getElem? {cap i : Nat} {id : Tok} :
    (draftAt seq T cap n)[i]? = some id ↔
      i < cap ∧ ∃ m1, Latest seq T n m1 ∧ id = seq (m1 + n + i) ∧
        ∀ k ≤ i, m1 + n + k < T ∧
          ∀ m2, LatestBefore seq T n m1 m2 → m2 + n + k < m1 ∧ seq (m2 + n + k) = seq (m1 + n + k) := by
  unfold draftAt
  split_ifs with hT
  · refine iff_of_false (by simp) ?_
    rintro ⟨-, m1, hm1, -⟩
    have := hm1.below
    omega
  · cases hlast : lastHit seq T n (T - n) with
    | none =>
        refine iff_of_false (by simp) ?_
        rintro ⟨-, m1, hm1, -⟩
        rw [(lastHit_eq_some (T - n) (Nat.le_refl _)).mpr hm1] at hlast
        exact absurd hlast (by simp)
    | some m =>
        have hm : Latest seq T n m := (lastHit_eq_some (T - n) (Nat.le_refl _)).mp hlast
        have hle : m ≤ T - n := Nat.le_of_lt hm.below
        simp only
        rw [continuation_getElem?]
        simp only [Nat.zero_add, GoesOn, mem_lastHit hle]
        constructor
        · rintro ⟨hi, hid, hall⟩
          exact ⟨hi, m, hm, hid, hall⟩
        · rintro ⟨hi, m1, hm1, hid, hall⟩
          have hone : m1 = m := by
            have := (lastHit_eq_some (T - n) (Nat.le_refl _)).mpr hm1
            rw [hlast] at this
            exact (Option.some.inj this).symm
          subst hone
          exact ⟨hi, hid, hall⟩

theorem LatestBefore.unique {bound m m' : Nat} (h : LatestBefore seq T n bound m)
    (h' : LatestBefore seq T n bound m') : m = m' := by
  rcases Nat.lt_trichotomy m m' with hlt | heq | hgt
  · exact absurd h'.occurs (h.latest m' hlt h'.below)
  · exact heq
  · exact absurd h.occurs (h'.latest m hgt h.below)

/-! ## The stated rule -/

variable (seq T n)

/-- Every occurrence that reaches position `i` was followed there by the id drafted for it. -/
def Backed (d : List Tok) : Prop :=
  ∀ i id, d[i]? = some id → ∀ j, Occurs seq T n j → j + n + i < T → seq (j + n + i) = id

/-- Where the two most recent occurrences go on alike for more than `i` ids, within the sequence and the
length a draft may have, the older ones go on like them. -/
def OlderAgree (cap : Nat) : Prop :=
  ∀ m1 m2 i, Latest seq T n m1 → LatestBefore seq T n m1 m2 → i < min cap specMax →
    m1 + n + i < T → (∀ k ≤ i, m2 + n + k < m1 ∧ seq (m2 + n + k) = seq (m1 + n + k)) →
    ∀ j < m2, Occurs seq T n j → seq (j + n + i) = seq (m1 + n + i)

/-- The two most recent occurrences have a first id in common, or there is only one. -/
def Fires (cap : Nat) : Prop :=
  0 < cap ∧ ∃ m1, Latest seq T n m1 ∧
    ∀ m2, LatestBefore seq T n m1 m2 → m2 + n < m1 ∧ seq (m2 + n) = seq (m1 + n)

/-- The match length of a draft: 4, or 3 where that gives none. -/
def matchedLength (cap : Nat) : Nat := if draftAt seq T (min cap specMax) 4 = [] then 3 else 4

/-- A draft that follows the stated rule. -/
structure DraftOk (cap : Nat) : Prop where
  backed : Backed seq T (matchedLength seq T cap) (specDraft seq T cap)
  short : (specDraft seq T cap).length ≤ min cap specMax
  reads : ∀ seq' : Nat → Tok, (∀ i < T, seq' i = seq i) → specDraft seq' T cap = specDraft seq T cap
  silent : (∀ j, ¬ Occurs seq T 4 j) → (∀ j, ¬ Occurs seq T 3 j) → specDraft seq T cap = []

variable {seq T n}

theorem draftAt_fires {cap : Nat} : draftAt seq T (min cap specMax) n ≠ [] ↔ Fires seq T n cap := by
  have hfirst : draftAt seq T (min cap specMax) n ≠ [] ↔
      ∃ id, (draftAt seq T (min cap specMax) n)[0]? = some id := by
    cases draftAt seq T (min cap specMax) n with
    | nil => simp
    | cons id ids => simp
  rw [hfirst]
  simp only [draftAt_getElem?]
  constructor
  · rintro ⟨id, hcap, m1, hm1, -, hall⟩
    exact ⟨by omega, m1, hm1, (hall 0 (Nat.le_refl 0)).2⟩
  · rintro ⟨hcap, m1, hm1, hall⟩
    refine ⟨_, Nat.lt_min.mpr ⟨hcap, by decide⟩, m1, hm1, rfl, fun k hk => ?_⟩
    obtain rfl := Nat.le_zero.mp hk
    have := hm1.below
    exact ⟨by omega, hall⟩

/-- **At one match length the rule holds exactly where the older occurrences agree.** -/
theorem draftAt_backed_iff {cap : Nat} :
    Backed seq T n (draftAt seq T (min cap specMax) n) ↔ OlderAgree seq T n cap := by
  constructor
  · intro h m1 m2 i hm1 hm2 hi hend hall j hj hocc
    have hlt2 := hm2.below
    refine h i _ (draftAt_getElem?.mpr ⟨hi, m1, hm1, rfl, fun k hk => ?_⟩) j hocc (by omega)
    have hk' := hall k hk
    refine ⟨by omega, fun m hm => ?_⟩
    rw [hm.unique hm2]
    exact hk'
  · intro h i id hid j hocc hreach
    obtain ⟨hi, m1, hm1, rfl, hall⟩ := draftAt_getElem?.mp hid
    -- where `j` stands among the occurrences
    rcases Nat.lt_trichotomy j m1 with hlt | rfl | hgt
    · obtain ⟨m2, hm2, hle⟩ := exists_latest (Nat.le_of_lt hm1.below) hlt hocc
      rcases Nat.lt_or_eq_of_le hle with hlt2 | rfl
      · exact h m1 m2 i hm1 hm2 hi (hall i (Nat.le_refl i)).1 (fun k hk => (hall k hk).2 m2 hm2) j hlt2 hocc
      · exact ((hall i (Nat.le_refl i)).2 j hm2).2
    · rfl
    · exact absurd hocc (hm1.latest j hgt hocc.1)

/-! ## What the drafter reads -/

section Reads

variable {seq' : Nat → Tok} (hseq : ∀ i < T, seq' i = seq i)

include hseq

theorem occurs_congr {j : Nat} : Occurs seq' T n j ↔ Occurs seq T n j := by
  unfold Occurs
  refine and_congr_right fun hj => forall₂_congr fun i hi => ?_
  rw [hseq (j + i) (by omega), hseq (T - n + i) (by omega)]

theorem latestBefore_congr {bound m : Nat} :
    LatestBefore seq' T n bound m ↔ LatestBefore seq T n bound m := by
  constructor
  · rintro ⟨hb, hocc, hlatest⟩
    exact ⟨hb, (occurs_congr hseq).mp hocc, fun j hj hlt h => hlatest j hj hlt ((occurs_congr hseq).mpr h)⟩
  · rintro ⟨hb, hocc, hlatest⟩
    exact ⟨hb, (occurs_congr hseq).mpr hocc, fun j hj hlt h => hlatest j hj hlt ((occurs_congr hseq).mp h)⟩

theorem draftAt_sub {cap i : Nat} {id : Tok} (h : (draftAt seq T cap n)[i]? = some id) :
    (draftAt seq' T cap n)[i]? = some id := by
  obtain ⟨hi, m1, hm1, rfl, hall⟩ := draftAt_getElem?.mp h
  have hlt := hm1.below
  refine draftAt_getElem?.mpr ⟨hi, m1, (latestBefore_congr hseq).mpr hm1, ?_, fun k hk =>
    ⟨(hall k hk).1, fun m2 hm2 => ?_⟩⟩
  · rw [hseq _ (hall i (Nat.le_refl i)).1]
  · obtain ⟨hend, hgo⟩ := hall k hk
    obtain ⟨hlt2, heq⟩ := hgo m2 ((latestBefore_congr hseq).mp hm2)
    rw [hseq _ (by omega), hseq _ hend]
    exact ⟨hlt2, heq⟩

/-- A draft depends on the ids before `T` only. -/
theorem draftAt_congr (cap : Nat) : draftAt seq' T cap n = draftAt seq T cap n := by
  apply List.ext_getElem?
  intro i
  apply Option.ext
  intro id
  exact ⟨draftAt_sub fun i hi => (hseq i hi).symm, draftAt_sub hseq⟩

end Reads

/-! ## The draft -/

theorem specDraft_short (seq : Nat → Tok) (T cap : Nat) :
    (specDraft seq T cap).length ≤ min cap specMax := by
  unfold specDraft
  simp only
  split
  · exact draftAt_length seq T _ 3
  · exact draftAt_length seq T _ 4

theorem specDraft_congr {seq seq' : Nat → Tok} {T : Nat} (hseq : ∀ i < T, seq' i = seq i) (cap : Nat) :
    specDraft seq' T cap = specDraft seq T cap := by
  unfold specDraft
  simp only
  rw [draftAt_congr hseq, draftAt_congr hseq]

theorem draftAt_silent {seq : Nat → Tok} {T n : Nat} (h : ∀ j, ¬ Occurs seq T n j) (cap : Nat) :
    draftAt seq T cap n = [] := by
  cases hd : draftAt seq T cap n with
  | nil => rfl
  | cons id ids =>
      have hfirst : (draftAt seq T cap n)[0]? = some id := by
        rw [hd]
        rfl
      obtain ⟨-, m1, hm1, -⟩ := draftAt_getElem?.mp hfirst
      exact absurd hm1.occurs (h m1)

/-- **Exactly when a draft is backed by all the evidence**: where the two most recent occurrences
decide, no older one went on differently. -/
theorem specDraft_ok_iff (seq : Nat → Tok) (T cap : Nat) :
    DraftOk seq T cap ↔
      OlderAgree seq T 4 cap ∧ (¬ Fires seq T 4 cap → OlderAgree seq T 3 cap) := by
  have hbacked : Backed seq T (matchedLength seq T cap) (specDraft seq T cap) ↔
      OlderAgree seq T 4 cap ∧ (¬ Fires seq T 4 cap → OlderAgree seq T 3 cap) := by
    unfold matchedLength specDraft
    simp only
    by_cases hnone : draftAt seq T (min cap specMax) 4 = []
    · have hquiet : ¬ Fires seq T 4 cap := fun h => draftAt_fires.mpr h hnone
      have hfour : OlderAgree seq T 4 cap := by
        rw [← draftAt_backed_iff, hnone]
        intro i id hid
        exact absurd hid (by simp)
      rw [if_pos hnone, hnone]
      simp only
      rw [draftAt_backed_iff]
      exact ⟨fun h => ⟨hfour, fun _ => h⟩, fun h => h.2 hquiet⟩
    · have hfires : Fires seq T 4 cap := draftAt_fires.mp hnone
      rw [if_neg hnone, ← draftAt_backed_iff]
      split
      · next hnil => exact absurd hnil hnone
      · exact ⟨fun h => ⟨h, fun hquiet => absurd hfires hquiet⟩, fun h => h.1⟩
  rw [← hbacked]
  refine ⟨fun h => h.backed, fun h => ⟨h, specDraft_short seq T cap,
    fun seq' hseq => specDraft_congr hseq cap, fun hfour hthree => ?_⟩⟩
  unfold specDraft
  simp only
  rw [draftAt_silent hfour, draftAt_silent hthree]

/-- Three times `1 2 3 4`, first followed by 9 and then twice by 5. -/
def thrice (i : Nat) : Tok := ([1, 2, 3, 4, 9, 1, 2, 3, 4, 5, 1, 2, 3, 4, 5, 1, 2, 3, 4] : List Tok).getD i 0

/-- **An older occurrence does not count**: 5 is drafted, and the first time 9 followed. -/
theorem thrice_not_ok : ¬ DraftOk thrice 19 4 := by
  intro h
  have hlen : matchedLength thrice 19 4 = 4 := by decide
  have hback := h.backed
  rw [hlen] at hback
  have hocc : Occurs thrice 19 4 0 := by
    unfold Occurs
    decide
  exact absurd (hback 0 5 (by decide) 0 hocc (by decide)) (by decide)

end LlmEngine.Cli
