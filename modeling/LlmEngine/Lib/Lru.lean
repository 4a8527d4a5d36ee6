/-
# LlmEngine.Lib.Lru — least-recently-used residency as a prefix of the recency order.

For a request sequence `tr` (oldest first), `byRecency tr` lists its distinct elements, the most recently
requested first.  An LRU store of capacity `cap` holds the first `cap` of them.  That one list, read to
different depths, is what every fact here comes from:

* a request for what is held moves it to the front of what is held (`resident_snoc_hit`);
* a request for anything else puts it in front and drops the last (`resident_snoc_miss`);
* what a smaller store holds, a larger one holds (`resident_mono`), so the hits of a sequence grow with the
  capacity: the stack property, on which a curve of hits over sizes rests;
* an element is held exactly when fewer than `cap` distinct others were requested since (`mem_resident_iff`):
  its reuse distance.

A store that is implemented with slots and stamps is compared with `resident`; the order is a
specification and is never kept.  Nothing here names a particular program.
-/
import Mathlib.Data.List.Dedup
import Mathlib.Data.List.Nodup
import Mathlib.Data.List.Infix

namespace LlmEngine.Lib.Lru

variable {α : Type*} [DecidableEq α]

/-- The distinct elements of a request sequence, most recently requested first. -/
def byRecency (tr : List α) : List α := tr.dedup.reverse

/-- What an LRU store of capacity `cap` holds after the requests `tr`. -/
def resident (cap : Nat) (tr : List α) : List α := (byRecency tr).take cap

theorem byRecency_nodup (tr : List α) : (byRecency tr).Nodup :=
  List.nodup_reverse.mpr (List.nodup_dedup tr)

theorem resident_nodup (cap : Nat) (tr : List α) : (resident cap tr).Nodup :=
  (byRecency_nodup tr).sublist (List.take_sublist _ _)

theorem resident_length (cap : Nat) (tr : List α) :
    (resident cap tr).length = min cap tr.dedup.length := by
  simp [resident, byRecency]

theorem dedup_snoc (tr : List α) (k : α) : (tr ++ [k]).dedup = tr.dedup.erase k ++ [k] := by
  induction tr with
  | nil => simp
  | cons a tr ih =>
      rw [List.cons_append]
      by_cases hk : a = k
      · subst hk
        rw [List.dedup_cons_of_mem (by simp), ih]
        by_cases ha : a ∈ tr
        · rw [List.dedup_cons_of_mem ha]
        · rw [List.dedup_cons_of_notMem ha, List.erase_cons_head,
            List.erase_of_not_mem (by simpa using ha)]
      · by_cases ha : a ∈ tr
        · rw [List.dedup_cons_of_mem (by simp [ha]), List.dedup_cons_of_mem ha, ih]
        · rw [List.dedup_cons_of_notMem (by simp [ha, hk]), List.dedup_cons_of_notMem ha, ih,
            List.erase_cons_tail (by simpa using hk), List.cons_append]

/-- A request moves its element to the front. -/
theorem byRecency_snoc (tr : List α) (k : α) : byRecency (tr ++ [k]) = k :: (byRecency tr).erase k := by
  unfold byRecency
  rw [dedup_snoc, List.reverse_append, List.reverse_singleton, List.singleton_append]
  have hnodup := List.nodup_dedup tr
  rw [hnodup.erase_eq_filter, (List.nodup_reverse.mpr hnodup).erase_eq_filter, List.filter_reverse]

/-- Removing an element and then reading a prefix, in terms of a prefix one longer. -/
theorem take_erase (k : α) : ∀ (n : Nat) (l : List α),
    (l.erase k).take n = if k ∈ l.take (n + 1) then (l.take (n + 1)).erase k else l.take n
  | n, [] => by simp
  | n, a :: l => by
      by_cases ha : a = k
      · subst ha
        simp
      · rw [List.erase_cons_tail (by simpa using ha)]
        cases n with
        | zero => simp [Ne.symm ha]
        | succ n =>
            have hmem : k ∈ (a :: l).take (n + 1 + 1) ↔ k ∈ l.take (n + 1) := by
              simp [Ne.symm ha]
            rw [List.take_succ_cons, take_erase k n l]
            by_cases hk : k ∈ l.take (n + 1)
            · rw [if_pos hk, if_pos (hmem.mpr hk), List.take_succ_cons,
                List.erase_cons_tail (by simpa using ha)]
            · rw [if_neg hk, if_neg (fun h => hk (hmem.mp h)), List.take_succ_cons]

/-- **A hit** moves the element to the front of what is held. -/
theorem resident_snoc_hit {cap : Nat} {tr : List α} {k : α} (h : k ∈ resident cap tr) :
    resident cap (tr ++ [k]) = k :: (resident cap tr).erase k := by
  cases cap with
  | zero => simp [resident] at h
  | succ n =>
      unfold resident at h ⊢
      rw [byRecency_snoc, List.take_succ_cons, take_erase, if_pos h]

/-- **A miss** puts the element in front and drops whatever no longer fits. -/
theorem resident_snoc_miss {cap : Nat} {tr : List α} {k : α} (hcap : 0 < cap)
    (h : k ∉ resident cap tr) :
    resident cap (tr ++ [k]) = k :: (resident cap tr).take (cap - 1) := by
  obtain ⟨n, rfl⟩ : ∃ n, cap = n + 1 := ⟨cap - 1, by omega⟩
  unfold resident at h ⊢
  rw [byRecency_snoc, List.take_succ_cons, take_erase, if_neg h, Nat.add_sub_cancel, List.take_take,
    Nat.min_eq_left (Nat.le_succ n)]

/-- **The stack property**: what a smaller store holds, a larger one holds. -/
theorem resident_mono {cap cap' : Nat} (h : cap ≤ cap') (tr : List α) :
    resident cap tr ⊆ resident cap' tr :=
  (List.take_prefix_take_left h).subset

omit [DecidableEq α] in
/-- The last request of an element, and what came after it. -/
theorem mem_iff_last {tr : List α} {k : α} :
    k ∈ tr ↔ ∃ pre mid, tr = pre ++ k :: mid ∧ k ∉ mid := by
  constructor
  · intro hk
    obtain ⟨front, back, heq, hnot⟩ := List.eq_append_cons_of_mem (List.mem_reverse.mpr hk)
    refine ⟨back.reverse, front.reverse, ?_, by simpa using hnot⟩
    rw [← List.reverse_reverse tr, heq]
    simp
  · rintro ⟨pre, mid, rfl, -⟩
    simp

/-- Where an element stands in the recency order: after the distinct elements requested since. -/
theorem byRecency_last (pre : List α) {mid : List α} {k : α} (h : k ∉ mid) :
    ∃ rest, byRecency (pre ++ k :: mid) = mid.dedup.reverse ++ k :: rest := by
  have hsuf : (k :: mid).dedup <:+ (pre ++ k :: mid).dedup := by
    rw [List.dedup_append]
    exact List.suffix_union_right _ _
  obtain ⟨older, holder⟩ := hsuf
  refine ⟨older.reverse, ?_⟩
  unfold byRecency
  rw [← holder, List.dedup_cons_of_notMem h]
  simp

/-- **Reuse distance**: an element is held iff fewer than `cap` distinct others were requested since
its own last request. -/
theorem mem_resident_iff {cap : Nat} {tr : List α} {k : α} :
    k ∈ resident cap tr ↔
      ∃ pre mid, tr = pre ++ k :: mid ∧ k ∉ mid ∧ mid.dedup.length < cap := by
  have hwhere : ∀ {pre mid : List α}, k ∉ mid →
      (k ∈ resident cap (pre ++ k :: mid) ↔ mid.dedup.length < cap) := by
    intro pre mid hmid
    obtain ⟨rest, hrest⟩ := byRecency_last pre hmid
    unfold resident
    rw [hrest]
    constructor
    · intro hk
      by_contra hge
      rw [List.take_append_of_le_length (by simpa using hge)] at hk
      exact hmid (by simpa using List.mem_of_mem_take hk)
    · intro hlt
      obtain ⟨n, hn⟩ : ∃ n, cap = mid.dedup.reverse.length + (n + 1) :=
        ⟨cap - mid.dedup.length - 1, by simp only [List.length_reverse]; omega⟩
      rw [hn, List.take_length_add_append, List.take_succ_cons]
      simp
  constructor
  · intro hk
    have hmem : k ∈ tr := by
      simpa [byRecency] using List.mem_of_mem_take hk
    obtain ⟨pre, mid, rfl, hmid⟩ := mem_iff_last.mp hmem
    exact ⟨pre, mid, rfl, hmid, (hwhere hmid).mp hk⟩
  · rintro ⟨pre, mid, rfl, hmid, hlt⟩
    exact (hwhere hmid).mpr hlt

end LlmEngine.Lib.Lru
