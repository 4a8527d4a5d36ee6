/-
# LlmEngine.Cfg.JsonSpell — JSON texts of given values.

Numbers that are integers, strings that need no escapes, and arrays and objects without whitespace: enough for the
documents the engine's own tools write.  Each text is proper and stands for what it was made from.

Each way of writing has three lemmas: what it stands for (`_val`), that it is proper (`_proper`), and how deep it is
(`_depth`), which are the hypotheses of `json_parse_reads`.  A string is read back where no byte of it needs an escape
(`Unescaped`).
-/
import LlmEngine.Cfg.JsonRead

namespace LlmEngine.Cfg

open LlmEngine.Bind (cStr)
open LlmEngine.Bind.Scan (IsScalar digit member number_scalar rawStr)
open LlmEngine.Lib.JsonText
open LlmEngine.Lib.LittleEndian

/-! ## Integers -/

/-- The digits of a number, the first `k` places. -/
def digitsOf : Nat → Nat → List (Fin 10)
  | 0, n => [lastDigit n]
  | k + 1, n => (if n < 10 then [] else digitsOf k (n / 10)) ++ [lastDigit n]

theorem digitsOf_ne_nil (k n : Nat) : digitsOf k n ≠ [] := by
  cases k with
  | zero => exact List.cons_ne_nil _ _
  | succ k => exact List.append_ne_nil_of_right_ne_nil _ (List.cons_ne_nil _ _)

theorem digitsOf_digits (k n : Nat) : ((digitsOf k n).map fun d => UInt8.ofNat (48 + d.val)) ≠ [] ∧
    ∀ b ∈ (digitsOf k n).map fun d => UInt8.ofNat (48 + d.val), IsDigit b := by
  refine ⟨fun h => digitsOf_ne_nil k n (List.map_eq_nil_iff.mp h), fun b hb => ?_⟩
  obtain ⟨d, -, rfl⟩ := List.mem_map.mp hb
  exact (digit d).digits.property.2 _ (List.mem_singleton.mpr rfl)

theorem lastDigit_value (n : Nat) : ((UInt8.ofNat (48 + (lastDigit n).val)).toNat : Int) - 48 = (n % 10 : Nat) := by
  have hval : (lastDigit n).val = n % 10 := rfl
  rw [UInt8.toNat_ofNat', hval, Nat.mod_eq_of_lt (by omega)]
  omega

theorem digitsOf_value {k n : Nat} (h : n < 10 ^ (k + 1)) :
    digitsValue ((digitsOf k n).map fun d => UInt8.ofNat (48 + d.val)) = n := by
  have halone : 0 * 10 + (((UInt8.ofNat (48 + (lastDigit n).val)).toNat : Int) - 48) = (n % 10 : Nat) := by
    rw [lastDigit_value, zero_mul, zero_add]
  induction k generalizing n with
  | zero => exact halone.trans (congrArg Nat.cast (Nat.mod_eq_of_lt (by simpa using h)))
  | succ k ih =>
      rw [digitsOf]
      by_cases hlt : n < 10
      · rw [if_pos hlt]
        exact halone.trans (congrArg Nat.cast (Nat.mod_eq_of_lt hlt))
      · have hten : n / 10 < 10 ^ (k + 1) := by
          rw [Nat.div_lt_iff_lt_mul (by decide), ← Nat.pow_succ]
          exact h
        have hfront := ih hten (by rw [lastDigit_value, zero_mul, zero_add])
        rw [if_neg hlt, List.map_append, digitsValue, List.foldl_append]
        show digitsValue _ * 10 + (((UInt8.ofNat (48 + (lastDigit n).val)).toNat : Int) - 48) = n
        rw [hfront, lastDigit_value]
        omega

theorem nil_tail : (∀ b ∈ ([] : Bytes), IsTail b) ∧ ∀ b ∈ ([] : Bytes).head?, b = 46 ∨ b = 69 ∨ b = 101 :=
  ⟨List.forall_mem_nil _, fun b hb => absurd hb (Option.not_mem_none b)⟩

/-- An integer of at most sixteen digits. -/
def whole (v : Int) : Number where
  neg := decide (v < 0)
  digits := ⟨(digitsOf 15 v.natAbs).map fun d => UInt8.ofNat (48 + d.val), digitsOf_digits 15 v.natAbs⟩
  tail := ⟨[], nil_tail⟩

/-- A natural number of at most sixteen digits is read as itself. -/
theorem strtodWhole_whole {v : Int} (hv : 0 ≤ v) (hlt : v < 10 ^ 16) : (strtodWhole (whole v).render).1 = v := by
  have hrender : (whole v).render = (digitsOf 15 v.natAbs).map fun d => UInt8.ofNat (48 + d.val) := by
    have hneg : (whole v).neg = false := decide_eq_false (not_lt.mpr hv)
    rw [Number.render, hneg]
    exact List.append_nil _
  have htake : (whole v).render.takeWhile (fun b => decide (IsScalar b)) = (whole v).render :=
    List.takeWhile_eq_self_iff.mpr fun b hb => decide_eq_true (number_scalar _ b hb)
  have hsign : (whole v).render.head? ≠ some 45 := by
    intro h
    rw [hrender] at h
    exact absurd ((digitsOf_digits 15 v.natAbs).2 _ (List.mem_of_mem_head? h)).1 (by decide)
  unfold strtodWhole
  dsimp only
  rw [htake, if_neg hsign, hrender, digitsOf_value (by omega)]
  exact Int.natAbs_of_nonneg hv

/-! ## Strings, arrays and objects -/

/-- A byte that stands for itself in a string. -/
def Unescaped (b : UInt8) : Prop := 32 ≤ b ∧ b ≠ 34 ∧ b ≠ 92

instance (b : UInt8) : Decidable (Unescaped b) := inferInstanceAs (Decidable (_ ∧ _))

/-- A list of names is checked byte by byte. -/
theorem unescaped_of_all {α : Type} {l : List α} {name : α → Bytes}
    (h : (l.all fun a => (name a).all fun b => decide (Unescaped b)) = true) : ∀ a ∈ l, ∀ b ∈ name a, Unescaped b :=
  fun a ha b hb => of_decide_eq_true (List.all_eq_true.mp (List.all_eq_true.mp h a ha) b hb)

theorem rawStr_read {name : Bytes} (h : ∀ b ∈ name, Unescaped b) : cStr (JStr.decode (rawStr name)) = name := by
  have hdecode : JStr.decode (rawStr name) = name := by
    induction name with
    | nil => rfl
    | cons b name ih =>
        have hb := h b List.mem_cons_self
        have hraw : rawStr (b :: name) = .raw ⟨b, hb⟩ :: rawStr name := List.filterMap_cons_some (dif_pos hb)
        rw [hraw, JStr.decode, ih fun x hx => h x (List.mem_cons_of_mem _ hx)]
  rw [hdecode]
  refine List.takeWhile_eq_self_iff.mpr fun b hb => decide_eq_true ?_
  rintro rfl
  exact absurd (h 0 hb).1 (by decide)

def itemsOf (vs : List Json) : Items := vs.foldr (fun v rest => .cons Ws.none v Ws.none rest) .nil

def spellMembers (ms : List (Bytes × Json)) : Members :=
  ms.foldr (fun m rest => member (rawStr m.1) m.2 rest) .nil

section Value

variable {D : Type} {num : Number → D}

theorem itemsOf_val (vs : List Json) : Items.toVals num (itemsOf vs) = vs.map (Json.toVal num) := by
  induction vs with
  | nil => rfl
  | cons v vs ih => exact congrArg (Json.toVal num v :: ·) ih

theorem spellMembers_val {ms : List (Bytes × Json)} (h : ∀ m ∈ ms, ∀ b ∈ m.1, Unescaped b) :
    Members.toVals num (spellMembers ms) = ms.map fun m => (m.1, Json.toVal num m.2) := by
  induction ms with
  | nil => rfl
  | cons m ms ih =>
      show (cStr (JStr.decode (rawStr m.1)), Json.toVal num m.2) :: Members.toVals num (spellMembers ms) = _
      rw [rawStr_read (h m List.mem_cons_self), ih fun x hx => h x (List.mem_cons_of_mem _ hx)]
      rfl

theorem itemsOf_proper {vs : List Json} (h : ∀ v ∈ vs, Json.IsProper v) : Items.IsProper (itemsOf vs) := by
  induction vs with
  | nil => trivial
  | cons v vs ih => exact ⟨h v List.mem_cons_self, ih fun u hu => h u (List.mem_cons_of_mem _ hu)⟩

theorem spellMembers_proper {ms : List (Bytes × Json)} (h : ∀ m ∈ ms, Json.IsProper m.2) :
    Members.IsProper (spellMembers ms) := by
  induction ms with
  | nil => trivial
  | cons m ms ih => exact ⟨h m List.mem_cons_self, ih fun x hx => h x (List.mem_cons_of_mem _ hx)⟩

theorem itemsOf_depth {vs : List Json} {k : Nat} (h : ∀ v ∈ vs, v.depth ≤ k) : (itemsOf vs).depth ≤ k := by
  induction vs with
  | nil => exact Nat.zero_le k
  | cons v vs ih => exact max_le (h v List.mem_cons_self) (ih fun u hu => h u (List.mem_cons_of_mem _ hu))

theorem spellMembers_depth {ms : List (Bytes × Json)} {k : Nat} (h : ∀ m ∈ ms, m.2.depth ≤ k) : (spellMembers ms).depth ≤ k := by
  induction ms with
  | nil => exact Nat.zero_le k
  | cons m ms ih => exact max_le (h m List.mem_cons_self) (ih fun x hx => h x (List.mem_cons_of_mem _ hx))

end Value

end LlmEngine.Cfg
