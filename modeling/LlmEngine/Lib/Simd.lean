/-
# LlmEngine.Lib.Simd — 128-bit integer registers and registers of four doubles.

A `__m128i` or a `__m128` is its 128 bits; lane `j` of four is bits `32 j` to `32 j + 31`.  A `__m256d` is
its four lanes, of a type `D` whose operations are parameters, since nothing here depends on what they
compute.

Each intrinsic is defined as its documentation gives it and comes with the lemma that says what it does to
a lane, tagged for `simp`; nothing else about it is used.  A proof about vector code then goes lane by lane:

    lane32 (mmAndSi128 a b) j        =  lane32 a j &&& lane32 b j
    lane32 (mmSrliEpi32 a n) j       =  lane32 a j >>> n
    lane32 (mmCvtepu8Epi32 …) j      =  byte `j`, with zeros in front

and arrives at the scalar expression of the element.  Loads of four floats, of four 16-bit words and of four
bytes read at the address they are given and nowhere else.
-/
import LlmEngine.Lib.ForLoop
import Mathlib.Data.Fin.Basic
import Mathlib.Tactic.IntervalCases

namespace LlmEngine.Lib

/-! ## Integer lanes -/

def lane32 (v : BitVec 128) (j : Fin 4) : BitVec 32 := v.extractLsb' (32 * j) 32

def ofLanes32 (f : Fin 4 → BitVec 32) : BitVec 128 := f 3 ++ f 2 ++ f 1 ++ f 0

/-- Four words of one width, the first in the low bits. -/
theorem extract_four {w : Nat} (f : Fin 4 → BitVec w) (j : Fin 4) :
    (f 3 ++ f 2 ++ f 1 ++ f 0).extractLsb' (w * j) w = f j := by
  obtain ⟨j, hj⟩ := j
  interval_cases j
  · rw [BitVec.extractLsb'_append_eq_of_add_le (by simp)]
    exact BitVec.extractLsb'_eq_self
  · rw [BitVec.extractLsb'_append_eq_of_le (by simp), BitVec.extractLsb'_append_eq_of_add_le (by simp)]
    simp
  · rw [BitVec.extractLsb'_append_eq_of_le (by simp; omega), BitVec.extractLsb'_append_eq_of_le (by simp; omega),
      BitVec.extractLsb'_append_eq_of_add_le (by simp; omega)]
    have hstart : w * 2 - w - w = 0 := by omega
    simp only [hstart]
    exact BitVec.extractLsb'_eq_self
  · rw [BitVec.extractLsb'_append_eq_of_le (by simp; omega), BitVec.extractLsb'_append_eq_of_le (by simp; omega),
      BitVec.extractLsb'_append_eq_of_le (by simp; omega)]
    have hstart : w * 3 - w - w - w = 0 := by omega
    simp only [hstart]
    exact BitVec.extractLsb'_eq_self

@[simp] theorem lane32_ofLanes32 (f : Fin 4 → BitVec 32) (j : Fin 4) : lane32 (ofLanes32 f) j = f j :=
  extract_four f j

def mmSet1Epi32 (x : BitVec 32) : BitVec 128 := ofLanes32 fun _ => x

def mmAndSi128 (a b : BitVec 128) : BitVec 128 := a &&& b

def mmOrSi128 (a b : BitVec 128) : BitVec 128 := a ||| b

def mmSubEpi32 (a b : BitVec 128) : BitVec 128 := ofLanes32 fun j => lane32 a j - lane32 b j

def mmSrliEpi32 (a : BitVec 128) (n : Nat) : BitVec 128 := ofLanes32 fun j => lane32 a j >>> n

def mmSlliEpi32 (a : BitVec 128) (n : Nat) : BitVec 128 := ofLanes32 fun j => lane32 a j <<< n

@[simp] theorem lane32_set1 (x : BitVec 32) (j : Fin 4) : lane32 (mmSet1Epi32 x) j = x :=
  lane32_ofLanes32 _ j

@[simp] theorem lane32_and (a b : BitVec 128) (j : Fin 4) :
    lane32 (mmAndSi128 a b) j = lane32 a j &&& lane32 b j := BitVec.extractLsb'_and

@[simp] theorem lane32_or (a b : BitVec 128) (j : Fin 4) :
    lane32 (mmOrSi128 a b) j = lane32 a j ||| lane32 b j := BitVec.extractLsb'_or

@[simp] theorem lane32_sub (a b : BitVec 128) (j : Fin 4) :
    lane32 (mmSubEpi32 a b) j = lane32 a j - lane32 b j := lane32_ofLanes32 _ j

@[simp] theorem lane32_srli (a : BitVec 128) (n : Nat) (j : Fin 4) :
    lane32 (mmSrliEpi32 a n) j = lane32 a j >>> n := lane32_ofLanes32 _ j

@[simp] theorem lane32_slli (a : BitVec 128) (n : Nat) (j : Fin 4) :
    lane32 (mmSlliEpi32 a n) j = lane32 a j <<< n := lane32_ofLanes32 _ j

/-! ## Loads -/

/-- Four floats. -/
def mmLoaduPs (p : Nat → BitVec 32) : BitVec 128 := ofLanes32 fun j => p j

/-- Four `uint16_t` into the low half. -/
def mmLoadlEpi64 (p : Nat → BitVec 16) : BitVec 128 := (p 3 ++ p 2 ++ p 1 ++ p 0).setWidth 128

def mmCvtsi32Si128 (x : BitVec 32) : BitVec 128 := x.setWidth 128

def mmCvtepu8Epi32 (v : BitVec 128) : BitVec 128 :=
  ofLanes32 fun j => (v.extractLsb' (8 * j) 8).setWidth 32

def mmCvtepu16Epi32 (v : BitVec 128) : BitVec 128 :=
  ofLanes32 fun j => (v.extractLsb' (16 * j) 16).setWidth 32

/-- The same bits, as floats. -/
def mmCastsi128Ps (v : BitVec 128) : BitVec 128 := v

@[simp] theorem lane32_loaduPs (p : Nat → BitVec 32) (j : Fin 4) : lane32 (mmLoaduPs p) j = p j :=
  lane32_ofLanes32 _ j

/-- Four bytes, each zero-extended into its lane. -/
theorem lane32_cvtepu8 (p : Nat → BitVec 8) (j : Fin 4) :
    lane32 (mmCvtepu8Epi32 (mmCvtsi32Si128 (p 3 ++ p 2 ++ p 1 ++ p 0))) j = (p j).setWidth 32 := by
  unfold mmCvtepu8Epi32 mmCvtsi32Si128
  rw [lane32_ofLanes32, BitVec.extractLsb'_setWidth_of_le (by omega)]
  exact congrArg (BitVec.setWidth 32) (extract_four (fun j : Fin 4 => p j) j)

/-- Four `uint16_t`, each zero-extended into its lane. -/
@[simp] theorem lane32_cvtepu16 (p : Nat → BitVec 16) (j : Fin 4) :
    lane32 (mmCvtepu16Epi32 (mmLoadlEpi64 p)) j = (p j).setWidth 32 := by
  unfold mmCvtepu16Epi32 mmLoadlEpi64
  rw [lane32_ofLanes32, BitVec.extractLsb'_setWidth_of_le (by omega)]
  exact congrArg (BitVec.setWidth 32) (extract_four (fun j : Fin 4 => p j) j)

/-! ## Lanes of doubles -/

variable {D : Type}

/-- `__m256d`. -/
abbrev M256d (D : Type) := Fin 4 → D

def mm256SetzeroPd [Zero D] : M256d D := fun _ => 0

def mm256AddPd [Add D] (a b : M256d D) : M256d D := fun j => a j + b j

def mm256FmaddPd (fma : D → D → D → D) (a b c : M256d D) : M256d D := fun j => fma (a j) (b j) (c j)

/-- Four floats widened, `wide` being `(double)f`. -/
def mm256CvtpsPd (wide : BitVec 32 → D) (v : BitVec 128) : M256d D := fun j => wide (lane32 v j)

/-- Four `int32_t` converted, `ofInt` being `(double)i`. -/
def mm256Cvtepi32Pd (ofInt : Int → D) (v : BitVec 128) : M256d D := fun j => ofInt (lane32 v j).toInt

end LlmEngine.Lib
