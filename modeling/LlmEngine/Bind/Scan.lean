/-
# LlmEngine.Bind.Scan — the scanner over a safetensors header (`src/io/k3_st.c`).

The header is memory from 0 up to `fin`, and a position in it is a number; what stands behind `fin` is
whatever the allocator left there.  An allocation does not fail.

A loop is given the bytes that are left as rounds, or one more:

* for the loops over characters a further round makes no difference (`wsFrom_more` and its like);
* the loops over dimensions, members and entries do not run out of rounds (`scanShard_ends`): every round
  of theirs consumes at least one byte, which is what `Ends` keeps.

Nothing at or behind `fin` is looked at (`scanHeader_local`), so the scan depends on the file alone, not on the
allocated memory nor on the chunks of the read (`scanShard_local`).

The layers are those of the source: characters, strings and integers (`ws`, `str`, `i64`, `skipValue`), the members of
an entry (`readMember`, `entryFrom`), what is checked of it and pushed (`finish`), the header (`headerFrom`) and the
file around it (`scanShard`).  A refusal is a `ScanFail` with what its message names.
-/
import LlmEngine.Bind.Checkpoint
import LlmEngine.Bind.Index
import LlmEngine.Lib.Cursor

namespace LlmEngine.Bind.Scan

open LlmEngine.Lib
open LlmEngine.Lib.LittleEndian
open LlmEngine.Tokenizer (ascii)

/-! ## Tokens -/

section Tokens

variable (m : Nat → UInt8) (fin : Nat)

def wsFrom : Nat → Nat → Nat
  | 0, p => p
  | n + 1, p => if p < fin ∧ m p ≤ 32 then wsFrom n (p + 1) else p

/-- `ws`: `while (s->p < s->end && (unsigned char)*s->p <= ' ') s->p++;` -/
def ws (p : Nat) : Nat := wsFrom m fin (fin - p) p

/-- `s->p < s->end && *s->p == c` -/
def isAt (c : UInt8) (p : Nat) : Bool := p < fin && m p = c

/-- `lit`, as the position behind the character. -/
def lit (c : UInt8) (p : Nat) : Option Nat :=
  if isAt m fin c (ws m fin p) then some (ws m fin p + 1) else none

/-- `if (!first && !lit(s, ','))`, where it does not fail. -/
def sep (first : Bool) (p : Nat) : Option Nat := if first then some p else lit m fin 44 p

/-- The value of a `char`, which is signed. -/
def charInt (c : UInt8) : Int := c.toBitVec.toInt

/-- `(unsigned)(h <= '9' ? h - '0' : (h | 32) - 'a' + 10)` -/
def hexDigit (h : UInt8) : BitVec 32 :=
  BitVec.ofInt 32 (if charInt h ≤ 57 then charInt h - 48 else charInt (h ||| 32) - 97 + 10)

/-- The character of `\uXXXX`: `(char)(v < 128 ? v : '?')`. -/
def escapedAscii (h3 h2 h1 h0 : UInt8) : UInt8 :=
  let v : BitVec 32 := [h3, h2, h1, h0].foldl (fun v h => v * 16 + hexDigit h) 0
  if v.toNat < 128 then UInt8.ofNat v.toNat else 63

/-- The character after a backslash, `u` apart. -/
def escaped (e : UInt8) : UInt8 :=
  match e.toNat with
  | 110 => 10
  | 116 => 9
  | 114 => 13
  | 98 => 8
  | 102 => 12
  | _ => e

/-- `if (n + 1 < cap) out[n] = c; n++;` -/
def store (cap : Nat) (out : Bytes) (n : Nat) (c : UInt8) : Bytes := if n + 1 < cap then out ++ [c] else out

/-- The loop of `str_` and what follows it; `n` characters have been read. -/
def strFrom (cap : Nat) : Nat → Nat → Bytes → Nat → Option (Bytes × Nat)
  | 0, _, _, _ => none
  | k + 1, p, out, n =>
      if fin ≤ p then none
      else if m p = 34 then if n + 1 > cap then none else some (out, p + 1)
      else if m p = 92 then
        if fin ≤ p + 1 then none
        else if m (p + 1) = 117 then
          if fin - (p + 2) < 4 then none
          else
            let c := escapedAscii (m (p + 2)) (m (p + 3)) (m (p + 4)) (m (p + 5))
            strFrom cap k (p + 6) (store cap out n c) (n + 1)
        else strFrom cap k (p + 2) (store cap out n (escaped (m (p + 1)))) (n + 1)
      else strFrom cap k (p + 1) (store cap out n (m p)) (n + 1)

/-- `str_`: the characters, as many as `*len`, and the position behind the string. -/
def str (cap p : Nat) : Option (Bytes × Nat) :=
  if isAt m fin 34 (ws m fin p) then strFrom m fin cap (fin - ws m fin p) (ws m fin p + 1) [] 0 else none

def isDigit (c : UInt8) : Bool := 48 ≤ c && c ≤ 57

/-- `while (s->p < s->end && *s->p >= '0' && *s->p <= '9') a = a * 10 + (*s->p++ - '0');` -/
def digitsFrom : Nat → Nat → Int → Int × Nat
  | 0, p, a => (a, p)
  | n + 1, p, a =>
      if p < fin ∧ isDigit (m p) then digitsFrom n (p + 1) (wrap64 (a * 10 + ((m p).toNat - 48))) else (a, p)

/-- `i64_`. -/
def i64 (p : Nat) : Option (Int × Nat) :=
  let p := ws m fin p
  let neg := isAt m fin 45 p
  let p := if neg || isAt m fin 43 p then p + 1 else p
  if fin ≤ p ∨ ¬ isDigit (m p) then none
  else
    let r := digitsFrom m fin (fin - p) p 0
    some (if neg then wrap64 (-r.1) else r.1, r.2)

/-- `while (s->p < s->end && *s->p != '"') { if (*s->p == '\\') s->p++; s->p++; }` -/
def skipStr : Nat → Nat → Nat
  | 0, p => p
  | n + 1, p => if p < fin ∧ m p ≠ 34 then skipStr n (if m p = 92 then p + 2 else p + 1) else p

/-- The `do` loop of `skip_value`. -/
def nestFrom : Nat → Nat → Int → Option Nat
  | 0, _, _ => none
  | n + 1, p, depth =>
      if fin ≤ p then none
      else
        let go := fun (q : Nat) (depth : Int) => if 0 < depth then nestFrom n q depth else some q
        if m p = 34 then
          let q := skipStr m fin (fin - (p + 1)) (p + 1)
          if fin ≤ q then none else go (q + 1) depth
        else if m p = 123 ∨ m p = 91 then go (p + 1) (wrap32 (depth + 1))
        else if m p = 125 ∨ m p = 93 then go (p + 1) (wrap32 (depth - 1))
        else go (p + 1) depth

/-- `while (s->p < s->end && *s->p != ',' && *s->p != '}' && *s->p != ']') s->p++;` -/
def scalarFrom : Nat → Nat → Nat
  | 0, p => p
  | n + 1, p => if p < fin ∧ m p ≠ 44 ∧ m p ≠ 125 ∧ m p ≠ 93 then scalarFrom n (p + 1) else p

/-- `skip_value`. -/
def skipValue (p : Nat) : Option Nat :=
  let p := ws m fin p
  if fin ≤ p then none
  else if m p = 34 then
    let q := skipStr m fin (fin - (p + 1)) (p + 1)
    if q < fin then some (q + 1) else none
  else if m p = 123 ∨ m p = 91 then nestFrom m fin (fin - p) p 0
  else some (scalarFrom m fin (fin - p) p)

end Tokens

/-! ## Entries -/

/-- Why `scan_shard` refuses a shard. -/
inductive ScanFail
  /-- `%s is too short for a header length` -/
  | tooShort
  /-- `%s header length %llu is impossible (file %lld bytes)` -/
  | impossible (hlen fsize : Nat)
  /-- `short read of %s header` -/
  | shortRead
  /-- `%s header is not a JSON object` -/
  | notObject
  /-- `%s expected ','` -/
  | comma
  /-- `%s bad tensor name near byte %ld` -/
  | badName
  /-- `%s expected ':'` -/
  | colon
  /-- `%s entry is not an object` -/
  | notEntry
  /-- A `goto bad` without a word. -/
  | bad
  /-- `%s: unsupported dtype '%s' on %s` -/
  | unsupported (dv name : Bytes)
  /-- `%s has rank > 4` -/
  | rank (name : Bytes)
  /-- `%s: %s is missing dtype or data_offsets` -/
  | missing (name : Bytes)
  /-- `%s: %s spans %lld bytes but shape implies %lld` -/
  | spans (name : Bytes) (nbytes want : Int)
  /-- `%s: %s ends past EOF` -/
  | pastEof (name : Bytes)
  /-- A loop that does not end. -/
  | hung
  deriving DecidableEq

/-- `dtype_of`. -/
def dtypeOf (s : Bytes) : K3Dtype :=
  if s = ascii "U8" then .u8
  else if s = ascii "BF16" then .bf16
  else if s = ascii "F16" then .f16
  else if s = ascii "F32" then .f32
  else .unknown

/-- What the members of an entry have set: `t.dtype`, `t.shape`, `o0` and `o1`. -/
structure Fields where
  dtype : Option K3Dtype
  shape : List Int
  offsets : Option (Int × Int)
  deriving DecidableEq

/-- A `K3Tensor` as it is pushed, with the name and the two offsets it was made from. -/
structure Scanned where
  name : Bytes
  shard : Nat
  dtype : K3Dtype
  shape : List Int
  o0 : Int
  o1 : Int
  off : Int
  nbytes : Int
  deriving DecidableEq

section Entries

variable (m : Nat → UInt8) (fin : Nat) (name : Bytes)

/-- `for (;;)` over the dimensions. -/
def shapeFrom : Nat → Nat → List Int → Except ScanFail (List Int × Nat)
  | 0, _, _ => .error .hung
  | n + 1, p, shape =>
      match i64 m fin p with
      | none => .error .bad
      | some (d, p) =>
          if shape.length < 4 then
            match lit m fin 44 (ws m fin p) with
            | some p => shapeFrom n p (shape ++ [d])
            | none =>
                match lit m fin 93 (ws m fin p) with
                | some p => .ok (shape ++ [d], p)
                | none => .error .bad
          else .error (.rank (cStr name))

/-- The value of the member `dtype`. -/
def readDtype (p : Nat) (fl : Fields) : Except ScanFail (Fields × Nat) :=
  match str m fin 32 p with
  | none => .error .bad
  | some (dv, p) =>
      if dtypeOf dv = .unknown then .error (.unsupported (cStr dv) (cStr name))
      else .ok ({ fl with dtype := some (dtypeOf dv) }, p)

/-- The value of the member `shape`. -/
def readShape (p : Nat) (fl : Fields) : Except ScanFail (Fields × Nat) :=
  match lit m fin 91 p with
  | none => .error .bad
  | some p =>
      if isAt m fin 93 (ws m fin p) then .ok (fl, ws m fin p + 1)
      else
        match shapeFrom m fin name (fin + 1 - p) (ws m fin p) fl.shape with
        | .error e => .error e
        | .ok (shape, p) => .ok ({ fl with shape := shape }, p)

/-- The value of the member `data_offsets`. -/
def readOffsets (p : Nat) : Option ((Int × Int) × Nat) := do
  let p ← lit m fin 91 p
  let (o0, p) ← i64 m fin p
  let p ← lit m fin 44 p
  let (o1, p) ← i64 m fin p
  let p ← lit m fin 93 p
  return ((o0, o1), p)

/-- The value of a member of an entry. -/
def readMember (key : Bytes) (p : Nat) (fl : Fields) : Except ScanFail (Fields × Nat) :=
  if strcmpEq key (ascii "dtype") then readDtype m fin name p fl
  else if strcmpEq key (ascii "shape") then readShape m fin name p fl
  else if strcmpEq key (ascii "data_offsets") then
    match readOffsets m fin p with
    | none => .error .bad
    | some (o, p) => .ok ({ fl with offsets := some o }, p)
  else
    match skipValue m fin p with
    | none => .error .bad
    | some p => .ok (fl, p)

/-- `for (;;)` over the members of an entry. -/
def entryFrom : Nat → Nat → Bool → Fields → Except ScanFail (Fields × Nat)
  | 0, _, _, _ => .error .hung
  | n + 1, p, first, fl =>
      let p := ws m fin p
      if isAt m fin 125 p then .ok (fl, p + 1)
      else
        match sep m fin first p with
        | none => .error .bad
        | some p =>
            match str m fin 64 p with
            | none => .error .bad
            | some (key, p) =>
                match lit m fin 58 p with
                | none => .error .bad
                | some p =>
                    match readMember m fin name key p fl with
                    | .error e => .error e
                    | .ok (fl, p) => entryFrom n p false fl

/-- The checks behind the members, and what is pushed. -/
def finish (shard : Nat) (base fsize : Int) (fl : Fields) : Except ScanFail Scanned :=
  match fl.dtype, fl.offsets with
  | some dtype, some (o0, o1) =>
      let off := wrap64 (base + o0)
      let nbytes := wrap64 (o1 - o0)
      let want := wrap64 (fl.shape.foldl (fun n d => wrap64 (n * d)) 1 * k3StElemsize dtype)
      if nbytes ≠ want then .error (.spans (cStr name) nbytes want)
      else if wrap64 (base + o1) > fsize then .error (.pastEof (cStr name))
      else .ok ⟨name, shard, dtype, fl.shape, o0, o1, off, nbytes⟩
  | _, _ => .error (.missing (cStr name))

end Entries

/-! ## The shard -/

section Shard

variable (m : Nat → UInt8) (fin shard : Nat) (base fsize : Int)

/-- `for (;;)` over the members of the header; `b` is what has been pushed. -/
def headerFrom : Nat → Nat → Bool → List Scanned → Except ScanFail (List Scanned)
  | 0, _, _, _ => .error .hung
  | n + 1, p, first, b =>
      if isAt m fin 125 (ws m fin p) then .ok b
      else
        match sep m fin first (ws m fin p) with
        | none => .error .comma
        | some p =>
            if isAt m fin 125 (ws m fin p) then .ok b
            else
              match str m fin 512 p with
              | none => .error .badName
              | some (name, p) =>
                  match lit m fin 58 p with
                  | none => .error .colon
                  | some p =>
                      if strcmpEq name (ascii "__metadata__") then
                        match skipValue m fin p with
                        | none => .error .bad
                        | some p => headerFrom n p false b
                      else
                        match lit m fin 123 p with
                        | none => .error .notEntry
                        | some p =>
                            match entryFrom m fin name (fin + 1 - p) p true ⟨none, [], none⟩ with
                            | .error e => .error e
                            | .ok (fl, p) =>
                                match finish name shard base fsize fl with
                                | .error e => .error e
                                | .ok t => headerFrom n p false (b ++ [t])

/-- The scan of a header. -/
def scanHeader (b : List Scanned) : Except ScanFail (List Scanned) :=
  match lit m fin 123 0 with
  | none => .error .notObject
  | some p => headerFrom m fin shard base fsize (fin + 1 - p) p true b

/-- The header in memory: what has been read, its terminator, and what was there before. -/
def headerMem (buf : Mem) (hlen : Nat) : Nat → UInt8 := fun i => if i = hlen then 0 else buf i

/-- `scan_shard`, with the kernels of its two reads and the memory it allocates. -/
def scanShard (f : FileBytes) (k8 k : Kernel f.size) (heap : Mem) (shard : Nat) (b : List Scanned) :
    Except ScanFail (List Scanned) :=
  if k8.serve 0 0 8 ≠ 8 then .error .tooShort
  else
    let hlen := get ((List.range 8).map f.byte)
    if hlen = 0 ∨ f.size < (8 + hlen) % 2 ^ 64 then .error (.impossible hlen f.size)
    else
      let r := readLoop f k 8 hlen 0 0 heap
      if r.1 ≠ hlen then .error .shortRead
      else scanHeader (headerMem r.2 hlen) hlen shard (wrap64 (8 + hlen)) f.size b

end Shard

/-! ## Nothing behind the end is looked at -/

section Local

variable {m m' : Nat → UInt8} {fin : Nat} (h : ∀ i < fin, m i = m' i)
include h

theorem isAt_local : isAt m fin = isAt m' fin := by
  funext c p
  unfold isAt
  by_cases hp : p < fin
  · rw [h p hp]
  · simp only [hp, decide_false, Bool.false_and]

theorem wsFrom_local (n : Nat) : ∀ p, wsFrom m fin n p = wsFrom m' fin n p := by
  induction n with
  | zero => intro p; rfl
  | succ n ih =>
      intro p
      rw [wsFrom, wsFrom]
      by_cases hp : p < fin
      · rw [h p hp, ih]
      · rw [if_neg fun hc => hp hc.1, if_neg fun hc => hp hc.1]

theorem ws_local : ws m fin = ws m' fin := funext fun p => wsFrom_local h _ p

theorem lit_local : lit m fin = lit m' fin := by
  funext c p
  rw [lit, lit, ws_local h, isAt_local h]

theorem sep_local : sep m fin = sep m' fin := by
  funext first p
  rw [sep, sep, lit_local h]

theorem strFrom_local (cap n : Nat) : ∀ p out k, strFrom m fin cap n p out k = strFrom m' fin cap n p out k := by
  induction n with
  | zero => intro p out k; rfl
  | succ n ih =>
      intro p out k
      rw [strFrom, strFrom]
      by_cases hp : fin ≤ p
      · rw [if_pos hp, if_pos hp]
      · simp only [if_neg hp, h p (by omega), ih]
        by_cases hp1 : fin ≤ p + 1
        · simp only [if_pos hp1]
        · simp only [if_neg hp1, h (p + 1) (by omega)]
          by_cases hp2 : fin - (p + 2) < 4
          · simp only [if_pos hp2]
          · simp only [if_neg hp2, h (p + 2) (by omega), h (p + 3) (by omega), h (p + 4) (by omega),
              h (p + 5) (by omega)]

theorem str_local : str m fin = str m' fin := by
  funext cap p
  rw [str, str, isAt_local h, ws_local h, strFrom_local h]

theorem digitsFrom_local (n : Nat) : ∀ p a, digitsFrom m fin n p a = digitsFrom m' fin n p a := by
  induction n with
  | zero => intro p a; rfl
  | succ n ih =>
      intro p a
      rw [digitsFrom, digitsFrom]
      by_cases hp : p < fin
      · rw [h p hp, ih]
      · rw [if_neg fun hc => hp hc.1, if_neg fun hc => hp hc.1]

theorem i64_local : i64 m fin = i64 m' fin := by
  funext p
  have hsign : ∀ q, (fin ≤ q ∨ ¬ isDigit (m q)) ↔ (fin ≤ q ∨ ¬ isDigit (m' q)) := by
    intro q
    by_cases hq : fin ≤ q
    · simp only [hq, true_or]
    · rw [h q (by omega)]
  simp only [i64, ws_local h, isAt_local h, digitsFrom_local h, hsign]

theorem skipStr_local (n : Nat) : ∀ p, skipStr m fin n p = skipStr m' fin n p := by
  induction n with
  | zero => intro p; rfl
  | succ n ih =>
      intro p
      rw [skipStr, skipStr]
      by_cases hp : p < fin
      · rw [h p hp, ih]
      · rw [if_neg fun hc => hp hc.1, if_neg fun hc => hp hc.1]

theorem nestFrom_local (n : Nat) : ∀ p depth, nestFrom m fin n p depth = nestFrom m' fin n p depth := by
  induction n with
  | zero => intro p depth; rfl
  | succ n ih =>
      intro p depth
      rw [nestFrom, nestFrom]
      by_cases hp : fin ≤ p
      · rw [if_pos hp, if_pos hp]
      · simp only [if_neg hp, h p (by omega), skipStr_local h, ih]

theorem scalarFrom_local (n : Nat) : ∀ p, scalarFrom m fin n p = scalarFrom m' fin n p := by
  induction n with
  | zero => intro p; rfl
  | succ n ih =>
      intro p
      rw [scalarFrom, scalarFrom]
      by_cases hp : p < fin
      · rw [h p hp, ih]
      · rw [if_neg fun hc => hp hc.1, if_neg fun hc => hp hc.1]

theorem skipValue_local : skipValue m fin = skipValue m' fin := by
  funext p
  simp only [skipValue, ws_local h, skipStr_local h, nestFrom_local h, scalarFrom_local h]
  by_cases hp : fin ≤ ws m' fin p
  · rw [if_pos hp, if_pos hp]
  · rw [if_neg hp, if_neg hp, h _ (by omega)]

theorem shapeFrom_local (name : Bytes) (n : Nat) :
    ∀ p shape, shapeFrom m fin name n p shape = shapeFrom m' fin name n p shape := by
  induction n with
  | zero => intro p shape; rfl
  | succ n ih =>
      intro p shape
      rw [shapeFrom, shapeFrom]
      simp only [i64_local h, lit_local h, ws_local h, ih]

theorem readMember_local (name : Bytes) : readMember m fin name = readMember m' fin name := by
  funext key p fl
  have hdtype : readDtype m fin name = readDtype m' fin name := by
    funext p fl
    rw [readDtype, readDtype, str_local h]
  have hshape : readShape m fin name = readShape m' fin name := by
    funext p fl
    simp only [readShape, lit_local h, isAt_local h, ws_local h, shapeFrom_local h]
  have hoffsets : readOffsets m fin = readOffsets m' fin := by
    funext p
    rw [readOffsets, readOffsets, lit_local h, i64_local h]
  rw [readMember, readMember, hdtype, hshape, hoffsets, skipValue_local h]

theorem entryFrom_local (name : Bytes) (n : Nat) :
    ∀ p first fl, entryFrom m fin name n p first fl = entryFrom m' fin name n p first fl := by
  induction n with
  | zero => intro p first fl; rfl
  | succ n ih =>
      intro p first fl
      simp only [entryFrom, ws_local h, isAt_local h, lit_local h, sep_local h, str_local h, readMember_local h, ih]

theorem headerFrom_local (shard : Nat) (base fsize : Int) (n : Nat) :
    ∀ p first b, headerFrom m fin shard base fsize n p first b = headerFrom m' fin shard base fsize n p first b := by
  induction n with
  | zero => intro p first b; rfl
  | succ n ih =>
      intro p first b
      simp only [headerFrom, ws_local h, isAt_local h, lit_local h, sep_local h, str_local h, skipValue_local h,
        entryFrom_local h, ih]

/-- **Nothing behind the header is looked at.** -/
theorem scanHeader_local (shard : Nat) (base fsize : Int) (b : List Scanned) :
    scanHeader m fin shard base fsize b = scanHeader m' fin shard base fsize b := by
  rw [scanHeader, scanHeader, lit_local h]
  simp only [headerFrom_local h]

end Local

/-! ## Every loop ends -/

section Ends

variable {m : Nat → UInt8} {fin : Nat}

/-- A test that succeeds is before the end. -/
theorem isAt_lt {c : UInt8} {p : Nat} (h : isAt m fin c p) : p < fin :=
  of_decide_eq_true (Bool.and_eq_true_iff.mp h).1

theorem wsFrom_bounds (n : Nat) : ∀ p, p ≤ wsFrom m fin n p ∧ (p ≤ fin → wsFrom m fin n p ≤ fin) := by
  induction n with
  | zero => intro p; exact ⟨Nat.le_refl p, id⟩
  | succ n ih =>
      intro p
      rw [wsFrom]
      split_ifs with hp
      · have hnext := ih (p + 1)
        omega
      · exact ⟨Nat.le_refl p, id⟩

theorem ws_ge (m : Nat → UInt8) (fin p : Nat) : p ≤ ws m fin p := (wsFrom_bounds _ p).1

theorem ws_le {p : Nat} (h : p ≤ fin) : ws m fin p ≤ fin := (wsFrom_bounds _ p).2 h

theorem lit_lt {c : UInt8} {p q : Nat} (h : lit m fin c p = some q) : p < q ∧ q ≤ fin := by
  unfold lit at h
  split_ifs at h with hc
  have hlt := isAt_lt hc
  have hge := ws_ge m fin p
  cases h
  omega

theorem sep_ge {first : Bool} {p q : Nat} (h : sep m fin first p = some q) : p ≤ q := by
  unfold sep at h
  split_ifs at h
  · cases h
    exact Nat.le_refl p
  · have hlt := lit_lt h
    omega

theorem strFrom_lt (cap n : Nat) : ∀ p out k r, strFrom m fin cap n p out k = some r → p < r.2 ∧ r.2 ≤ fin := by
  induction n with
  | zero => intro p out k r h; exact absurd h (by simp [strFrom])
  | succ n ih =>
      intro p out k r h
      rw [strFrom] at h
      split_ifs at h with hend hquote hcap hslash hend1 hu hshort
      · cases h
        exact ⟨Nat.lt_succ_self p, by omega⟩
      · have hnext := ih _ _ _ _ h
        omega
      · have hnext := ih _ _ _ _ h
        omega
      · have hnext := ih _ _ _ _ h
        omega

theorem str_lt {cap p : Nat} {r : Bytes × Nat} (h : str m fin cap p = some r) : p < r.2 ∧ r.2 ≤ fin := by
  unfold str at h
  split_ifs at h
  have hnext := strFrom_lt cap _ _ _ _ _ h
  have hge := ws_ge m fin p
  omega

theorem digitsFrom_ge (n : Nat) : ∀ p a, p ≤ (digitsFrom m fin n p a).2 := by
  induction n with
  | zero => intro p a; exact Nat.le_refl p
  | succ n ih =>
      intro p a
      rw [digitsFrom]
      split_ifs
      · have hnext := ih (p + 1) (wrap64 (a * 10 + ((m p).toNat - 48)))
        omega
      · exact Nat.le_refl p

theorem digitsFrom_le (n : Nat) : ∀ p a, p ≤ fin → (digitsFrom m fin n p a).2 ≤ fin := by
  induction n with
  | zero => intro p a h; exact h
  | succ n ih =>
      intro p a h
      rw [digitsFrom]
      split_ifs with hp
      · exact ih _ _ hp.1
      · exact h

theorem i64_le {p : Nat} {r : Int × Nat} (h : i64 m fin p = some r) : p ≤ r.2 ∧ r.2 ≤ fin := by
  unfold i64 at h
  simp only at h
  have hge := ws_ge m fin p
  split_ifs at h with hneg hfirst hsign
  all_goals
    cases h
    refine ⟨Nat.le_trans ?_ (digitsFrom_ge _ _ _), digitsFrom_le _ _ _ (by omega)⟩
    omega

theorem skipStr_ge (m : Nat → UInt8) (fin n : Nat) : ∀ p, p ≤ skipStr m fin n p := by
  induction n with
  | zero => intro p; exact Nat.le_refl p
  | succ n ih =>
      intro p
      rw [skipStr]
      split_ifs
      · have hnext := ih (p + 2)
        omega
      · have hnext := ih (p + 1)
        omega
      · exact Nat.le_refl p

theorem nestFrom_le (n : Nat) : ∀ p depth q, nestFrom m fin n p depth = some q → p ≤ q ∧ q ≤ fin := by
  induction n with
  | zero => intro p depth q h; exact absurd h (by simp [nestFrom])
  | succ n ih =>
      intro p depth q h
      have hgo : ∀ r d, p ≤ r → r ≤ fin → (if 0 < d then nestFrom m fin n r d else some r) = some q →
          p ≤ q ∧ q ≤ fin := by
        intro r d hp hr hq
        split_ifs at hq
        · have hnext := ih r d q hq
          omega
        · cases hq
          exact ⟨hp, hr⟩
      rw [nestFrom] at h
      simp only at h
      have hstr := skipStr_ge m fin (fin - (p + 1)) (p + 1)
      by_cases hend : fin ≤ p
      · rw [if_pos hend] at h
        cases h
      · rw [if_neg hend] at h
        by_cases hquote : m p = 34
        · rw [if_pos hquote] at h
          by_cases hopen : fin ≤ skipStr m fin (fin - (p + 1)) (p + 1)
          · rw [if_pos hopen] at h
            cases h
          · rw [if_neg hopen] at h
            exact hgo _ _ (by omega) (by omega) h
        · rw [if_neg hquote] at h
          by_cases hdown : m p = 123 ∨ m p = 91
          · rw [if_pos hdown] at h
            exact hgo _ _ (by omega) (by omega) h
          · rw [if_neg hdown] at h
            by_cases hup : m p = 125 ∨ m p = 93
            · rw [if_pos hup] at h
              exact hgo _ _ (by omega) (by omega) h
            · rw [if_neg hup] at h
              exact hgo _ _ (by omega) (by omega) h

theorem scalarFrom_bounds (m : Nat → UInt8) (fin n : Nat) : ∀ p, p ≤ scalarFrom m fin n p ∧ (p ≤ fin → scalarFrom m fin n p ≤ fin) := by
  induction n with
  | zero => intro p; exact ⟨Nat.le_refl p, id⟩
  | succ n ih =>
      intro p
      rw [scalarFrom]
      split_ifs with hp
      · have hnext := ih (p + 1)
        omega
      · exact ⟨Nat.le_refl p, id⟩

theorem skipValue_le {p q : Nat} (h : skipValue m fin p = some q) : p ≤ q ∧ q ≤ fin := by
  unfold skipValue at h
  simp only at h
  have hge := ws_ge m fin p
  have hstr := skipStr_ge m fin (fin - (ws m fin p + 1)) (ws m fin p + 1)
  split_ifs at h
  · cases h
    omega
  · have hnest := nestFrom_le _ _ _ _ h
    omega
  · have hscalar := scalarFrom_bounds m fin (fin - ws m fin p) (ws m fin p)
    cases h
    omega

end Ends

/-! ## The rounds of the token loops suffice -/

section Rounds

variable {m : Nat → UInt8} {fin : Nat}

/-- With a round for each byte that is left, one more changes nothing. -/
theorem wsFrom_more {n p : Nat} (h : fin - p ≤ n) : wsFrom m fin (n + 1) p = wsFrom m fin n p := by
  fun_induction wsFrom m fin n p with
  | case1 p => rw [wsFrom, if_neg fun hc => absurd hc.1 (by omega)]
  | case2 p n hin ih => rw [wsFrom, if_pos hin, ih (by omega)]
  | case3 p n hout => rw [wsFrom, if_neg hout]

theorem digitsFrom_more {n p : Nat} {a : Int} (h : fin - p ≤ n) : digitsFrom m fin (n + 1) p a = digitsFrom m fin n p a := by
  fun_induction digitsFrom m fin n p a with
  | case1 p a => rw [digitsFrom, if_neg fun hc => absurd hc.1 (by omega)]
  | case2 p a n hin ih => rw [digitsFrom, if_pos hin, ih (by omega)]
  | case3 p a n hout => rw [digitsFrom, if_neg hout]

theorem skipStr_more {n p : Nat} (h : fin - p ≤ n) : skipStr m fin (n + 1) p = skipStr m fin n p := by
  fun_induction skipStr m fin n p with
  | case1 p => rw [skipStr, if_neg fun hc => absurd hc.1 (by omega)]
  | case2 n p hin ih =>
      rw [skipStr, if_pos hin]
      apply ih
      split_ifs
      · omega
      · omega
  | case3 n p hout => rw [skipStr, if_neg hout]

theorem scalarFrom_more {n p : Nat} (h : fin - p ≤ n) : scalarFrom m fin (n + 1) p = scalarFrom m fin n p := by
  fun_induction scalarFrom m fin n p with
  | case1 p => rw [scalarFrom, if_neg fun hc => absurd hc.1 (by omega)]
  | case2 n p hin ih => rw [scalarFrom, if_pos hin, ih (by omega)]
  | case3 n p hout => rw [scalarFrom, if_neg hout]

theorem strFrom_more {cap n p k : Nat} {out : Bytes} (h : fin - p ≤ n) :
    strFrom m fin cap (n + 1) p out k = strFrom m fin cap n p out k := by
  fun_induction strFrom m fin cap n p out k with
  | case1 p out k => rw [strFrom, if_pos (by omega)]
  | case2 n p out k hend => rw [strFrom, if_pos hend]
  | case3 n p out k hin hquote hlong => rw [strFrom, if_neg hin, if_pos hquote, if_pos hlong]
  | case4 n p out k hin hquote hfits => rw [strFrom, if_neg hin, if_pos hquote, if_neg hfits]
  | case5 n p out k hin hquote hback hend => rw [strFrom, if_neg hin, if_neg hquote, if_pos hback, if_pos hend]
  | case6 n p out k hin hquote hback hnext hu hshort =>
      rw [strFrom, if_neg hin, if_neg hquote, if_pos hback, if_neg hnext, if_pos hu, if_pos hshort]
  | case7 n p out k hin hquote hback hnext hu hfour c ih =>
      rw [strFrom, if_neg hin, if_neg hquote, if_pos hback, if_neg hnext, if_pos hu, if_neg hfour]
      exact ih (by omega)
  | case8 n p out k hin hquote hback hnext hplain ih =>
      rw [strFrom, if_neg hin, if_neg hquote, if_pos hback, if_neg hnext, if_neg hplain]
      exact ih (by omega)
  | case9 n p out k hin hquote hback ih =>
      rw [strFrom, if_neg hin, if_neg hquote, if_neg hback]
      exact ih (by omega)

theorem nestFrom_more (n : Nat) : ∀ p depth, fin - p ≤ n → nestFrom m fin (n + 1) p depth = nestFrom m fin n p depth := by
  induction n with
  | zero =>
      intro p depth h
      exact if_pos (by omega)
  | succ n ih =>
      intro p depth h
      have hstr := skipStr_ge m fin (fin - (p + 1)) (p + 1)
      have hgo : ∀ q d, p < q → (if 0 < d then nestFrom m fin (n + 1) q d else some q) =
          if 0 < d then nestFrom m fin n q d else some q := by
        intro q d hq
        rw [ih q d (by omega)]
      unfold nestFrom
      dsimp only
      rw [hgo _ _ (by omega), hgo _ _ (by omega), hgo _ _ (by omega), hgo _ _ (by omega)]

end Rounds

section Ends

variable {m : Nat → UInt8} {fin : Nat}

/-- A result that is not for want of rounds, and that has gone on. -/
def Ends {α : Type} (fin p : Nat) (r : Except ScanFail (α × Nat)) : Prop :=
  r ≠ .error .hung ∧ ∀ a q, r = .ok (a, q) → p ≤ q ∧ q ≤ fin

theorem Ends.error {α : Type} {fin p : Nat} {e : ScanFail} (h : e ≠ .hung) :
    Ends fin p (.error e : Except ScanFail (α × Nat)) :=
  ⟨fun he => h (Except.error.inj he), fun _ _ hok => by cases hok⟩

theorem Ends.ok {α : Type} {fin p q : Nat} (a : α) (hp : p ≤ q) (hq : q ≤ fin) : Ends fin p (.ok (a, q)) :=
  ⟨nofun, fun _ _ hok => by cases hok; exact ⟨hp, hq⟩⟩

theorem Ends.from {α : Type} {fin p p' : Nat} {r : Except ScanFail (α × Nat)} (h : Ends fin p' r) (hp : p ≤ p') :
    Ends fin p r :=
  ⟨h.1, fun a q hok => ⟨Nat.le_trans hp (h.2 a q hok).1, (h.2 a q hok).2⟩⟩

theorem shapeFrom_ends (name : Bytes) (n : Nat) :
    ∀ p shape, p ≤ fin → fin < p + n → Ends fin p (shapeFrom m fin name n p shape) := by
  induction n with
  | zero => intro p shape hp hn; omega
  | succ n ih =>
      intro p shape hp hn
      rw [shapeFrom]
      cases hd : i64 m fin p with
      | none => exact .error (by decide)
      | some r =>
          have hr := i64_le hd
          have hws := ws_ge m fin r.2
          simp only
          split_ifs
          · cases hcomma : lit m fin 44 (ws m fin r.2) with
            | some q =>
                have hq := lit_lt hcomma
                exact (ih q _ hq.2 (by omega)).from (by omega)
            | none =>
                cases hclose : lit m fin 93 (ws m fin r.2) with
                | none => exact .error (by decide)
                | some q =>
                    have hq := lit_lt hclose
                    exact .ok _ (by omega) hq.2
          · exact .error (by simp)

theorem readShape_ends (name : Bytes) {p : Nat} (fl : Fields) : Ends fin p (readShape m fin name p fl) := by
  unfold readShape
  cases hopen : lit m fin 91 p with
  | none => exact .error (by decide)
  | some q =>
      have hq := lit_lt hopen
      have hws := ws_ge m fin q
      simp only
      split_ifs with hclose
      · have hlt := isAt_lt hclose
        exact .ok _ (by omega) (by omega)
      · have hdims := shapeFrom_ends (m := m) name (fin + 1 - q) (ws m fin q) fl.shape (ws_le hq.2) (by omega)
        cases hr : shapeFrom m fin name (fin + 1 - q) (ws m fin q) fl.shape with
        | error e =>
            rw [hr] at hdims
            exact .error fun he => hdims.1 (congrArg Except.error he)
        | ok r =>
            have hnext := hdims.2 r.1 r.2 hr
            exact .ok _ (by omega) hnext.2

theorem readOffsets_le {p : Nat} {r : (Int × Int) × Nat} (h : readOffsets m fin p = some r) : p ≤ r.2 ∧ r.2 ≤ fin := by
  unfold readOffsets at h
  simp only [Option.bind_eq_bind, Option.bind_eq_some_iff, Option.pure_def, Option.some.injEq] at h
  obtain ⟨p1, hopen, r0, h0, p2, hcomma, r1, h1, p3, hclose, rfl⟩ := h
  have hp1 := lit_lt hopen
  have hp0 := i64_le h0
  have hp2 := lit_lt hcomma
  have hp3 := i64_le h1
  have hp4 := lit_lt hclose
  simp only
  omega

theorem readMember_ends (name key : Bytes) {p : Nat} (fl : Fields) : Ends fin p (readMember m fin name key p fl) := by
  unfold readMember
  split_ifs
  · unfold readDtype
    cases hv : str m fin 32 p with
    | none => exact .error (by decide)
    | some r =>
        have hr := str_lt hv
        simp only
        split_ifs
        · exact .error (by simp)
        · exact .ok _ (by omega) hr.2
  · exact readShape_ends name fl
  · cases ho : readOffsets m fin p with
    | none => exact .error (by decide)
    | some r =>
        have hr := readOffsets_le ho
        exact .ok _ hr.1 hr.2
  · cases hs : skipValue m fin p with
    | none => exact .error (by decide)
    | some q =>
        have hq := skipValue_le hs
        exact .ok _ hq.1 hq.2

theorem entryFrom_ends (name : Bytes) (n : Nat) :
    ∀ p first fl, p ≤ fin → fin < p + n → Ends fin p (entryFrom m fin name n p first fl) := by
  induction n with
  | zero => intro p first fl hp hn; omega
  | succ n ih =>
      intro p first fl hp hn
      have hws := ws_ge m fin p
      rw [entryFrom]
      split_ifs with hclose
      · have hlt := isAt_lt hclose
        exact .ok _ (by omega) (by omega)
      · cases hq : sep m fin first (ws m fin p) with
        | none => exact .error (by decide)
        | some q =>
            have hpq := sep_ge hq
            simp only
            cases hkey : str m fin 64 q with
            | none => exact .error (by decide)
            | some r =>
                have hr := str_lt hkey
                simp only
                cases hcolon : lit m fin 58 r.2 with
                | none => exact .error (by decide)
                | some q' =>
                    have hq' := lit_lt hcolon
                    have hmember : Ends fin q' (readMember m fin name r.1 q' fl) := readMember_ends name r.1 fl
                    simp only
                    cases hv : readMember m fin name r.1 q' fl with
                    | error e =>
                        rw [hv] at hmember
                        exact .error fun he => hmember.1 (congrArg Except.error he)
                    | ok v =>
                        have hnext := hmember.2 v.1 v.2 hv
                        exact (ih v.2 false v.1 hnext.2 (by omega)).from (by omega)

theorem finish_ne_hung (name : Bytes) (shard : Nat) (base fsize : Int) (fl : Fields) :
    finish name shard base fsize fl ≠ .error .hung := by
  unfold finish
  split
  · simp only
    split_ifs <;> simp
  · simp

theorem headerFrom_ends (shard : Nat) (base fsize : Int) (n : Nat) :
    ∀ p first b, p ≤ fin → fin < p + n → headerFrom m fin shard base fsize n p first b ≠ .error .hung := by
  induction n with
  | zero => intro p first b hp hn; omega
  | succ n ih =>
      intro p first b hp hn
      have hws := ws_ge m fin p
      rw [headerFrom]
      by_cases hclose : isAt m fin 125 (ws m fin p)
      · rw [if_pos hclose]
        nofun
      rw [if_neg hclose]
      cases hq : sep m fin first (ws m fin p) with
      | none => nofun
      | some q =>
          have hpq := sep_ge hq
          simp only
          by_cases hclose : isAt m fin 125 (ws m fin q)
          · rw [if_pos hclose]
            nofun
          rw [if_neg hclose]
          cases hname : str m fin 512 q with
          | none => nofun
          | some r =>
              have hr := str_lt hname
              simp only
              cases hcolon : lit m fin 58 r.2 with
              | none => nofun
              | some q' =>
                  have hq' := lit_lt hcolon
                  simp only
                  by_cases hmeta : strcmpEq r.1 (ascii "__metadata__")
                  · rw [if_pos hmeta]
                    cases hskip : skipValue m fin q' with
                    | none => nofun
                    | some v =>
                        have hv := skipValue_le hskip
                        exact ih v false b hv.2 (by omega)
                  · rw [if_neg hmeta]
                    cases hopen : lit m fin 123 q' with
                    | none => nofun
                    | some v =>
                        have hv := lit_lt hopen
                        have hentry := entryFrom_ends (m := m) r.1 (fin + 1 - v) v true ⟨none, [], none⟩ hv.2 (by omega)
                        simp only
                        cases he : entryFrom m fin r.1 (fin + 1 - v) v true ⟨none, [], none⟩ with
                        | error e =>
                            rw [he] at hentry
                            exact fun he => hentry.1 (congrArg Except.error (Except.error.inj he))
                        | ok w =>
                            have hw := hentry.2 w.1 w.2 he
                            simp only
                            cases hf : finish r.1 shard base fsize w.1 with
                            | error e =>
                                have hends := finish_ne_hung r.1 shard base fsize w.1
                                rw [hf] at hends
                                exact fun he => hends (congrArg Except.error (Except.error.inj he))
                            | ok t => exact ih w.2 false (b ++ [t]) hw.2 (by omega)

/-- **The scanner ends on every header.** -/
theorem scanHeader_ends (shard : Nat) (base fsize : Int) (b : List Scanned) :
    scanHeader m fin shard base fsize b ≠ .error .hung := by
  unfold scanHeader
  cases hopen : lit m fin 123 0 with
  | none => nofun
  | some p =>
      have hp := lit_lt hopen
      exact headerFrom_ends shard base fsize _ p true b hp.2 (by omega)

end Ends

/-- What the read of the header brings. -/
theorem readHeader (f : FileBytes) (k : Kernel f.size) (heap : Mem) (hlen : Nat) :
    (readLoop f k 8 hlen 0 0 heap).1 = f.reach 8 hlen ∧
      ∀ i : Nat, (i : Int) < f.reach 8 hlen → (readLoop f k 8 hlen 0 0 heap).2 i = f.byte (8 + i) := by
  have hstart : 0 ≤ f.reach 8 hlen := by
    unfold FileBytes.reach
    omega
  rw [readLoop_eq f k (by decide) (by decide) 0 0 heap (Int.le_refl 0) hstart]
  refine ⟨rfl, fun i hi => ?_⟩
  simp only
  rw [if_pos ⟨Int.natCast_nonneg i, hi⟩, show ((8 : Int) + i).toNat = 8 + i by omega]

/-- **The scan of a shard is a matter of the file alone**: not of what the allocated memory held, nor of the
portions the header was read in. -/
theorem scanShard_local (f : FileBytes) (k8 k k' : Kernel f.size) (heap heap' : Mem) (shard : Nat) (b : List Scanned) :
    scanShard f k8 k heap shard b = scanShard f k8 k' heap' shard b := by
  unfold scanShard
  simp only
  have hread := readHeader f k heap (get ((List.range 8).map f.byte))
  have hread' := readHeader f k' heap' (get ((List.range 8).map f.byte))
  rw [hread.1, hread'.1]
  split_ifs with h8 hlen hshort
  · rfl
  · rfl
  · rfl
  · refine scanHeader_local (fun i hi => ?_) shard _ _ b
    have hreach : (i : Int) < f.reach 8 (get ((List.range 8).map f.byte)) := by omega
    unfold headerMem
    rw [if_neg (by omega), if_neg (by omega), hread.2 i hreach, hread'.2 i hreach]

theorem scanShard_ends (f : FileBytes) (k8 k : Kernel f.size) (heap : Mem) (shard : Nat) (b : List Scanned) :
    scanShard f k8 k heap shard b ≠ .error .hung := by
  unfold scanShard
  simp only
  split_ifs
  · nofun
  · nofun
  · nofun
  · exact scanHeader_ends shard _ _ b

end LlmEngine.Bind.Scan
