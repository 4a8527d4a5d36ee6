/-
# LlmEngine.Bind.ScanSpan — what `scan_shard` has checked of a tensor (`src/io/k3_st.c`).

Dimensions and offsets are `int64_t`, read from digits with wrap-around, and so are the products and sums
the checks compare.  `Checked` is what stands when a tensor is pushed.  That the tensor is a span of the
file behind the header (`Safe`) comes down to the numbers having been in range (`InRange`).

* `Fields.Ok` is what a member can leave of the fields, whatever the text (`readMember_ok`); `entryFrom_ok` carries it
  over the members.
* `finish_checked` is what the checks have then compared, modulo 2^64.
* `headerFrom_checked` says it of every tensor pushed, by induction on the entries.
* `scanShard_safe_iff`: in a shard that is accepted, the tensors that are spans of the file are those whose numbers
  were in range.

`negativeShard` is a shard with two negative dimensions whose product is right; it is accepted.
-/
import LlmEngine.Bind.Scan

namespace LlmEngine.Bind.Scan

open LlmEngine.Lib
open LlmEngine.Lib.LittleEndian
open LlmEngine.Tokenizer (ascii)

/-- An `int64_t`. -/
def Int64Range (i : Int) : Prop := -2 ^ 63 ≤ i ∧ i < 2 ^ 63

theorem int64Range_wrap64 (i : Int) : Int64Range (wrap64 i) := ⟨wrap64_ge i, wrap64_lt i⟩

/-! ## What the members of an entry can set -/

section Read

variable {m : Nat → UInt8} {fin : Nat}

theorem digitsFrom_range (n : Nat) : ∀ p a, Int64Range a → Int64Range (digitsFrom m fin n p a).1 := by
  induction n with
  | zero => intro p a h; exact h
  | succ n ih =>
      intro p a h
      rw [digitsFrom]
      split_ifs
      · exact ih _ _ (int64Range_wrap64 _)
      · exact h

theorem i64_range {p : Nat} {r : Int × Nat} (h : i64 m fin p = some r) : Int64Range r.1 := by
  unfold i64 at h
  simp only at h
  split_ifs at h
  all_goals
    cases h
    first
    | exact int64Range_wrap64 _
    | exact digitsFrom_range _ _ _ (by unfold Int64Range; omega)

/-- The ranges of the fields of an entry. -/
structure Fields.Ok (fl : Fields) : Prop where
  rank : fl.shape.length ≤ 4
  dims : ∀ d ∈ fl.shape, Int64Range d
  known : fl.dtype ≠ some .unknown ∧ fl.dtype ≠ some .i8r
  offsets : ∀ o, fl.offsets = some o → Int64Range o.1 ∧ Int64Range o.2

theorem Fields.Ok.initial : Fields.Ok ⟨none, [], none⟩ :=
  ⟨by decide, nofun, by decide, nofun⟩

theorem shapeFrom_ok (name : Bytes) (n : Nat) : ∀ p shape r, shape.length ≤ 4 → (∀ d ∈ shape, Int64Range d) →
    shapeFrom m fin name n p shape = .ok r → r.1.length ≤ 4 ∧ ∀ d ∈ r.1, Int64Range d := by
  induction n with
  | zero => intro p shape r _ _ h; cases h
  | succ n ih =>
      intro p shape r hrank hdims h
      rw [shapeFrom] at h
      cases hd : i64 m fin p with
      | none =>
          rw [hd] at h
          cases h
      | some v =>
          rw [hd] at h
          simp only at h
          by_cases hlt : shape.length < 4
          · rw [if_pos hlt] at h
            have hrank' : (shape ++ [v.1]).length ≤ 4 := by
              rw [List.length_append, List.length_singleton]
              omega
            have hdims' : ∀ d ∈ shape ++ [v.1], Int64Range d := by
              intro d hmem
              rcases List.mem_append.mp hmem with hold | hnew
              · exact hdims d hold
              · rw [List.mem_singleton.mp hnew]
                exact i64_range hd
            cases hcomma : lit m fin 44 (ws m fin v.2) with
            | some q =>
                rw [hcomma] at h
                exact ih q _ r hrank' hdims' h
            | none =>
                rw [hcomma] at h
                simp only at h
                cases hclose : lit m fin 93 (ws m fin v.2) with
                | none =>
                    rw [hclose] at h
                    cases h
                | some q =>
                    rw [hclose] at h
                    cases h
                    exact ⟨hrank', hdims'⟩
          · rw [if_neg hlt] at h
            cases h

theorem dtypeOf_ne_i8r (s : Bytes) : dtypeOf s ≠ .i8r := by
  unfold dtypeOf
  split_ifs <;> decide

theorem readOffsets_range {p : Nat} {r : (Int × Int) × Nat} (h : readOffsets m fin p = some r) :
    Int64Range r.1.1 ∧ Int64Range r.1.2 := by
  unfold readOffsets at h
  simp only [Option.bind_eq_bind, Option.bind_eq_some_iff, Option.pure_def, Option.some.injEq] at h
  obtain ⟨p1, -, r0, h0, p2, -, r1, h1, p3, -, rfl⟩ := h
  exact ⟨i64_range h0, i64_range h1⟩

/-- One member keeps the ranges. -/
theorem readMember_ok (name key : Bytes) {p : Nat} {fl : Fields} (hfl : fl.Ok) {r : Fields × Nat}
    (h : readMember m fin name key p fl = .ok r) : r.1.Ok := by
  unfold readMember at h
  split_ifs at h
  · unfold readDtype at h
    cases hv : str m fin 32 p with
    | none =>
        rw [hv] at h
        cases h
    | some v =>
        rw [hv] at h
        simp only at h
        split_ifs at h with hunknown
        cases h
        exact { hfl with known := ⟨fun he => hunknown (Option.some.inj he), fun he => dtypeOf_ne_i8r _ (Option.some.inj he)⟩ }
  · unfold readShape at h
    cases hopen : lit m fin 91 p with
    | none =>
        rw [hopen] at h
        cases h
    | some q =>
        rw [hopen] at h
        simp only at h
        split_ifs at h
        · cases h
          exact hfl
        · cases hs : shapeFrom m fin name (fin + 1 - q) (ws m fin q) fl.shape with
          | error e =>
              rw [hs] at h
              cases h
          | ok v =>
              rw [hs] at h
              cases h
              have hv := shapeFrom_ok name _ _ _ v hfl.rank hfl.dims hs
              exact { hfl with rank := hv.1, dims := hv.2 }
  · cases ho : readOffsets m fin p with
    | none =>
        rw [ho] at h
        cases h
    | some v =>
        rw [ho] at h
        cases h
        exact { hfl with offsets := fun o he => by cases he; exact readOffsets_range ho }
  · cases hs : skipValue m fin p with
    | none =>
        rw [hs] at h
        cases h
    | some v =>
        rw [hs] at h
        cases h
        exact hfl

/-- What a round over the members does: the entry ends, or a member is read and the next round follows. -/
theorem entryFrom_step (name : Bytes) {n p : Nat} {first : Bool} {fl : Fields} {r : Fields × Nat}
    (h : entryFrom m fin name (n + 1) p first fl = .ok r) :
    r.1 = fl ∨ ∃ key q v, readMember m fin name key q fl = .ok v ∧ entryFrom m fin name n v.2 false v.1 = .ok r := by
  rw [entryFrom] at h
  split_ifs at h
  · cases h
    exact .inl rfl
  · cases hq : sep m fin first (ws m fin p) with
    | none => simp only [hq, reduceCtorEq] at h
    | some q =>
        cases hkey : str m fin 64 q with
        | none => simp only [hq, hkey, reduceCtorEq] at h
        | some k =>
            cases hcolon : lit m fin 58 k.2 with
            | none => simp only [hq, hkey, hcolon, reduceCtorEq] at h
            | some q' =>
                cases hv : readMember m fin name k.1 q' fl with
                | error e => simp only [hq, hkey, hcolon, hv, reduceCtorEq] at h
                | ok v =>
                    simp only [hq, hkey, hcolon, hv] at h
                    exact .inr ⟨k.1, q', v, hv, h⟩

/-- An entry keeps the ranges. -/
theorem entryFrom_ok (name : Bytes) (n : Nat) : ∀ p first fl r, Fields.Ok fl →
    entryFrom m fin name n p first fl = .ok r → r.1.Ok := by
  induction n with
  | zero => intro p first fl r _ h; cases h
  | succ n ih =>
      intro p first fl r hfl h
      obtain heq | ⟨key, q, v, hv, hrest⟩ := entryFrom_step name h
      · rw [heq]
        exact hfl
      · exact ih v.2 false v.1 r (readMember_ok name key hfl hv) hrest

end Read

/-! ## What is pushed -/

/-- **What stands when a tensor is pushed**: the fields are in their types, and the checks have passed with
wrapped numbers. -/
structure Scanned.Checked (t : Scanned) (shard : Nat) (base fsize : Int) : Prop where
  shard_eq : t.shard = shard
  rank : t.shape.length ≤ 4
  known : t.dtype ≠ .unknown ∧ t.dtype ≠ .i8r
  start : Int64Range t.o0
  stop : Int64Range t.o1
  off_eq : t.off = wrap64 (base + t.o0)
  nbytes_eq : t.nbytes = wrap64 (t.o1 - t.o0)
  size : t.nbytes = wrap64 (t.shape.prod * k3StElemsize t.dtype)
  within : wrap64 (base + t.o1) ≤ fsize

/-- The wrapped product stands for the product. -/
theorem numel_wrap (shape : List Int) (n k : Int) :
    wrap64 (shape.foldl (fun n d => wrap64 (n * d)) n * k) = wrap64 (n * shape.prod * k) := by
  induction shape generalizing n with
  | nil => rw [List.foldl_nil, List.prod_nil, mul_one]
  | cons d ds ih =>
      rw [List.foldl_cons, ih, List.prod_cons, mul_assoc, wrap64_mul_left, ← mul_assoc, ← mul_assoc]

theorem finish_checked {name : Bytes} {shard : Nat} {base fsize : Int} {fl : Fields} (hfl : fl.Ok) {t : Scanned}
    (h : finish name shard base fsize fl = .ok t) : t.Checked shard base fsize := by
  unfold finish at h
  split at h
  · rename_i dtype o0 o1 hdtype hoffsets
    simp only at h
    split_ifs at h with hspan hpast
    cases h
    have hranges := hfl.offsets (o0, o1) hoffsets
    refine ⟨rfl, hfl.rank, ⟨fun he => hfl.known.1 (he ▸ hdtype), fun he => hfl.known.2 (he ▸ hdtype)⟩, hranges.1,
      hranges.2, rfl, rfl, ?_, Int.not_lt.mp hpast⟩
    rw [not_not.mp hspan, numel_wrap, one_mul]
  · cases h

section Header

variable {m : Nat → UInt8} {fin shard : Nat} {base fsize : Int}

/-- What a round over the header does: it ends, skips the metadata, or pushes a tensor. -/
theorem headerFrom_step {n p : Nat} {first : Bool} {b b' : List Scanned}
    (h : headerFrom m fin shard base fsize (n + 1) p first b = .ok b') :
    b' = b ∨ (∃ q, headerFrom m fin shard base fsize n q false b = .ok b') ∨
      ∃ name q v t, entryFrom m fin name (fin + 1 - q) q true ⟨none, [], none⟩ = .ok v ∧
        finish name shard base fsize v.1 = .ok t ∧
        headerFrom m fin shard base fsize n v.2 false (b ++ [t]) = .ok b' := by
  rw [headerFrom] at h
  split_ifs at h
  · cases h
    exact .inl rfl
  · cases hq : sep m fin first (ws m fin p) with
    | none => simp only [hq, reduceCtorEq] at h
    | some q =>
        simp only [hq] at h
        split_ifs at h
        · cases h
          exact .inl rfl
        · cases hname : str m fin 512 q with
          | none => simp only [hname, reduceCtorEq] at h
          | some k =>
              cases hcolon : lit m fin 58 k.2 with
              | none => simp only [hname, hcolon, reduceCtorEq] at h
              | some q' =>
                  simp only [hname, hcolon] at h
                  split_ifs at h
                  · cases hskip : skipValue m fin q' with
                    | none => simp only [hskip, reduceCtorEq] at h
                    | some v =>
                        simp only [hskip] at h
                        exact .inr (.inl ⟨v, h⟩)
                  · cases hopen : lit m fin 123 q' with
                    | none => simp only [hopen, reduceCtorEq] at h
                    | some v =>
                        cases hv : entryFrom m fin k.1 (fin + 1 - v) v true ⟨none, [], none⟩ with
                        | error e => simp only [hopen, hv, reduceCtorEq] at h
                        | ok w =>
                            cases ht : finish k.1 shard base fsize w.1 with
                            | error e => simp only [hopen, hv, ht, reduceCtorEq] at h
                            | ok t =>
                                simp only [hopen, hv, ht] at h
                                exact .inr (.inr ⟨k.1, v, w, t, hv, ht, h⟩)

/-- **Every tensor a run pushes has been checked.** -/
theorem headerFrom_checked (n : Nat) : ∀ p first b b', headerFrom m fin shard base fsize n p first b = .ok b' →
    ∃ ts, b' = b ++ ts ∧ ∀ t ∈ ts, t.Checked shard base fsize := by
  induction n with
  | zero => intro p first b b' h; cases h
  | succ n ih =>
      intro p first b b' h
      obtain rfl | ⟨q, hrest⟩ | ⟨name, q, v, t, hv, ht, hrest⟩ := headerFrom_step h
      · exact ⟨[], (List.append_nil _).symm, nofun⟩
      · exact ih q false b b' hrest
      · obtain ⟨ts, rfl, hts⟩ := ih v.2 false (b ++ [t]) b' hrest
        refine ⟨t :: ts, List.append_assoc b [t] ts, fun u hu => ?_⟩
        rcases List.mem_cons.mp hu with rfl | hmem
        · exact finish_checked (entryFrom_ok name _ _ _ _ v Fields.Ok.initial hv) ht
        · exact hts u hmem

end Header

/-! ## Spans of the file -/

/-- The header length a file names. -/
def headerLen (f : FileBytes) : Nat := get ((List.range 8).map f.byte)

/-- **A tensor is a span of the file behind the header.** -/
structure Scanned.Safe (t : Scanned) (start fsize : Int) : Prop where
  dims : ∀ d ∈ t.shape, 0 ≤ d
  size : t.shape.prod * k3StElemsize t.dtype = t.nbytes
  begins : start ≤ t.off
  ends : t.off + t.nbytes ≤ fsize

/-- The numbers of an entry as `i64_` read them: none is negative, and neither the size the shape stands for
nor the end of the span leaves an `int64_t`. -/
structure Scanned.InRange (t : Scanned) (start : Int) : Prop where
  dims : ∀ d ∈ t.shape, 0 ≤ d
  size : t.shape.prod * k3StElemsize t.dtype < 2 ^ 63
  first : 0 ≤ t.o0
  last : 0 ≤ t.o1
  reach : start + t.o1 < 2 ^ 63

theorem shape_prod_nonneg {shape : List Int} (h : ∀ d ∈ shape, 0 ≤ d) : 0 ≤ shape.prod := by
  induction shape with
  | nil => exact Int.one_nonneg
  | cons d ds ih =>
      rw [List.prod_cons]
      exact Int.mul_nonneg (h d List.mem_cons_self) (ih fun x hx => h x (List.mem_cons_of_mem d hx))

theorem elemsize_nonneg (dt : K3Dtype) : 0 ≤ k3StElemsize dt := by
  cases dt <;> decide

/-- **A tensor that was pushed is safe exactly when its numbers were in range.** -/
theorem Scanned.Checked.safe_iff {t : Scanned} {shard : Nat} {base fsize : Int} (h : t.Checked shard base fsize)
    (hbase : 0 ≤ base) (hle : base ≤ fsize) (hmax : fsize < 2 ^ 63) : t.Safe base fsize ↔ t.InRange base := by
  obtain ⟨hstart, hstop⟩ := And.intro h.start h.stop
  unfold Int64Range at hstart hstop
  have hoff := h.off_eq
  have hnbytes := h.nbytes_eq
  have hwithin := h.within
  constructor
  · intro hsafe
    have hnum := Int.mul_nonneg (shape_prod_nonneg hsafe.dims) (elemsize_nonneg t.dtype)
    have hsize := hsafe.size
    have hbegins := hsafe.begins
    have hends := hsafe.ends
    have hlimit := wrap64_lt (t.o1 - t.o0)
    -- the first offset: a negative one starts before the header's end, one too large wraps before it
    have hreach0 : base + t.o0 < 2 ^ 63 := by
      by_contra hbig
      rw [hoff, wrap64_above (by omega) (by omega)] at hbegins
      omega
    rw [wrap64_of_range (by omega) hreach0] at hoff
    -- the last offset: what it comes to is where the span ends
    have hlast : t.o1 - t.o0 < 2 ^ 63 := by omega
    have hspan : -2 ^ 63 ≤ t.o1 - t.o0 := by
      by_contra hlow
      rw [← wrap64_turn, show t.o1 - t.o0 - 2 ^ 64 = t.o1 - t.o0 + 2 ^ 64 - 2 ^ 64 - 2 ^ 64 by ring, wrap64_turn, wrap64_turn,
        wrap64_of_range (by omega) (by omega)] at hnbytes
      omega
    rw [wrap64_of_range hspan hlast] at hnbytes
    exact ⟨hsafe.dims, by omega, by omega, by omega, by omega⟩
  · intro hrange
    obtain ⟨hdims, hsize, hfirst, hlast, hreach⟩ := hrange
    have hnum := Int.mul_nonneg (shape_prod_nonneg hdims) (elemsize_nonneg t.dtype)
    have hexact := h.size
    rw [wrap64_of_range (by omega) hsize] at hexact
    rw [wrap64_of_range (by omega) (by omega)] at hnbytes hwithin
    rw [wrap64_of_range (by omega) (by omega)] at hoff
    exact ⟨hdims, hexact.symm, by omega, by omega⟩

/-! ## The shard -/

/-- What a scan comes down to, once the header is read. -/
theorem scanShard_eq (f : FileBytes) {k8 : Kernel f.size} (k : Kernel f.size) (heap : Mem) (shard : Nat)
    (b : List Scanned) (h8 : k8.serve 0 0 8 = 8) (hpos : headerLen f ≠ 0) (hle : 8 + headerLen f ≤ f.size) :
    scanShard f k8 k heap shard b =
      scanHeader (fun i => f.byte (8 + i)) (headerLen f) shard ((8 + headerLen f : Nat) : Int) f.size b := by
  have hsize := f.bounded
  have hread := readHeader f k heap (headerLen f)
  have hreach : f.reach 8 (headerLen f) = headerLen f := by
    unfold FileBytes.reach
    omega
  have hmod : (8 + headerLen f) % 2 ^ 64 = 8 + headerLen f := Nat.mod_eq_of_lt (by omega)
  unfold scanShard
  simp only
  rw [← headerLen, if_neg (not_not.mpr h8), hmod, if_neg (by omega), hread.1, hreach, if_neg (not_not.mpr rfl),
    wrap64_of_range (by omega) (by omega)]
  refine scanHeader_local (fun i hi => ?_) shard _ _ b
  unfold headerMem
  rw [if_neg (by omega), hread.2 i (by omega)]

/-- A shard that is not refused has its header inside. -/
theorem scanShard_inside {f : FileBytes} {k8 k : Kernel f.size} {heap : Mem} {shard : Nat} {b b' : List Scanned}
    (h : scanShard f k8 k heap shard b = .ok b') :
    k8.serve 0 0 8 = 8 ∧ headerLen f ≠ 0 ∧ 8 + headerLen f ≤ f.size := by
  unfold scanShard at h
  simp only at h
  have hread := (readHeader f k heap (get ((List.range 8).map f.byte))).1
  split_ifs at h with h8 hlen hshort
  have hreach := hread.symm.trans (not_not.mp hshort)
  unfold FileBytes.reach at hreach
  unfold headerLen
  exact ⟨not_not.mp h8, by omega, by omega⟩

/-- **Which of the tensors of an accepted shard are safe**: exactly those whose numbers were in range. -/
theorem scanShard_safe_iff (f : FileBytes) (k8 k : Kernel f.size) (heap : Mem) (shard : Nat) (b b' : List Scanned)
    (h : scanShard f k8 k heap shard b = .ok b') :
    ∃ ts, b' = b ++ ts ∧ ∀ t ∈ ts,
      t.Safe ((8 + headerLen f : Nat) : Int) f.size ↔ t.InRange ((8 + headerLen f : Nat) : Int) := by
  obtain ⟨h8, hpos, hle⟩ := scanShard_inside h
  have hsize := f.bounded
  rw [scanShard_eq f k heap shard b h8 hpos hle, scanHeader] at h
  cases hopen : lit (fun i => f.byte (8 + i)) (headerLen f) 123 0 with
  | none => simp only [hopen, reduceCtorEq] at h
  | some p =>
      simp only [hopen] at h
      obtain ⟨ts, rfl, hts⟩ := headerFrom_checked _ p true b b' h
      exact ⟨ts, rfl, fun t ht => (hts t ht).safe_iff (by omega) (by omega) (by omega)⟩

/-- A file of the bytes given. -/
def fileOf (bytes : Bytes) (h : bytes.length < 2 ^ 63) : FileBytes := ⟨fun i => bytes.getD i 0, bytes.length, h⟩

/-- A header and what follows it. -/
def shardBytes (header data : Bytes) : Bytes := put 8 header.length ++ header ++ data

/-- A tensor of four bytes. -/
def plainHeader : Bytes := ascii "\x7b\"w\":\x7b\"dtype\":\"U8\",\"shape\":[2,2],\"data_offsets\":[0,4]\x7d\x7d"

/-- The same with both dimensions negative. -/
def negativeHeader : Bytes := ascii "\x7b\"w\":\x7b\"dtype\":\"U8\",\"shape\":[-2,-2],\"data_offsets\":[0,4]\x7d\x7d"

def plainShard : FileBytes := fileOf (shardBytes plainHeader [1, 2, 3, 4]) (by decide +kernel)

def negativeShard : FileBytes := fileOf (shardBytes negativeHeader [1, 2, 3, 4]) (by decide +kernel)

theorem plainShard_scanned :
    scanShard plainShard (.whole _) (.whole _) (fun _ => 0) 0 [] =
      .ok [⟨ascii "w", 0, .u8, [2, 2], 0, 4, 63, 4⟩] := by
  rw [scanShard_eq plainShard (.whole _) _ 0 [] (by decide +kernel) (by decide +kernel) (by decide +kernel)]
  decide +kernel

theorem negativeShard_scanned :
    scanShard negativeShard (.whole _) (.whole _) (fun _ => 0) 0 [] =
      .ok [⟨ascii "w", 0, .u8, [-2, -2], 0, 4, 65, 4⟩] := by
  rw [scanShard_eq negativeShard (.whole _) _ 0 [] (by decide +kernel) (by decide +kernel) (by decide +kernel)]
  decide +kernel

/-- The plain tensor is safe: its numbers are in range. -/
theorem plainShard_safe : ∃ t, scanShard plainShard (.whole _) (.whole _) (fun _ => 0) 0 [] = .ok [t] ∧
    t.Safe ((8 + headerLen plainShard : Nat) : Int) plainShard.size := by
  obtain ⟨ts, hts, hsafe⟩ := scanShard_safe_iff plainShard _ _ _ 0 [] _ plainShard_scanned
  rw [List.nil_append] at hts
  subst hts
  exact ⟨_, plainShard_scanned, (hsafe _ List.mem_cons_self).mpr
    ⟨by decide, by decide, by decide, by decide, by decide +kernel⟩⟩

/-- Two negative dimensions have a positive product, and are accepted. -/
theorem negativeShard_unsafe : ∃ t, scanShard negativeShard (.whole _) (.whole _) (fun _ => 0) 0 [] = .ok [t] ∧
    ¬ t.Safe ((8 + headerLen negativeShard : Nat) : Int) negativeShard.size :=
  ⟨_, negativeShard_scanned, fun h => absurd (h.dims (-2) List.mem_cons_self) (by decide)⟩

/-- A tensor in range is indexed as `scanTensor` has it. -/
theorem Scanned.Checked.scanTensor {t : Scanned} {shard : Nat} {base fsize : Int} (h : t.Checked shard base fsize)
    (hsafe : t.Safe base fsize) (hmax : fsize < 2 ^ 63) :
    ∃ kt, Bind.scanTensor t.shard t.dtype t.shape t.off t.nbytes = some kt ∧ kt.off = t.off ∧ kt.nbytes = t.nbytes := by
  have hoff := h.off_eq
  have hends := hsafe.ends
  refine ⟨_, dif_pos ⟨h.rank, h.known, hsafe.size.symm, ?_, ?_, by omega⟩, rfl, rfl⟩
  · rw [hoff]
    exact wrap64_ge _
  · rw [hoff]
    exact wrap64_lt _

end LlmEngine.Bind.Scan
