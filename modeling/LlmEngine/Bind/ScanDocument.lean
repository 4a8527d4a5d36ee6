/-
# LlmEngine.Bind.ScanDocument — a shard scanned (`src/io/k3_st.c`).

`scan_shard` on a file that holds the serialisation of a list of tensors pushes these, in order.  Two
serialisations are read otherwise: a tensor named `__metadata__` is skipped, and an extra member whose
name is a field's up to an escaped NUL is taken for the field.

* `finish_spec`: the checks pass for the fields a description sets, and what is pushed is the tensor described.
* `headerFrom_spec` is the induction over the entries; one is read by `entryFrom_spec` (`Bind.ScanEntry`), a
  `__metadata__` object is skipped.
* `scanShard_document` puts the length, the header and the data around it.

At the end are three shards.  The first is read as it says, with nested values and escaped names in it; the
others are the two that are read otherwise.
-/
import LlmEngine.Bind.ScanEntry
import Mathlib.Algebra.BigOperators.Ring.Finset
import Mathlib.Data.List.TakeWhile

namespace LlmEngine.Bind.Scan

open LlmEngine.Lib
open LlmEngine.Lib.JsonText
open LlmEngine.Lib.LittleEndian
open LlmEngine.Tokenizer (ascii)

variable {m : Nat → UInt8} {fin p : Nat} {t : Bytes}

/-! ## The header -/

section Header

variable {base fsize : Nat} {extra : Bytes → Prop}

/-- A well-formed tensor passes the checks. -/
theorem finish_spec (hmax : fsize < 2 ^ 63) (shard : Nat) (s : TensorSpec base fsize) :
    finish s.name shard base fsize ⟨some s.dtype, s.sizes, some ((s.start : Int), (s.stop : Int))⟩ =
      .ok (s.pushed shard) := by
  have hspan := s.span
  have hinside := s.inside
  have hsize := s.size_nonneg
  have hprod : s.sizes.prod = ((s.shape.prod : Nat) : Int) := (Nat.cast_list_prod s.shape).symm
  unfold finish
  simp only
  rw [numel_wrap, one_mul, hprod, wrap64_of_range (i := (base : Int) + s.start) (by omega) (by omega),
    wrap64_of_range (i := (s.stop : Int) - s.start) (by omega) (by omega),
    wrap64_of_range (i := ((s.shape.prod : Nat) : Int) * k3StElemsize s.dtype) (by omega) (by omega),
    wrap64_of_range (i := (base : Int) + s.stop) (by omega) (by omega), if_neg (by omega), if_neg (by omega)]
  rfl

/-- The fields after a whole entry are the tensor's. -/
theorem Entry.fields_eq {s : TensorSpec base fsize} {ms : Members} (h : Entry extra s ms) :
    (memberNames ms).foldl s.setField ⟨none, [], none⟩ =
      ⟨some s.dtype, s.sizes, some ((s.start : Int), (s.stop : Int))⟩ := by
  have hmem : ∀ n ∈ fieldNames, n ∈ memberNames ms := fun n hn =>
    List.count_pos_iff.mp (by rw [h.fields n hn]; exact Nat.one_pos)
  have hdtype := setFields_dtype s ⟨none, [], none⟩ (memberNames ms)
  have hshape := setFields_shape s ⟨none, [], none⟩ (memberNames ms)
  have hoffsets := setFields_offsets s ⟨none, [], none⟩ (memberNames ms)
  rw [if_pos (hmem _ (by decide))] at hdtype hoffsets
  rw [h.fields _ (by decide), List.replicate_one, List.flatten_singleton, List.nil_append] at hshape
  cases hfl : (memberNames ms).foldl s.setField ⟨none, [], none⟩ with
  | mk dtype shape offsets =>
      rw [hfl] at hdtype hshape hoffsets
      simp only at hdtype hshape hoffsets
      rw [hdtype, hshape, hoffsets]

/-- A name that is not the metadata's is not taken for it. -/
theorem not_metadata {base fsize : Nat} {s : TensorSpec base fsize} (h : s.name ≠ ascii "__metadata__") :
    strcmpEq s.name (ascii "__metadata__") = false := by
  have hname : cStr s.name = s.name := by
    unfold cStr
    rw [List.takeWhile_eq_self_iff]
    intro b hb
    exact decide_eq_true fun he => s.nul_free (he ▸ hb)
  rw [strcmpEq, beq_eq_false_iff_ne, hname]
  exact h

/-- **The loop over the header pushes the tensors described, in order.** -/
theorem headerFrom_spec (hextra : ∀ n, extra n → cStr n ∉ fieldNames) (hmax : fsize < 2 ^ 63) (shard : Nat)
    {ms : Members} {specs : List (TensorSpec base fsize)} (hh : Header extra ms specs) :
    ∀ n p first b, (∀ s ∈ specs, s.name ≠ ascii "__metadata__") → Members.depth ms < 2 ^ 31 →
      (Members.render first ms).length < n → Ahead m fin p (Members.render first ms ++ 125 :: t) →
      headerFrom m fin shard base fsize n p first b = .ok (b ++ specs.map (TensorSpec.pushed shard)) := by
  induction hh with
  | nil =>
      intro n p first b _ _ hn h
      obtain ⟨k, rfl⟩ : ∃ k, n = k + 1 := ⟨n - 1, by omega⟩
      rw [headerFrom, if_pos (close_spec h).1, List.map_nil, List.append_nil]
  | metadata before key colon0 colon1 v after others specs hkey _ ih =>
      intro n p first b hnames hdepth hn h
      rw [Members.depth] at hdepth
      rw [members_text] at h
      have hshort : key.length < 512 := Nat.lt_of_le_of_lt (length_le_decode key) (by rw [hkey]; decide)
      obtain ⟨hmore, q0, q1, q2, hsep, hnot, hname, hcolon, h2⟩ := member_spec hshort h
      obtain ⟨c, u, hstop, hnext⟩ := members_stop others t
      rw [hnext] at h2
      obtain ⟨q3, hskip, h3⟩ := skipValue_spec hstop (by omega) h2
      rw [← hnext] at h3
      obtain ⟨k, rfl, hless⟩ := rounds_left hn
      rw [scanned_name hkey (by decide +kernel)] at hname
      rw [headerFrom, if_neg (by rw [hmore]; decide), hsep]
      simp only
      rw [if_neg (by rw [hnot]; decide), hname]
      simp only
      rw [hcolon]
      simp only
      rw [if_pos (by decide), hskip]
      exact ih k q3 false b hnames (by omega) hless h3
  | tensor before key colon0 colon1 pad ms after others s specs hlow hkey hentry _ ih =>
      intro n p first b hnames hdepth hn h
      rw [Members.depth, Json.depth] at hdepth
      rw [members_text, Json.render] at h
      have hscan : scanned key = s.name := by rw [scanned_eq hlow, hkey]
      have hshort : key.length < 512 := by
        have hle := s.name_le
        rw [← hscan, scanned_length] at hle
        exact Nat.lt_succ_of_le hle
      obtain ⟨hmore, q0, q1, q2, hsep, hnot, hname, hcolon, hobject⟩ := member_spec hshort h
      simp only [List.cons_append, List.append_assoc, List.nil_append] at hobject
      obtain ⟨q3, hopen, h3⟩ := lit_spec (by decide) hobject
      have hlen := congrArg List.length h3
      simp only [rest_length, List.length_append, List.length_cons] at hlen
      obtain ⟨q4, hfields, h4⟩ := entryFrom_spec hextra hmax s s.name ms (fin + 1 - q3) q3 true ⟨none, [], none⟩
        hentry.members (by omega) (by rw [hentry.fields _ (by decide)]; simpa using s.rank) (by omega)
        ((Ahead.of_rest h3).ws (ws_low pad))
      obtain ⟨k, rfl, hless⟩ := rounds_left hn
      rw [hentry.fields_eq] at hfields
      rw [hscan] at hname
      rw [headerFrom, if_neg (by rw [hmore]; decide), hsep]
      simp only
      rw [if_neg (by rw [hnot]; decide), hname]
      simp only
      rw [hcolon]
      simp only
      rw [not_metadata (hnames s List.mem_cons_self), if_neg (by decide), hopen]
      simp only
      rw [hfields]
      simp only
      rw [finish_spec hmax shard s]
      simp only
      rw [ih k q4 false (b ++ [s.pushed shard]) (fun x hx => hnames x (List.mem_cons_of_mem s hx)) (by omega) hless
        ((Ahead.of_rest h4).ws (ws_low after)), List.append_assoc]
      rfl

end Header

/-! ## The file -/

/-- The text of a header: an object, and whitespace around it. -/
def headerText (lead pad : Ws) (ms : Members) (trail : Ws) : Bytes :=
  lead.val ++ ((Json.obj pad ms).render ++ trail.val)

/-- The scan of a header that holds the text. -/
theorem scanHeader_spec {extra : Bytes → Prop} (hextra : ∀ n, extra n → cStr n ∉ fieldNames) {base fsize : Nat}
    (hmax : fsize < 2 ^ 63) (shard : Nat) {lead pad trail : Ws} {ms : Members} {specs : List (TensorSpec base fsize)}
    (hh : Header extra ms specs) (hnames : ∀ s ∈ specs, s.name ≠ ascii "__metadata__") (hdepth : Members.depth ms < 2 ^ 31)
    (htext : rest m fin 0 = headerText lead pad ms trail) (b : List Scanned) :
    scanHeader m fin shard base fsize b = .ok (b ++ specs.map (TensorSpec.pushed shard)) := by
  have hobject := (Ahead.of_rest htext).ws (ws_low lead)
  rw [Json.render] at hobject
  simp only [List.cons_append, List.append_assoc, List.nil_append] at hobject
  obtain ⟨q, hopen, hrest⟩ := lit_spec (by decide) hobject
  have hlen := congrArg List.length hrest
  simp only [rest_length, List.length_append, List.length_cons] at hlen
  rw [scanHeader, hopen]
  exact headerFrom_spec hextra hmax shard hh (fin + 1 - q) q true b hnames hdepth (by omega)
    ((Ahead.of_rest hrest).ws (ws_low pad))

/-- **A header is read exactly.**  A file that holds the serialisation of a list of tensors, none named
`__metadata__` and no extra name a field's up to a NUL, is accepted, and its tensors are pushed in order.  On
every file the scan ends, and nothing behind a header is looked at. -/
theorem scanShard_document (f : FileBytes) (k8 k : Kernel f.size) (heap : Mem) (shard : Nat) (b : List Scanned)
    (lead pad trail : Ws) (ms : Members) (data : Bytes)
    (specs : List (TensorSpec (8 + (headerText lead pad ms trail).length) f.size)) (h8 : k8.serve 0 0 8 = 8)
    (hfile : rest f.byte f.size 0 = shardBytes (headerText lead pad ms trail) data)
    (hh : Header (fun n => cStr n ∉ fieldNames) ms specs) (hnames : ∀ s ∈ specs, s.name ≠ ascii "__metadata__")
    (hdepth : Members.depth ms < 2 ^ 31) :
    scanShard f k8 k heap shard b = .ok (b ++ specs.map (TensorSpec.pushed shard)) ∧
      (∀ (g : FileBytes) (k8' k' : Kernel g.size) (heap' : Mem) (shard' : Nat) (b' : List Scanned),
        scanShard g k8' k' heap' shard' b' ≠ .error .hung) ∧
      ∀ (m m' : Nat → UInt8) (hlen shard' : Nat) (base fsize : Int) (b' : List Scanned), (∀ i < hlen, m i = m' i) →
        scanHeader m hlen shard' base fsize b' = scanHeader m' hlen shard' base fsize b' := by
  refine ⟨?_, scanShard_ends, fun m m' hlen shard' base fsize b' h => scanHeader_local h shard' base fsize b'⟩
  have hpos : 0 < (headerText lead pad ms trail).length := by
    simp only [headerText, Json.render, List.length_append, List.length_cons]
    omega
  have hsize := f.bounded
  have htotal := congrArg List.length hfile
  have hput : (put 8 (headerText lead pad ms trail).length).length = 8 := put_length _ _
  rw [rest_length, shardBytes, List.length_append, List.length_append, hput, Nat.sub_zero] at htotal
  rw [shardBytes, List.append_assoc] at hfile
  have hlen : headerLen f = (headerText lead pad ms trail).length := by
    have height := rest_part hfile
    rw [hput] at height
    have hbytes : (List.range 8).map f.byte = put 8 (headerText lead pad ms trail).length := by
      rw [← height, rest, Nat.sub_zero]
      refine List.map_congr_left fun i _ => ?_
      simp only [Nat.zero_add]
    rw [headerLen, hbytes, get_put, Nat.mod_eq_of_lt (by omega)]
  have hbody := rest_append hfile
  rw [hput] at hbody
  rw [scanShard_eq f k heap shard b h8 (by omega) (by omega), hlen]
  exact scanHeader_spec (fun n hn => hn) hsize shard hh hnames hdepth (rest_part hbody) b

/-! ## Three shards -/

/-- A string of bytes that need no escape. -/
def rawStr (s : Bytes) : JStr :=
  s.filterMap fun b => if h : 32 ≤ b ∧ b ≠ 34 ∧ b ≠ 92 then some (.raw ⟨b, h⟩) else none

/-- A number of one digit. -/
def digit (d : Fin 10) : Number where
  neg := false
  digits := ⟨[UInt8.ofNat (48 + d.val)], List.cons_ne_nil _ _, by revert d; unfold IsDigit; decide +kernel⟩
  tail := ⟨[], nofun, nofun⟩

/-- An array of digits. -/
def digitItems : List (Fin 10) → Items
  | [] => .nil
  | d :: ds => .cons Ws.none (.num (digit d)) Ws.none (digitItems ds)

/-- A member without whitespace, before others. -/
def member (key : JStr) (v : Json) (others : Members) : Members := .cons Ws.none key Ws.none Ws.none v Ws.none others

/-- The entry of a two by two tensor of bytes, with an extra member behind its fields. -/
def squareEntry (key : JStr) (v : Json) : Members :=
  member (rawStr (ascii "data_offsets")) (.arr Ws.none (digitItems [0, 4]))
    (member (rawStr (ascii "shape")) (.arr Ws.none (digitItems [2, 2]))
      (member (rawStr (ascii "dtype")) (.str (rawStr (ascii "U8"))) (member key v .nil)))

/-- That tensor. -/
def square (name : Bytes) {base fsize : Nat} (hname : 0 ∉ name ∧ name.length ≤ 511) (h : base + 4 ≤ fsize) :
    TensorSpec base fsize where
  name := name
  dtype := .u8
  shape := [2, 2]
  start := 0
  stop := 4
  nul_free := hname.1
  name_le := hname.2
  known := rfl
  rank := by decide
  dims := by decide
  span := rfl
  inside := h

theorem squareEntry_describes {extra : Bytes → Prop} {name : Bytes} {base fsize : Nat}
    (hname : 0 ∉ name ∧ name.length ≤ 511) (h : base + 4 ≤ fsize) {key : JStr} (v : Json)
    (hkey : JStr.decode key ∉ fieldNames) (hextra : extra (JStr.decode key)) (hlen : (JStr.decode key).length < 64) :
    Entry extra (square name hname h) (squareEntry key v) := by
  constructor
  · intro e he
    simp only [squareEntry, member, Members.toList, List.mem_cons, List.not_mem_nil, or_false] at he
    rcases he with rfl | rfl | rfl | rfl
    · exact .offsets _ _ _ (by decide +kernel) (show Items.ints? (digitItems [0, 4]) = some [0, 4] by decide +kernel)
    · exact .shape _ _ _ (by decide +kernel) (show Items.ints? (digitItems [2, 2]) = some [2, 2] by decide +kernel)
    · exact .dtype _ _ (by decide +kernel)
        (show some (ascii "U8") = some (JStr.decode (rawStr (ascii "U8"))) by decide +kernel)
    · exact .extra _ _ hkey hextra hlen
  · have hnames : memberNames (squareEntry key v) = [ascii "data_offsets", ascii "shape", ascii "dtype"] ++ [JStr.decode key] :=
      rfl
    intro n hn
    rw [hnames, List.count_append, List.count_singleton, if_neg]
    · revert n
      decide +kernel
    · rw [beq_iff_eq]
      rintro rfl
      exact hkey hn

/-- One space. -/
def blank : Ws := ⟨[32], fun _ hb => .inl (List.mem_singleton.mp hb)⟩

/-- Metadata with brackets and quotes in a string, a name with an escape, and an extra member that nests. -/
def nestedMembers : Members :=
  .cons blank (rawStr (ascii "__metadata__")) blank blank
    (.obj blank (member (rawStr (ascii "a")) (.str [.esc .quote, .esc .backslash, .raw ⟨125, by decide⟩]) .nil)) blank
    (member [.unicode ⟨0, false⟩ ⟨0, false⟩ ⟨7, false⟩ ⟨7, false⟩]
      (.obj blank (squareEntry (rawStr (ascii "x"))
        (.arr blank (.cons blank (.obj Ws.none (member [.esc .quote] (.str (rawStr (ascii "]"))) .nil)) blank .nil)))) .nil)

/-- A tensor named as the metadata are. -/
def reservedMembers : Members :=
  member (rawStr (ascii "__metadata__")) (.obj Ws.none (squareEntry (rawStr (ascii "x")) (.word .null))) .nil

/-- An extra member whose name is `shape` and an escaped NUL. -/
def nulMembers : Members :=
  member (rawStr (ascii "w")) (.obj Ws.none (squareEntry
    (rawStr (ascii "shape") ++ [.unicode ⟨0, false⟩ ⟨0, false⟩ ⟨0, false⟩ ⟨0, false⟩]) (.arr Ws.none (digitItems [1])))) .nil

/-- A shard of the header and four bytes. -/
def shardOf (ms : Members) (h : (shardBytes (headerText Ws.none Ws.none ms Ws.none) [1, 2, 3, 4]).length < 2 ^ 63) :
    FileBytes :=
  fileOf (shardBytes (headerText Ws.none Ws.none ms Ws.none) [1, 2, 3, 4]) h

def nestedShard : FileBytes := shardOf nestedMembers (by decide +kernel)

def reservedShard : FileBytes := shardOf reservedMembers (by decide +kernel)

def nulShard : FileBytes := shardOf nulMembers (by decide +kernel)

def nestedSquare : TensorSpec (8 + (headerText Ws.none Ws.none nestedMembers Ws.none).length) nestedShard.size :=
  square (ascii "w") (by decide) (by decide +kernel)

def reservedSquare : TensorSpec (8 + (headerText Ws.none Ws.none reservedMembers Ws.none).length) reservedShard.size :=
  square (ascii "__metadata__") (by decide) (by decide +kernel)

def nulSquare : TensorSpec (8 + (headerText Ws.none Ws.none nulMembers Ws.none).length) nulShard.size :=
  square (ascii "w") (by decide) (by decide +kernel)

/-- The first shard is read exactly. -/
theorem nestedShard_document :
    scanShard nestedShard (.whole _) (.whole _) (fun _ => 0) 0 [] = .ok [nestedSquare.pushed 0] := by
  have hentry : Header (fun n => cStr n ∉ fieldNames) nestedMembers [nestedSquare] := by
    refine .metadata _ _ _ _ _ _ _ _ (by decide +kernel) (.tensor _ _ _ _ _ _ _ _ _ _ ?_ (by decide +kernel) ?_ .nil)
    · intro c hc
      rw [List.mem_singleton.mp hc]
      show codeUnit _ _ _ _ < 128
      decide
    · exact squareEntry_describes _ _ _ (by decide +kernel) (by decide +kernel) (by decide +kernel)
  exact (scanShard_document nestedShard (.whole _) (.whole _) (fun _ => 0) 0 [] Ws.none Ws.none Ws.none nestedMembers
    [1, 2, 3, 4] [nestedSquare] (by decide +kernel) (by decide +kernel) hentry (by decide +kernel) (by decide +kernel)).1

theorem raw_low (s : Bytes) : ∀ c ∈ rawStr s, Low c := by
  intro c hc
  obtain ⟨b, -, hb⟩ := List.mem_filterMap.mp hc
  split_ifs at hb
  cases hb
  trivial

theorem reservedShard_scanned :
    scanShard reservedShard (.whole _) (.whole _) (fun _ => 0) 0 [] = .ok [] := by
  rw [scanShard_eq reservedShard (.whole _) _ 0 [] (by decide +kernel) (by decide +kernel) (by decide +kernel)]
  decide +kernel

theorem nulShard_scanned :
    scanShard nulShard (.whole _) (.whole _) (fun _ => 0) 0 [] = .ok [{ nulSquare.pushed 0 with shape := [2, 2, 1] }] := by
  rw [scanShard_eq nulShard (.whole _) _ 0 [] (by decide +kernel) (by decide +kernel) (by decide +kernel)]
  decide +kernel

/-- The tensor of the second is skipped, and that of the third gets a dimension more: neither shard gives the
tensor it describes. -/
theorem reserved_nul_misread :
    (rest reservedShard.byte reservedShard.size 0 =
          shardBytes (headerText Ws.none Ws.none reservedMembers Ws.none) [1, 2, 3, 4] ∧
        Header (fun _ => True) reservedMembers [reservedSquare] ∧
        scanShard reservedShard (.whole _) (.whole _) (fun _ => 0) 0 [] ≠ .ok [reservedSquare.pushed 0]) ∧
      rest nulShard.byte nulShard.size 0 = shardBytes (headerText Ws.none Ws.none nulMembers Ws.none) [1, 2, 3, 4] ∧
        Header (fun _ => True) nulMembers [nulSquare] ∧
        scanShard nulShard (.whole _) (.whole _) (fun _ => 0) 0 [] ≠ .ok [nulSquare.pushed 0] := by
  refine ⟨⟨by decide +kernel, ?_, ?_⟩, by decide +kernel, ?_, ?_⟩
  · exact .tensor _ _ _ _ _ _ _ _ _ _ (raw_low _) (by decide +kernel)
      (squareEntry_describes _ _ _ (by decide +kernel) trivial (by decide +kernel)) .nil
  · rw [reservedShard_scanned]
    decide +kernel
  · exact .tensor _ _ _ _ _ _ _ _ _ _ (raw_low _) (by decide +kernel)
      (squareEntry_describes _ _ _ (by decide +kernel) trivial (by decide +kernel)) .nil
  · rw [nulShard_scanned]
    decide +kernel

end LlmEngine.Bind.Scan
