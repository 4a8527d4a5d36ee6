/-
# LlmEngine.Models.Qwen3Rows — the rows of the embedding and of the LM head (`src/models/qwen3/qwen3.c`).

`qwen3_decode` reads one row of `token_embd` and, chunk by chunk, all rows of `output` straight from the
container.  It reckons the bytes of a row from the model's width: by the registered format, and four to
an element where no format is registered.  How the rows are stored is said by the tensor's own shape and
type.  Both heads multiply row by row; the kernel for a row is a parameter.

* `Window` is a range of the file; `rowWindow` is where rows are stored, `embdWindow` and `headWindow` where they are
  read.
* `RowsExact` is the promise, logits included: those of the chunks are those of the rows at once, and of the resident
  head.
* `RowOf` compares a tensor with the width, and `RowsFit` says it of both; `rowsExact_iff` is that this is all it takes.
* Chunks: reading splits at any row (`readLogits_splits`), so the loop is the general one of `Lib.Chunks`.

`skewed` is a container with embeddings in half precision, which no registered format reads.
-/
import LlmEngine.Lib.Chunks
import LlmEngine.Models.Qwen3State

namespace LlmEngine.Models.Qwen3

open LlmEngine.Lib
open LlmEngine.Lib.Chunks
open LlmEngine.Lib.LittleEndian
open LlmEngine.Formats
open LlmEngine.Runtime
open LlmEngine.Tensor
open LlmEngine.Tokenizer (ascii)

/-! ## As it is stored -/

/-- A range of the file. -/
structure Window where
  off : Int
  len : Int
  deriving DecidableEq, Repr

/-- The rows of a tensor: all its dimensions but the first. -/
def tensorRows (t : GgufTensor) : Int := exactElems t.shape.tail

/-- The bytes of one. -/
def storedRow (t : GgufTensor) : Int :=
  dimAt t 0 / (engDtypeInfo t.dtype).blockElems * (engDtypeInfo t.dtype).blockBytes

/-- Where `n` rows are stored, from row `r₀` on. -/
def rowWindow (t : GgufTensor) (r₀ n : Int) : Window := ⟨t.fileOff + r₀ * storedRow t, n * storedRow t⟩

/-! ## As it is read -/

/-- `rb` of the embedding. -/
def Layout.rb (l : Layout) : Int := l.rowOr l.embd.dtype (· * 4)

/-- `hrow`, where the head is multiplied. -/
def Layout.hrow (l : Layout) : Int := l.rowOr l.lmHead.dtype (· * 4)

/-- What is read for the embedding of a token. -/
def Layout.embdWindow (l : Layout) (token : Int) : Window := ⟨l.embd.fileOff + token * l.rb, l.rb⟩

/-- The bytes there are for it: `rowbuf` for a registered format, else `x` itself. -/
def EngModel.embdRoom (m : EngModel) : Nat :=
  if (quantRowBytes m.layout.embd.dtype).isSome then m.rowbuf else m.scratch.x * 4

/-- What is read for a chunk of the head. -/
def Layout.headWindow (l : Layout) (r₀ n : Int) : Window := ⟨l.lmHead.fileOff + r₀ * l.hrow, n * l.hrow⟩

section Logits

variable {F : Type} (dot : Bytes → F)

/-- `eng_matmul_quant` or `eng_matmul_f32`: `dot` on each of `n` rows of `row` bytes. -/
def matmulRows (row n : Int) (w : Bytes) : List F :=
  (List.range n.toNat).map fun r => dot ((w.drop (r * row.toNat)).take row.toNat)

/-- The logits of `n` rows, read from storage. -/
def readLogits (f : File) (l : Layout) (r₀ n : Int) : Option (List F) :=
  (storeRead f (l.headWindow r₀ n).off (l.headWindow r₀ n).len).map (matmulRows dot l.hrow n)

/-- The chunk loop; `none` where a read fails. -/
def chunkedLogits (f : File) (l : Layout) (chunk : Int) : Option (List F) :=
  ((chunks chunk l.vocab 0).mapM fun c => readLogits dot f l c.1 c.2).map List.flatten

/-- The head held in memory, multiplied at once. -/
def residentLogits (l : Layout) (y : Bytes) : List F := matmulRows dot l.hrow l.vocab y

/-- The head read from storage and multiplied at once. -/
def oneShotLogits (f : File) (l : Layout) : Option (List F) :=
  (storeRead f l.lmHead.fileOff l.lmNeed).map (residentLogits dot l)

/-- The LM head of `qwen3_decode`. -/
def EngModel.headLogits (f : File) (m : EngModel) : Option (List F) :=
  match m.lmResident with
  | some y => some (residentLogits dot m.layout y)
  | none => chunkedLogits dot f m.layout m.headChunk

end Logits

/-! ## The promise and the condition -/

/-- **Rows are addressed exactly.**  Whatever is read is the row, or the rows, where they are stored; it
fits where it is read to; and chunk by chunk, whatever the chunks, the logits are those of the head
read at once. -/
structure RowsExact (f : File) (m : EngModel) : Prop where
  embd : ∀ token, 0 ≤ token → token < m.layout.vocab →
    token < tensorRows m.layout.embd ∧ m.layout.embdWindow token = rowWindow m.layout.embd token 1 ∧
      (m.layout.embdWindow token).len ≤ m.embdRoom
  head : ∀ chunk, ∀ c ∈ chunks chunk m.layout.vocab 0,
    c.1 + c.2 ≤ tensorRows m.layout.lmHead ∧ m.layout.headWindow c.1 c.2 = rowWindow m.layout.lmHead c.1 c.2
  fits : ∀ c ∈ chunks m.headChunk m.layout.vocab 0, (m.layout.headWindow c.1 c.2).len ≤ m.headbuf
  logits : ∀ {F : Type} (dot : Bytes → F), 0 < m.layout.vocab →
    m.headLogits dot f = oneShotLogits dot f m.layout ∧
      ∀ chunk, 0 < chunk → chunkedLogits dot f m.layout chunk = oneShotLogits dot f m.layout

/-- A stored row is as long as it is reckoned: of `d` elements where its format is registered, else of
`4 * d` bytes. -/
def RowOf (d : Int) (t : GgufTensor) : Prop :=
  if (quantRowBytes t.dtype).isSome then dimAt t 0 = d else storedRow t = d * 4

instance (d : Int) (t : GgufTensor) : Decidable (RowOf d t) :=
  inferInstanceAs (Decidable (if (quantRowBytes t.dtype).isSome then _ else _))

/-- Both tensors have the rows of the vocabulary, as long as they are reckoned, and an element of an
output tensor without a registered format takes no less than four bytes. -/
structure RowsFit (l : Layout) : Prop where
  embdRows : l.vocab ≤ tensorRows l.embd
  headRows : l.vocab ≤ tensorRows l.lmHead
  embd : RowOf l.dModel l.embd
  head : RowOf l.dModel l.lmHead
  room : (quantRowBytes l.lmHead.dtype).isSome ∨ l.dModel * 4 ≤ engDtypeRowBytes l.lmHead.dtype l.dModel

/-! ## Logits do not depend on the chunks -/

/-- A read in two parts. -/
theorem storeRead_split (f : File) {off a b : Int} (ha : 0 ≤ a) (hb : 0 ≤ b) :
    storeRead f off (a + b) =
      (storeRead f off a).bind fun x => (storeRead f (off + a) b).map (x ++ ·) := by
  unfold storeRead
  by_cases ha0 : a = 0
  · subst ha0
    rw [if_pos rfl, Int.zero_add, Int.add_zero, Option.bind_some]
    split_ifs <;> simp
  by_cases hb0 : b = 0
  · subst hb0
    rw [Int.add_zero, if_pos rfl, if_neg ha0]
    split_ifs <;> simp
  rw [if_neg (by omega), if_neg ha0, if_neg hb0]
  by_cases hin : 0 ≤ off ∧ off + (a + b) ≤ f.bytes.length
  · rw [if_pos (by omega), if_pos (by omega), if_pos (by omega), Option.bind_some, Option.map_some,
      Int.toNat_add ha hb, List.take_add, List.drop_drop, Int.toNat_add hin.1 ha]
  · rw [if_neg (by omega)]
    by_cases hfirst : 0 ≤ off ∧ 0 ≤ a ∧ off + a ≤ f.bytes.length
    · rw [if_pos hfirst, if_neg (by omega)]
      rfl
    · rw [if_neg hfirst]
      rfl

theorem storeRead_length {f : File} {off n : Int} {w : Bytes} (h : storeRead f off n = some w) :
    (w.length : Int) = n := by
  unfold storeRead at h
  split_ifs at h with hzero hin
  · obtain rfl := Option.some.inj h
    exact hzero.symm
  · obtain rfl := Option.some.inj h
    rw [List.length_take, List.length_drop]
    omega

section Matmul

variable {F : Type} (dot : Bytes → F)

theorem matmulRows_append {row m n : Int} {x y : Bytes} (hrow : 0 ≤ row) (hm : 0 ≤ m) (hn : 0 ≤ n)
    (hx : (x.length : Int) = m * row) :
    matmulRows dot row (m + n) (x ++ y) = matmulRows dot row m x ++ matmulRows dot row n y := by
  obtain ⟨k, rfl⟩ := Int.eq_ofNat_of_zero_le hrow
  obtain ⟨i, rfl⟩ := Int.eq_ofNat_of_zero_le hm
  obtain ⟨j, rfl⟩ := Int.eq_ofNat_of_zero_le hn
  have hlen : x.length = i * k := by exact_mod_cast hx
  unfold matmulRows
  rw [← Int.natCast_add, Int.toNat_natCast, Int.toNat_natCast, Int.toNat_natCast, Int.toNat_natCast,
    List.range_add, List.map_append, List.map_map]
  congr 1
  · apply List.map_congr_left
    intro r hr
    -- the row ends within `x`
    have hend : (r + 1) * k ≤ i * k := Nat.mul_le_mul_right k (List.mem_range.mp hr)
    rw [Nat.add_mul, Nat.one_mul] at hend
    rw [List.drop_append_of_le_length (by omega), List.take_append_of_le_length]
    rw [List.length_drop]
    omega
  · apply List.map_congr_left
    intro r _
    rw [Function.comp_apply, Nat.add_mul, ← hlen, List.drop_append, List.drop_eq_nil_of_le (by omega),
      List.nil_append]
    congr 3
    omega

/-- Logits of a range of rows are those of its two parts. -/
theorem readLogits_splits (f : File) {l : Layout} (hrow : 0 ≤ l.hrow) : Splits (readLogits dot f l) where
  nil r := by
    unfold readLogits Layout.headWindow storeRead
    rw [Int.zero_mul, if_pos rfl]
    rfl
  split r m n hm hn := by
    unfold readLogits Layout.headWindow
    simp only
    rw [Int.add_mul m, storeRead_split f (mul_nonneg hm hrow) (mul_nonneg hn hrow), Int.add_mul r,
      Int.add_assoc]
    cases hx : storeRead f (l.lmHead.fileOff + r * l.hrow) (m * l.hrow) with
    | none => rfl
    | some x =>
        cases storeRead f (l.lmHead.fileOff + (r * l.hrow + m * l.hrow)) (n * l.hrow) with
        | none => rfl
        | some y =>
            simp only [Option.bind_some, Option.map_some]
            rw [matmulRows_append dot hrow hm hn (storeRead_length hx)]

/-- What the head takes in memory is its rows. -/
theorem Layout.lmNeed_eq (l : Layout) : l.lmNeed = l.vocab * l.hrow := by
  unfold Layout.lmNeed Layout.hrow Layout.rowOr
  rfl

theorem chunkedLogits_eq (f : File) {l : Layout} (hrow : 0 ≤ l.hrow) (hvocab : 0 ≤ l.vocab) {chunk : Int}
    (hchunk : 0 < chunk) : chunkedLogits dot f l chunk = oneShotLogits dot f l := by
  unfold chunkedLogits oneShotLogits
  rw [(readLogits_splits dot f hrow).mapM_chunks hchunk 0 hvocab, l.lmNeed_eq]
  unfold readLogits Layout.headWindow residentLogits
  simp only [Int.sub_zero, Int.zero_mul, Int.add_zero]

end Matmul

/-! ## The length of a row -/

/-- A registered format reckons by the sizes of its type. -/
theorem quantRowBytes_eq {dt : EngDType} {g : Int → Int} (h : quantRowBytes dt = some g) :
    g = blockRowBytes (engDtypeInfo dt).blockElems (engDtypeInfo dt).blockBytes := by
  cases dt <;> first
    | (obtain rfl := Option.some.inj h; rfl)
    | exact absurd h (by simp [quantRowBytes])

section Row

variable {l : Layout} {dt : EngDType} {other : Int → Int}

theorem rowOr_registered (h : (quantRowBytes dt).isSome) : l.rowOr dt other =
    blockRowBytes (engDtypeInfo dt).blockElems (engDtypeInfo dt).blockBytes l.dModel := by
  obtain ⟨g, hg⟩ := Option.isSome_iff_exists.mp h
  unfold Layout.rowOr
  rw [hg, Option.getD_some, quantRowBytes_eq hg]

theorem rowOr_plain (h : ¬ (quantRowBytes dt).isSome) : l.rowOr dt other = other l.dModel := by
  unfold Layout.rowOr
  rw [Option.not_isSome_iff_eq_none.mp h, Option.getD_none]

theorem blockBytes_pos (dt : EngDType) : 0 < (engDtypeInfo dt).blockBytes := by
  cases dt <;> decide

/-- A row is reckoned as it is stored just when the tensor has such rows. -/
theorem rowOf_iff {t : GgufTensor} (ht : TensorIn t) (hd : 0 ≤ l.dModel)
    (hrow : 0 ≤ l.rowOr t.dtype (· * 4)) : l.rowOr t.dtype (· * 4) = storedRow t ↔ RowOf l.dModel t := by
  unfold RowOf
  by_cases hreg : (quantRowBytes t.dtype).isSome
  · have hbb : ((engDtypeInfo t.dtype).blockBytes : Int) ≠ 0 := by
      have := blockBytes_pos t.dtype
      omega
    rw [if_pos hreg]
    rw [rowOr_registered hreg, blockRowBytes_eq hd] at hrow ⊢
    split_ifs at hrow ⊢ with hdvd
    · have hstored : ((engDtypeInfo t.dtype).blockElems : Int) ∣ dimAt t 0 := by
        have hrows := ht.row_dvd
        obtain ⟨ds, hds, hlen, -⟩ := ht.dims
        cases ds with
        | nil => exact absurd hlen (by decide)
        | cons d ds =>
            unfold dimAt
            rw [hds] at hrows ⊢
            exact hrows
      unfold storedRow
      rw [Int.mul_eq_mul_right_iff hbb]
      constructor
      · intro h
        rw [← Int.ediv_mul_cancel hstored, ← h, Int.ediv_mul_cancel hdvd]
      · intro h
        rw [h]
    · exact absurd hrow (by decide)
  · rw [if_neg hreg, rowOr_plain hreg]
    exact eq_comm

end Row

/-- The blocks of a row, where its width is an `int`. -/
theorem rowBlocks_range (dt : EngDType) {cols : Int} (h0 : 0 ≤ cols) (h1 : cols < 2 ^ 31) :
    0 ≤ cols / (engDtypeInfo dt).blockElems * (engDtypeInfo dt).blockBytes ∧
      cols / (engDtypeInfo dt).blockElems * (engDtypeInfo dt).blockBytes ≤ 2 ^ 31 * 292 := by
  have hbb : (engDtypeInfo dt).blockBytes ≤ 292 := by cases dt <;> decide
  have hq0 : 0 ≤ cols / (engDtypeInfo dt).blockElems := Int.ediv_nonneg h0 (Int.natCast_nonneg _)
  have hq : cols / (engDtypeInfo dt).blockElems ≤ cols := Int.ediv_le_self _ h0
  exact ⟨mul_nonneg hq0 (Int.natCast_nonneg _),
    mul_le_mul (by omega) (by omega) (Int.natCast_nonneg _) (by decide)⟩

theorem engDtypeRowBytes_range {dt : EngDType} {cols : Int} (h0 : 0 ≤ cols) (h1 : cols < 2 ^ 31) :
    -1 ≤ engDtypeRowBytes dt cols ∧ engDtypeRowBytes dt cols < 2 ^ 40 := by
  have hextra : (engDtypeInfo dt).rowExtra ≤ 4 := by cases dt <;> decide
  obtain ⟨hlo, hhi⟩ := rowBlocks_range dt h0 h1
  unfold engDtypeRowBytes
  simp only
  split_ifs
  · omega
  · omega
  · have hblocks : wrap64 (cols / (engDtypeInfo dt).blockElems * (engDtypeInfo dt).blockBytes) =
        cols / (engDtypeInfo dt).blockElems * (engDtypeInfo dt).blockBytes :=
      wrap64_of_range (by omega) (by omega)
    rw [hblocks, wrap64_of_range (by omega) (by omega)]
    omega

/-- A row, when the buffers are made. -/
theorem rowOr_range {l : Layout} {dt : EngDType} (h0 : 0 ≤ l.dModel) (h1 : l.dModel < 2 ^ 31) :
    -1 ≤ l.rowOr dt (engDtypeRowBytes dt) ∧ l.rowOr dt (engDtypeRowBytes dt) < 2 ^ 40 := by
  by_cases hreg : (quantRowBytes dt).isSome
  · obtain ⟨hlo, hhi⟩ := rowBlocks_range dt h0 h1
    rw [rowOr_registered hreg, blockRowBytes_eq h0]
    split_ifs <;> omega
  · rw [rowOr_plain hreg]
    exact engDtypeRowBytes_range h0 h1

/-! ## The buffers -/

section Loaded

variable {f : File} {direct threadOk : Bool} {plan : Option EngPlan} {force : Option Bool} {m : EngModel}

theorem headChunk_range {l : Layout} (hvocab : 0 < l.vocab) : 0 < l.headChunk ∧ l.headChunk ≤ l.vocab := by
  unfold Layout.headChunk
  simp only
  split_ifs <;> omega

/-- A chunk is about 16 MB, or one row. -/
theorem headChunk_mul {l : Layout} (hvocab : 0 < l.vocab) (hlo : -1 ≤ l.headRow) (hhi : l.headRow < 2 ^ 40) :
    -2 ^ 24 ≤ l.headChunk * l.headRow ∧ l.headChunk * l.headRow < 2 ^ 40 := by
  obtain ⟨hpos, -⟩ := headChunk_range hvocab
  have hle : l.headChunk ≤ 1 ∨
      l.headChunk ≤ cInt ((16 * 2 ^ 20 : Int).tdiv (if l.headRow > 0 then l.headRow else 1)) := by
    unfold Layout.headChunk
    simp only
    split_ifs <;> omega
  have hint : ∀ v : Int, 0 ≤ v → v ≤ 2 ^ 24 → cInt v = v := fun v h0 h1 =>
    Int.bmod_eq_of_le (by omega) (by omega)
  rcases Int.lt_trichotomy l.headRow 0 with hneg | hzero | hrow
  · have hrow : l.headRow = -1 := by omega
    rw [hrow, if_neg (by decide), show (16 * 2 ^ 20 : Int).tdiv 1 = 2 ^ 24 by decide,
      hint _ (by decide) (by decide)] at hle
    rw [hrow]
    omega
  · rw [hzero]
    omega
  · rw [if_pos hrow, Int.tdiv_eq_ediv_of_nonneg (by decide)] at hle
    have hq0 : 0 ≤ (16 * 2 ^ 20 : Int) / l.headRow := Int.ediv_nonneg (by decide) hrow.le
    have hq1 : (16 * 2 ^ 20 : Int) / l.headRow ≤ 16 * 2 ^ 20 := Int.ediv_le_self _ (by decide)
    rw [hint _ hq0 (by omega)] at hle
    have hprod : (16 * 2 ^ 20 : Int) / l.headRow * l.headRow ≤ 16 * 2 ^ 20 := Int.ediv_mul_le _ hrow.ne'
    have hnn : 0 ≤ l.headChunk * l.headRow := mul_nonneg hpos.le hrow.le
    rcases hle with hone | hmany
    · have := mul_le_mul_of_nonneg_right hone hrow.le
      omega
    · have := mul_le_mul_of_nonneg_right hmany hrow.le
      omega

/-- Of a head with rows, a row is as long as its buffer expects, and the buffer holds a chunk. -/
theorem Loaded.headbuf_eq (h : Loaded f direct threadOk plan force m) (hvocab : 0 < m.layout.vocab) :
    0 ≤ m.layout.headRow ∧ (m.headbuf : Int) = m.headChunk * m.layout.headRow := by
  obtain ⟨hpos, -⟩ := headChunk_range hvocab
  obtain ⟨hlo, hhi⟩ : -1 ≤ m.layout.headRow ∧ m.layout.headRow < 2 ^ 40 :=
    rowOr_range h.buffers.dModel h.ints.dModel.2
  obtain ⟨hmulLo, hmulHi⟩ := headChunk_mul hvocab hlo hhi
  obtain ⟨hsize, heq⟩ := h.headbuf
  have hnn := sizeT_nonneg hsize (by omega)
  refine ⟨?_, ?_⟩
  · by_contra hneg
    have := mul_neg_of_pos_of_neg hpos (not_le.mp hneg)
    omega
  · rw [heq, h.headChunk]
    exact sizeT_of_range hnn (by omega)

theorem Loaded.rowbuf_eq (h : Loaded f direct threadOk plan force m) :
    0 ≤ m.layout.embdRow ∧ (m.rowbuf : Int) = m.layout.embdRow := by
  obtain ⟨hlo, hhi⟩ : -1 ≤ m.layout.embdRow ∧ m.layout.embdRow < 2 ^ 40 :=
    rowOr_range h.buffers.dModel h.ints.dModel.2
  obtain ⟨hsize, heq⟩ := h.rowbuf
  have hnn := sizeT_nonneg hsize (by omega)
  rw [heq]
  exact ⟨hnn, sizeT_of_range hnn (by omega)⟩

/-! ## When rows are addressed exactly -/

/-- The tensors of the embedding and of the head are read. -/
theorem Loaded.tensors (h : Loaded f direct threadOk plan force m) :
    TensorIn m.layout.embd ∧ TensorIn m.layout.lmHead := by
  obtain ⟨g, hopen, hl⟩ := h.opened
  have hlaid := layGguf_laid hl
  exact ⟨ggufOpen_tensors hopen _ (List.mem_of_find?_eq_some hlaid.embd),
    ggufOpen_tensors hopen _ (List.mem_of_find?_eq_some hlaid.lmHead)⟩

theorem embdRow_registered {l : Layout} (hreg : (quantRowBytes l.embd.dtype).isSome) : l.embdRow = l.rb :=
  (rowOr_registered hreg).trans (rowOr_registered hreg).symm

theorem headRow_registered {l : Layout} (hreg : (quantRowBytes l.lmHead.dtype).isSome) : l.headRow = l.hrow :=
  (rowOr_registered hreg).trans (rowOr_registered hreg).symm

/-- The embedding's row always fits. -/
theorem Loaded.embd_fits (h : Loaded f direct threadOk plan force m) :
    0 ≤ m.layout.rb ∧ m.layout.rb ≤ m.embdRoom := by
  obtain ⟨hnn, hbuf⟩ := h.rowbuf_eq
  have hx := h.buffers.x
  have hd := h.buffers.dModel
  unfold EngModel.embdRoom
  by_cases hreg : (quantRowBytes m.layout.embd.dtype).isSome
  · rw [if_pos hreg, hbuf, embdRow_registered hreg]
    rw [embdRow_registered hreg] at hnn
    exact ⟨hnn, le_refl _⟩
  · rw [if_neg hreg, Layout.rb, rowOr_plain hreg]
    push_cast
    omega

/-- The rows of the head are not of negative length. -/
theorem Loaded.hrow_nonneg (h : Loaded f direct threadOk plan force m) (hvocab : 0 < m.layout.vocab) :
    0 ≤ m.layout.hrow := by
  by_cases hreg : (quantRowBytes m.layout.lmHead.dtype).isSome
  · rw [← headRow_registered hreg]
    exact (h.headbuf_eq hvocab).1
  · have hd := h.buffers.dModel
    rw [Layout.hrow, rowOr_plain hreg]
    omega

/-- A chunk fits when its rows are no longer than the buffer's. -/
theorem hrow_le_iff {l : Layout} : l.hrow ≤ l.headRow ↔ (quantRowBytes l.lmHead.dtype).isSome ∨
    l.dModel * 4 ≤ engDtypeRowBytes l.lmHead.dtype l.dModel := by
  by_cases hreg : (quantRowBytes l.lmHead.dtype).isSome
  · rw [headRow_registered hreg]
    exact ⟨fun _ => .inl hreg, fun _ => le_refl _⟩
  · rw [Layout.hrow, Layout.headRow, rowOr_plain hreg, rowOr_plain hreg]
    exact ⟨.inr, fun h => h.resolve_left hreg⟩

/-- The logits are those of the head at once, in any case. -/
theorem Loaded.logits (h : Loaded f direct threadOk plan force m) {F : Type} (dot : Bytes → F)
    (hvocab : 0 < m.layout.vocab) : m.headLogits dot f = oneShotLogits dot f m.layout ∧
      ∀ chunk, 0 < chunk → chunkedLogits dot f m.layout chunk = oneShotLogits dot f m.layout := by
  have hall : ∀ chunk, 0 < chunk → chunkedLogits dot f m.layout chunk = oneShotLogits dot f m.layout :=
    fun chunk => chunkedLogits_eq dot f (h.hrow_nonneg hvocab) h.buffers.vocab
  refine ⟨?_, hall⟩
  unfold EngModel.headLogits
  cases hres : m.lmResident with
  | none =>
      apply hall
      rw [h.headChunk]
      exact (headChunk_range hvocab).1
  | some y =>
      unfold oneShotLogits
      rw [h.lmResident y hres, Option.map_some]

/-- **When the rows are addressed exactly**: where there is no token, or both tensors have rows that fit. -/
theorem rowsExact_iff (hload : qwen3Load f direct threadOk plan force = .ok m) :
    RowsExact f m ↔ m.layout.vocab = 0 ∨ RowsFit m.layout := by
  have h := qwen3Load_ok hload
  obtain ⟨hembd, hhead⟩ := h.tensors
  have hd := h.buffers.dModel
  rcases Int.lt_or_eq_of_le h.buffers.vocab with hvocab | hnone
  · have hrow := h.hrow_nonneg hvocab
    obtain ⟨hbufRow, hbuf⟩ := h.headbuf_eq hvocab
    obtain ⟨hchunk, hchunkLe⟩ := headChunk_range hvocab
    rw [← h.headChunk] at hchunk hchunkLe
    have hrb := rowOf_iff hembd hd h.embd_fits.1
    have hhrow := rowOf_iff hhead hd hrow
    constructor
    · intro hex
      right
      -- the first token tells the row size, the last the number of rows
      have hfirst := hex.embd 0 (le_refl 0) hvocab
      have hlast := hex.embd (m.layout.vocab - 1) (by omega) (by omega)
      have hall := hex.head m.layout.vocab (0, m.layout.vocab) (by
        rw [chunks_single hvocab (by omega), Int.sub_zero]
        exact List.mem_singleton_self _)
      -- a whole chunk fits the buffer exactly when one row does
      have hchunk₁ := hex.fits (0, m.headChunk) (by
        rw [chunks_of_lt hvocab hchunk, if_neg (by omega)]
        exact List.mem_cons_self)
      refine ⟨by omega, by simpa using hall.1, hrb.mp ?_, hhrow.mp ?_, hrow_le_iff.mp ?_⟩
      · have := congrArg Window.len hfirst.2.1
        simp only [Layout.embdWindow, rowWindow, Int.one_mul] at this
        exact this
      · have := congrArg Window.len hall.2
        unfold Layout.headWindow rowWindow at this
        exact mul_left_cancel₀ hvocab.ne' this
      · unfold Layout.headWindow at hchunk₁
        simp only at hchunk₁
        rw [hbuf] at hchunk₁
        exact le_of_mul_le_mul_left hchunk₁ hchunk
    · rintro (hzero | hfit)
      · omega
      · have hrbEq : m.layout.rb = storedRow m.layout.embd := hrb.mpr hfit.embd
        have hhrowEq : m.layout.hrow = storedRow m.layout.lmHead := hhrow.mpr hfit.head
        refine ⟨fun token h0 hlt => ⟨?_, ?_, ?_⟩, fun chunk c hc => ⟨?_, ?_⟩, fun c hc => ?_,
          fun dot _ => h.logits dot hvocab⟩
        · have := hfit.embdRows
          omega
        · rw [Layout.embdWindow, rowWindow, hrbEq, Int.one_mul]
        · exact h.embd_fits.2
        · have := mem_chunks hc
          have := hfit.headRows
          omega
        · rw [Layout.headWindow, rowWindow, hhrowEq]
        · have hin := mem_chunks hc
          rw [hbuf]
          calc c.2 * m.layout.hrow ≤ m.headChunk * m.layout.hrow := mul_le_mul_of_nonneg_right hin.2.2.1 hrow
            _ ≤ m.headChunk * m.layout.headRow :=
                mul_le_mul_of_nonneg_left (hrow_le_iff.mpr hfit.room) hchunk.le
  · refine ⟨fun _ => .inl hnone.symm, fun _ => ⟨fun token h0 hlt => by omega, fun chunk c hc => ?_,
      fun c hc => ?_, fun _ hpos => by omega⟩⟩
    · rw [chunks_of_ge hnone.ge] at hc
      exact absurd hc List.not_mem_nil
    · rw [chunks_of_ge hnone.ge] at hc
      exact absurd hc List.not_mem_nil

end Loaded

/-- The rows of the container of one layer, two of one float each. -/
theorem oneLayer_rows : ∃ m, qwen3Load oneLayer false true none none = .ok m ∧ RowsExact oneLayer m := by
  obtain ⟨m, hload, -⟩ := oneLayer_loaded
  refine ⟨m, hload, (rowsExact_iff hload).mpr (.inr ?_)⟩
  rw [← Except.ok.inj (oneLayer_laid.symm.trans (qwen3Load_layout hload))]
  exact ⟨by decide +kernel, by decide +kernel, by decide +kernel, by decide +kernel, by decide +kernel⟩

/-! ## A container with half-precision embeddings -/

def tensorEntry (ty : Nat) (name : Bytes) (shape : List Nat) (off : Nat) : Bytes :=
  encStr name ++ (put 4 shape.length ++ (shape.flatMap (put 8) ++ (put 4 ty ++ put 8 off)))

/-- The container of one layer, with its two embeddings of one element stored as `F16`, and a query
projection of two rows for its one head of one dimension. -/
def skewed : File where
  bytes :=
    ggufMagic ++ put 4 3 ++ put 8 14 ++ put 8 7 ++
      (u32Entry "qwen3.block_count" 1 ++ u32Entry "qwen3.embedding_length" 1 ++
        u32Entry "qwen3.attention.head_count" 1 ++ u32Entry "qwen3.attention.head_count_kv" 1 ++
        u32Entry "qwen3.attention.key_length" 1 ++ u32Entry "qwen3.feed_forward_length" 1 ++
        u32Entry "qwen3.context_length" 8) ++
      (tensorEntry 1 (ascii "token_embd.weight") [1, 2] 0 ++
        tensorEntry 0 (ascii "output.weight") [1, 2] 8 ++ tensorEntry 0 (ascii "output_norm.weight") [1] 16) ++
      slotNames.zipIdx.flatMap (fun x => tensorEntry 0 (layerPrefix 0 ++ x.1 ++ ascii ".weight")
        (if x.2 = 1 then [1, 2] else [1]) (20 + 8 * x.2)) ++
      List.replicate 128 0
  len_lt := by decide +kernel

def skewedLayout : Layout where
  nLayers := 1
  dModel := 1
  nHeads := 1
  nKv := 1
  headDim := 1
  dFf := 1
  vocab := 2
  ctxMax := 8
  embd := ⟨ascii "token_embd.weight", [1, 2], 1, .f16, 0, 1056, 4⟩
  lmHead := f32At (ascii "output.weight") [1, 2] 8 8
  outNorm := f32At (ascii "output_norm.weight") [1] 16 4
  blocks := [⟨1076, 84⟩]
  slots := [slotNames.zipIdx.map fun x =>
    if x.2 = 1 then ⟨8 * x.2, 8, .f32, 1, 2⟩ else ⟨8 * x.2, 4, .f32, 1, 1⟩]

theorem skewed_parsed : skewed.bytes.length = 1182 ∧
    (attempt skewed (Gguf.zero skewed.bytes.length) skewed.bytes.length).1 = .ok ∧
    (layGguf (attempt skewed (Gguf.zero skewed.bytes.length) skewed.bytes.length).2).toOption =
      some skewedLayout := by
  decide +kernel

theorem skewed_finished : (skewedLayout.finish skewed false true none none).isSome := by
  decide +kernel

theorem skewed_loaded : ∃ m, qwen3Load skewed false true none none = .ok m ∧ m.layout = skewedLayout := by
  obtain ⟨hlen, hok, hlay⟩ := skewed_parsed
  obtain ⟨m, hm⟩ := Option.isSome_iff_exists.mp skewed_finished
  have hopen : ggufOpen skewed =
      some (attempt skewed (Gguf.zero skewed.bytes.length) skewed.bytes.length).2 := by
    apply ggufOpen_small
    · omega
    · rw [hlen]
      unfold hdrFirst
      omega
    · exact hok
  have hl : qwen3Layout skewed = .ok skewedLayout := by
    rw [qwen3Layout, hopen]
    exact toOption_eq_some hlay
  have hload : qwen3Load skewed false true none none = .ok m := qwen3Load_eq_ok.mpr ⟨skewedLayout, hl, hm⟩
  exact ⟨m, hload, (Except.ok.inj (hl.symm.trans (qwen3Load_layout hload))).symm⟩

/-- For token 1 the four bytes from byte 1060 on are read, where the two from byte 1058 on are stored. -/
theorem skewed_rows_missed : ∃ m, qwen3Load skewed false true none none = .ok m ∧
    m.layout.embdWindow 1 = ⟨1060, 4⟩ ∧ rowWindow m.layout.embd 1 1 = ⟨1058, 2⟩ ∧ ¬ RowsExact skewed m := by
  obtain ⟨m, hload, hl⟩ := skewed_loaded
  have hread : m.layout.embdWindow 1 = ⟨1060, 4⟩ := by
    rw [hl]
    decide +kernel
  have hstored : rowWindow m.layout.embd 1 1 = ⟨1058, 2⟩ := by
    rw [hl]
    decide +kernel
  refine ⟨m, hload, hread, hstored, fun hex => ?_⟩
  have hlt : 1 < m.layout.vocab := by
    rw [hl]
    decide
  have hsame := (hex.embd 1 (by decide) hlt).2.1
  rw [hread, hstored] at hsame
  exact absurd hsame (by decide)

end LlmEngine.Models.Qwen3
