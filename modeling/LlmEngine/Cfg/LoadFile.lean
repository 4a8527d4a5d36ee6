/-
# LlmEngine.Cfg.LoadFile — a configuration file (`include/k3/k3_cfg.h`).

`k3_cfg_load_file` reads the file into memory, puts a NUL behind it, and hands the text to the parser and the
tree to the loader.  So a file loads what its text says, in whatever whitespace, escapes and order its members
are written.

* `cfg_file_loads` composes the parser on JSON (`Cfg.JsonRead`) with the two shapes (`Cfg.Shapes`): the file's text
  describes an assignment, and the load is that assignment's.
* `cfg_file_inside`: whatever the file, the parser stays inside it, if it does not end behind a brace or a comma.
* `released_file_loads` is the released model's file.

A number that does not fit a double's conversion is the conversion's business (`Doubles`).
-/
import LlmEngine.Cfg.JsonBounds
import LlmEngine.Cfg.JsonSpell
import LlmEngine.Cfg.Shapes

namespace LlmEngine.Cfg

open LlmEngine.Bind.Scan (blank)
open LlmEngine.Lib.JsonText
open LlmEngine.Lib.LittleEndian
open LlmEngine.Tokenizer (ascii)

variable {D F : Type}

/-- How it fails: an implausible size, a read behind the NUL, or the loader's refusal. -/
inductive FileFail
  | size
  | overread
  | refused (e : CfgFail)

section File

variable (strtod : Bytes → D × Nat) (ops : Doubles D F) (faMax : Int)

/-- `k3_cfg_load_file`, of a file that could be read whole. -/
def k3CfgLoadFile (file : Bytes) : Except FileFail (K3CfgVals F) :=
  if 2 ^ 28 < file.length then .error .size
  else
    match jsonParse strtod file with
    | none => .error .overread
    | some root => (k3CfgLoad ops faMax root).mapError .refused

/-- The document has the assigned values in one of its two shapes, and nothing around them disturbs it. -/
def Describes (a : Assignment D) (root : JVal D) : Prop :=
  (FlatDoc a root ∧ Undisturbed ops faMax a (flatAround root)) ∨
    ∃ txt lin, NestedDoc a root txt lin ∧ Undisturbed ops faMax a (nestedAround root txt lin)

theorem describes_load {a : Assignment D} {root : JVal D} (h : Describes ops faMax a root) :
    k3CfgLoad ops faMax root = described ops faMax a := by
  apply load_of_readings
  rcases h with ⟨hdoc, haround⟩ | ⟨txt, lin, hdoc, haround⟩
  · exact (readings_found_iff ops faMax (flat_find hdoc)).mpr haround
  · exact (readings_found_iff ops faMax (nested_find hdoc)).mpr haround

/-- **A configuration file loads what it says.** -/
theorem cfg_file_loads {num : Number → D} (hnum : ReadsNumbers strtod num) {a : Assignment D} {v : Json}
    (hdoc : Describes ops faMax a (Json.toVal num v)) (hdepth : v.depth ≤ jMaxDepth) (hproper : Json.IsProper v)
    (before : Ws) {behind : Bytes} (hends : Ends behind)
    (hsize : (before.val ++ (v.render ++ behind)).length ≤ 2 ^ 28) :
    k3CfgLoadFile strtod ops faMax (before.val ++ (v.render ++ behind)) = (described ops faMax a).mapError .refused := by
  have hparse : jsonParse strtod (before.val ++ (v.render ++ behind)) = some (Json.toVal num v) :=
    congrArg (Option.map Prod.fst) (jParseVal_reads hnum jMaxDepth v hdepth hproper before behind hends)
  unfold k3CfgLoadFile
  rw [if_neg (Nat.not_lt.mpr hsize), hparse, ← describes_load ops faMax hdoc]

theorem refusal_inside (x : Except CfgFail (K3CfgVals F)) : x.mapError FileFail.refused ≠ .error .overread := by
  cases x with
  | ok c =>
      intro h
      cases h
  | error e =>
      intro h
      cases h

/-- A file that does not end behind an opening brace or a comma is read inside its buffer, whatever is in it. -/
theorem cfg_file_inside {file : Bytes} (h : Closed file) : k3CfgLoadFile strtod ops faMax file ≠ .error .overread := by
  obtain ⟨root, t, hv, -⟩ := jParseVal_inside strtod jMaxDepth file h
  have hparse : jsonParse strtod file = some root := congrArg (Option.map Prod.fst) hv
  unfold k3CfgLoadFile
  rw [hparse]
  split_ifs
  · intro heq
    cases heq
  · exact refusal_inside _

end File

/-! ## The released model's file -/

def spellScalar : JVal Int → Json
  | .num v => .num (whole v)
  | .bool true => .word .true
  | .bool false => .word .false
  | _ => .word .null

/-- A number, a flag or a list of numbers. -/
def spellField : JVal Int → Json
  | .arr kids => .arr Ws.none (itemsOf (kids.map spellScalar))
  | v => spellScalar v

def releasedFlat : Json :=
  .obj blank (spellMembers ((membersOf Key.flatName keys released).map fun e => (e.1, spellField e.2)))

theorem releasedFlat_toVal : Json.toVal (fun n => (strtodWhole n.render).1) releasedFlat = flatOf [] released := by
  rw [flatOf, List.append_nil, releasedFlat]
  rfl

theorem spellScalar_proper (v : JVal Int) : Json.IsProper (spellScalar v) := by
  cases v with
  | num v => exact integer_proper rfl
  | bool b => cases b <;> trivial
  | _ => trivial

theorem spellField_proper (v : JVal Int) : Json.IsProper (spellField v) := by
  cases v with
  | arr kids =>
      refine itemsOf_proper fun u hu => ?_
      obtain ⟨v, -, rfl⟩ := List.mem_map.mp hu
      exact spellScalar_proper v
  | null => exact spellScalar_proper .null
  | bool b => exact spellScalar_proper (.bool b)
  | num v => exact spellScalar_proper (.num v)
  | str s => exact spellScalar_proper (.str s)
  | obj members => exact spellScalar_proper (.obj members)

theorem releasedFlat_proper : Json.IsProper releasedFlat := by
  refine spellMembers_proper fun m hm => ?_
  obtain ⟨e, -, rfl⟩ := List.mem_map.mp hm
  exact spellField_proper e.2

/-- The file is read as the released model. -/
theorem released_file_loads :
    ∃ c, k3CfgLoadFile strtodWhole integers 128 (Ws.none.val ++ (releasedFlat.render ++ [10])) = .ok c ∧
      c.ints .kdaHeadDim = 128 := by
  have hdoc : Describes integers 128 released (Json.toVal (fun n => (strtodWhole n.render).1) releasedFlat) := by
    rw [releasedFlat_toVal]
    exact .inl ⟨flatOf_doc (List.forall_mem_nil _) released, flatOf_undisturbed integers 128 unrelated_nil released⟩
  obtain ⟨c, hc, hdim⟩ := released_described
  refine ⟨c, ?_, hdim⟩
  rw [cfg_file_loads strtodWhole integers 128 strtodWhole_reads hdoc (by decide +kernel) releasedFlat_proper Ws.none
    ends_newline (by decide +kernel), hc]
  rfl

end LlmEngine.Cfg
