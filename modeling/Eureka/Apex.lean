import Mathlib
import Eureka.BitPlanes

/-! The parts of the apex engine that the repository links against but does not hold:
the bit slicer and the compiled scan. Each is a parameter that carries what its callers
rely on, with one instance showing that the requirement can be met. -/
namespace Eureka.Apex
open WordBytes BitPlanes

/-- `BitSlicer::slice_n(buf, 64, planes, 64)`. -/
structure BitSlicer where
  sliceN : Lanes → Lanes
  sliceN_bit : ∀ (buf : Lanes) {b i : ℕ} (_ : b < 64) (_ : i < 64),
    (sliceN buf)[b].getLsbD i = buf[i].getLsbD b

theorem BitSlicer.sliceN_eq (slicer : BitSlicer) (buf : Lanes) :
    slicer.sliceN buf = transpose buf :=
  eq_transpose (fun buf b i => slicer.sliceN_bit buf b.isLt i.isLt) buf

def BitSlicer.reference : BitSlicer where
  sliceN := transpose
  sliceN_bit buf _ _ hb hi := getLsbD_transpose buf hb hi

/-- A column of a registered schema; `bits` is the number of low bits that are evaluated. -/
structure FieldDescriptor where
  name : String
  offset : ℕ
  bits : ℕ
  deriving DecidableEq, Repr

/-- The builder expressions in use: `EQ(Load f, Const c)`, `GT(Load f, Const c)` and `And`. -/
inductive Expr
  | eq (field : String) (const : Word)
  | gt (field : String) (const : Word)
  | and (left right : Expr)
  deriving DecidableEq, Repr

def lowBits (n : ℕ) (w : Word) : ℕ := w.toNat % 2 ^ n

/-- Both sides of a comparison are taken on the low bits of the loaded column. -/
def Expr.eval (fields : List FieldDescriptor) (row : String → Word) : Expr → Bool
  | .eq f c => (fields.find? (·.name = f)).any fun d => lowBits d.bits (row f) == lowBits d.bits c
  | .gt f c =>
      (fields.find? (·.name = f)).any fun d => lowBits d.bits c < lowBits d.bits (row f)
  | .and a b => a.eval fields row && b.eval fields row

/-- The rows of a row-major batch; `data r o` is the word at byte offset `o` of record `r`. -/
def batchRows (fields : List FieldDescriptor) (data : ℕ → ℕ → Word) (count : ℕ) :
    List (String → Word) :=
  (List.range count).map fun r f =>
    ((fields.find? (·.name = f)).map fun d => data r d.offset).getD 0

/-- The rows of bit-sliced blocks; column `j` of block `b` starts at word `(b * K + j) * 64`. -/
def nativeRows (fields : List FieldDescriptor) (words : ℕ → Word) (numBlocks : ℕ) :
    List (String → Word) :=
  (List.range numBlocks).flatMap fun b => (List.range 64).map fun lane f =>
    laneValue (fun p => words ((b * fields.length + fields.findIdx (·.name = f)) * 64 + p)) lane

/-- An engine with a registered schema and a compiled expression. -/
structure ApexEngine where
  execute : List FieldDescriptor → Expr → (ℕ → ℕ → Word) → ℕ → ℕ
  executeNativeParallel : List FieldDescriptor → Expr → (ℕ → Word) → ℕ → ℕ → ℕ
  execute_count : ∀ fields e data count,
    execute fields e data count = (batchRows fields data count).countP (e.eval fields)
  native_count : ∀ fields e words numBlocks threads,
    executeNativeParallel fields e words numBlocks threads =
      (nativeRows fields words numBlocks).countP (e.eval fields)

def ApexEngine.reference : ApexEngine where
  execute fields e data count := (batchRows fields data count).countP (e.eval fields)
  executeNativeParallel fields e words numBlocks _ :=
    (nativeRows fields words numBlocks).countP (e.eval fields)
  execute_count _ _ _ _ := rfl
  native_count _ _ _ _ _ := rfl

lemma lowBits_full (w : Word) : lowBits 64 w = w.toNat := Nat.mod_eq_of_lt w.isLt

end Eureka.Apex
