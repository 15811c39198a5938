import Mathlib
import Eureka.StorageRowGroup

/-! `QueryPlanner`: a predicate tree is tested against the zone maps and the Bloom filter of
a row group, which is skipped when the test fails. -/
namespace Eureka.Jit
open WordBytes Storage

inductive OpType
  | eq | gt | and
  deriving DecidableEq, Repr

/-- A node, or the null pointer that a child may be. -/
inductive PredicateNode
  | null
  | node (op : OpType) (field : String) (valU64 : Word) (valStr : Bytes)
      (left right : PredicateNode)

def gtSlot (field : String) : ℕ := if field = "latency" then 1 else 0

/-- The assignment under the test leaves the slot as it was initialised. -/
def eqSlot (field : String) : ℕ := if field = "status" then 0 else 0

/-- A slot without a usable zone map keeps the row group. -/
def zoneKeeps (rg : RowGroup) (slot : ℕ) (prunes : ZoneMap → Bool) : Bool :=
  match rg.zoneMaps[slot]? with
  | none => true
  | some zm => if zm.hasValues ∧ zm.type = .uint64 then !prunes zm else true

def leafKeeps (rg : RowGroup) (op : OpType) (field : String) (valU64 : Word) (valStr : Bytes) :
    Bool :=
  match op with
  | .and => true
  | .gt => zoneKeeps rg (gtSlot field) fun zm => zm.maxVal ≤ valU64
  | .eq =>
    if valStr ≠ [] then rg.stringBloom.contains valStr
    else zoneKeeps rg (eqSlot field) fun zm => valU64 < zm.minVal ∨ zm.maxVal < valU64

def evaluatePruning (rg : RowGroup) : PredicateNode → Bool
  | .null => true
  | .node op field valU64 valStr left right =>
    if op = .and then
      if ¬ evaluatePruning rg left then false else evaluatePruning rg right
    else leafKeeps rg op field valU64 valStr

namespace PredicateNode

/-- A property of every comparison under the conjunctions of a tree. -/
def AllLeaves (P : OpType → String → Word → Bytes → Prop) : PredicateNode → Prop
  | .null => True
  | .node op field valU64 valStr left right =>
    if op = .and then AllLeaves P left ∧ AllLeaves P right else P op field valU64 valStr

variable {P Q : OpType → String → Word → Bytes → Prop}

theorem AllLeaves.imp {t : PredicateNode} (h : t.AllLeaves P)
    (hPQ : ∀ op f c s, op ≠ .and → P op f c s → Q op f c s) : t.AllLeaves Q := by
  induction t with
  | null => trivial
  | node op f c s l r ihl ihr =>
    unfold AllLeaves at h ⊢
    split_ifs at h ⊢ with hop
    · exact ⟨ihl h.1, ihr h.2⟩
    · exact hPQ op f c s hop h

theorem AllLeaves.and {t : PredicateNode} (hP : t.AllLeaves P) (hQ : t.AllLeaves Q) :
    t.AllLeaves fun op f c s => P op f c s ∧ Q op f c s := by
  induction t with
  | null => trivial
  | node op f c s l r ihl ihr =>
    unfold AllLeaves at hP hQ ⊢
    split_ifs at hP hQ ⊢ with hop
    · exact ⟨ihl hP.1 hQ.1, ihr hP.2 hQ.2⟩
    · exact ⟨hP, hQ⟩

theorem AllLeaves.congr {t : PredicateNode} (hQ : t.AllLeaves Q)
    {R : OpType → String → Word → Bytes → Prop}
    (h : ∀ op f c s, op ≠ .and → Q op f c s → (P op f c s ↔ R op f c s)) :
    t.AllLeaves P ↔ t.AllLeaves R := by
  constructor
  · intro hP
    exact (hP.and hQ).imp fun op f c s hop hpq => (h op f c s hop hpq.2).mp hpq.1
  · intro hR
    exact (hR.and hQ).imp fun op f c s hop hrq => (h op f c s hop hrq.2).mpr hrq.1

/-- A leaf on a row that offers a number and possibly a string for every field. -/
def leafHolds (num : String → Word) (str : String → Option Bytes) (op : OpType) (field : String)
    (valU64 : Word) (valStr : Bytes) : Prop :=
  match op with
  | .and => True
  | .gt => valU64 < num field
  | .eq => if valStr ≠ [] then str field = some valStr else num field = valU64

/-- The tree as a predicate on a row; a null child is true. -/
def Satisfied (num : String → Word) (str : String → Option Bytes) (t : PredicateNode) : Prop :=
  t.AllLeaves (leafHolds num str)

/-- Comparisons of `status` and `latency` with integer constants only. -/
def Numeric (t : PredicateNode) : Prop :=
  t.AllLeaves fun _ field _ valStr => (field = "status" ∨ field = "latency") ∧ valStr = []

end PredicateNode

/-- Pruning keeps a row group exactly when every leaf does. -/
theorem evaluatePruning_iff (rg : RowGroup) (t : PredicateNode) :
    evaluatePruning rg t = true ↔ t.AllLeaves fun op f c s => leafKeeps rg op f c s = true := by
  induction t with
  | null => simp [evaluatePruning, PredicateNode.AllLeaves]
  | node op f c s l r ihl ihr =>
    rw [evaluatePruning, PredicateNode.AllLeaves]
    split_ifs with hop hl
    · rw [ihr, ← ihl]
      exact (and_iff_right hl).symm
    · exact ⟨fun h => absurd h (by simp), fun h => absurd (ihl.mpr h.1) hl⟩
    · rfl

/-- The constant lies between the least and the greatest value of a column. -/
def Between (c : Word) (values : List Word) : Prop :=
  (∃ v ∈ values, v ≤ c) ∧ ∃ v ∈ values, c ≤ v

section
variable {rg : RowGroup} {slot : ℕ} {values : List Word}

lemma zoneKeeps_of_empty {z : ZoneMap} (h : rg.zoneMaps[slot]? = some z) (hz : z.hasValues = false)
    (prunes : ZoneMap → Bool) : zoneKeeps rg slot prunes = true := by
  simp [zoneKeeps, h, hz]

lemma zoneKeeps_of_values (h : rg.zoneMaps[slot]? = some (.ofValues values)) (hne : values ≠ [])
    (prunes : ZoneMap → Bool) : zoneKeeps rg slot prunes = !prunes (.ofValues values) := by
  have hv := (ZoneMap.ofValues_hasValues values).mpr hne
  simp [zoneKeeps, h, hv]

/-- The greater-than test against an exact zone map. -/
theorem zoneKeeps_gt (h : rg.zoneMaps[slot]? = some (.ofValues values)) (c : Word) :
    zoneKeeps rg slot (fun zm => zm.maxVal ≤ c) = true ↔
      (values ≠ [] → ∃ v ∈ values, c < v) := by
  by_cases hne : values = []
  · have hv : (ZoneMap.ofValues values).hasValues = false := by rw [hne]; rfl
    simp [zoneKeeps_of_empty h hv, hne]
  · rw [zoneKeeps_of_values h hne, Bool.not_eq_true', decide_eq_false_iff_not, BitVec.not_le]
    constructor
    · exact fun hlt _ => ⟨_, (ZoneMap.ofValues_attained hne).2, hlt⟩
    · intro hex
      obtain ⟨v, hv, hlt⟩ := hex hne
      have hle := (ZoneMap.ofValues_bounds hv).2
      rw [BitVec.lt_def] at hlt ⊢
      rw [BitVec.le_def] at hle
      omega

/-- The equality test against an exact zone map. -/
theorem zoneKeeps_eq (h : rg.zoneMaps[slot]? = some (.ofValues values)) (c : Word) :
    zoneKeeps rg slot (fun zm => c < zm.minVal ∨ zm.maxVal < c) = true ↔
      (values ≠ [] → Between c values) := by
  by_cases hne : values = []
  · have hv : (ZoneMap.ofValues values).hasValues = false := by rw [hne]; rfl
    simp [zoneKeeps_of_empty h hv, hne]
  · rw [zoneKeeps_of_values h hne, Bool.not_eq_true', decide_eq_false_iff_not, not_or,
      BitVec.not_lt, BitVec.not_lt]
    obtain ⟨hmin, hmax⟩ := ZoneMap.ofValues_attained hne
    constructor
    · exact fun hc _ => ⟨⟨_, hmin, hc.1⟩, ⟨_, hmax, hc.2⟩⟩
    · intro hb
      obtain ⟨⟨v, hv, hvc⟩, w, hw, hcw⟩ := hb hne
      exact ⟨BitVec.le_trans (ZoneMap.ofValues_bounds hv).1 hvc,
        BitVec.le_trans hcw (ZoneMap.ofValues_bounds hw).2⟩

end

end Eureka.Jit
