import Mathlib
import Eureka.BitPlanes
import Eureka.StorageBloom

/-! `ZoneMap` and `RowGroup`: the per-column minimum and maximum, the block presence maps
and the bit-sliced hot columns, addressed in bytes. -/
namespace Eureka.Storage
open WordBytes BitPlanes HashFilter

inductive DataType
  | uint64 | int64 | double | string
  deriving DecidableEq, Repr

/-- `minVal` and `maxVal` are the 64-bit image of the union. -/
structure ZoneMap where
  type : DataType
  minVal : Word
  maxVal : Word
  hasValues : Bool
  deriving DecidableEq, Repr

namespace ZoneMap

def reset (z : ZoneMap) : ZoneMap :=
  match z.type with
  | .uint64 => ⟨.uint64, BitVec.allOnes 64, 0, false⟩
  | .int64 => ⟨.int64, 0x7fffffffffffffff#64, 0x8000000000000000#64, false⟩
  | .double => ⟨.double, 0x7fefffffffffffff#64, 0xffefffffffffffff#64, false⟩
  | .string => { z with hasValues := false }

def new (t : DataType) : ZoneMap := reset ⟨t, 0, 0, false⟩

def updateU64 (z : ZoneMap) (val : Word) : ZoneMap :=
  { z with
    hasValues := true
    minVal := if val < z.minVal then val else z.minVal
    maxVal := if z.maxVal < val then val else z.maxVal }

/-- The zone map of a column that has received exactly the values `vs`. -/
def ofValues (vs : List Word) : ZoneMap := vs.foldl updateU64 (new .uint64)

lemma ofValues_append_singleton (vs : List Word) (v : Word) :
    ofValues (vs ++ [v]) = (ofValues vs).updateU64 v := by simp [ofValues]

@[simp] lemma ofValues_type (vs : List Word) : (ofValues vs).type = .uint64 := by
  induction vs using List.reverseRecOn with
  | nil => rfl
  | append_singleton vs v ih => rw [ofValues_append_singleton]; exact ih

lemma ofValues_hasValues (vs : List Word) : (ofValues vs).hasValues = true ↔ vs ≠ [] := by
  induction vs using List.reverseRecOn with
  | nil => simp [ofValues, new, reset]
  | append_singleton vs v ih => simp [ofValues_append_singleton, updateU64]

lemma le_updateU64_max (z : ZoneMap) (v : Word) :
    z.maxVal ≤ (z.updateU64 v).maxVal ∧ v ≤ (z.updateU64 v).maxVal := by
  simp only [updateU64]
  split_ifs with h
  · exact ⟨BitVec.le_of_lt h, BitVec.le_refl v⟩
  · exact ⟨BitVec.le_refl _, BitVec.not_lt.mp h⟩

lemma updateU64_min_le (z : ZoneMap) (v : Word) :
    (z.updateU64 v).minVal ≤ z.minVal ∧ (z.updateU64 v).minVal ≤ v := by
  simp only [updateU64]
  split_ifs with h
  · exact ⟨BitVec.le_of_lt h, BitVec.le_refl v⟩
  · exact ⟨BitVec.le_refl _, BitVec.not_lt.mp h⟩

/-- Every received value lies between the stored bounds. -/
theorem ofValues_bounds {vs : List Word} {v : Word} (h : v ∈ vs) :
    (ofValues vs).minVal ≤ v ∧ v ≤ (ofValues vs).maxVal := by
  induction vs using List.reverseRecOn with
  | nil => simp at h
  | append_singleton vs w ih =>
    rw [ofValues_append_singleton]
    have hmin := updateU64_min_le (ofValues vs) w
    have hmax := le_updateU64_max (ofValues vs) w
    rcases List.mem_append.mp h with hv | hw
    · obtain ⟨hlo, hhi⟩ := ih hv
      exact ⟨BitVec.le_trans hmin.1 hlo, BitVec.le_trans hhi hmax.1⟩
    · obtain rfl := List.mem_singleton.mp hw
      exact ⟨hmin.2, hmax.2⟩

/-- Both stored bounds of a column with values are among its values. -/
theorem ofValues_attained {vs : List Word} (h : vs ≠ []) :
    (ofValues vs).minVal ∈ vs ∧ (ofValues vs).maxVal ∈ vs := by
  induction vs using List.reverseRecOn with
  | nil => exact absurd rfl h
  | append_singleton vs w ih =>
    rw [ofValues_append_singleton]
    simp only [updateU64, List.mem_append, List.mem_singleton]
    by_cases hv : vs = []
    · subst hv
      -- a first value replaces the initial bounds or equals them
      have hmin : ¬ w < BitVec.allOnes 64 → w = BitVec.allOnes 64 :=
        fun hn => BitVec.allOnes_le_iff.mp (BitVec.not_lt.mp hn)
      have hmax : ¬ 0#64 < w → w = 0#64 :=
        fun hn => BitVec.le_zero_iff.mp (BitVec.not_lt.mp hn)
      constructor
      · split_ifs with hlt
        · exact Or.inr rfl
        · exact Or.inr (hmin hlt).symm
      · split_ifs with hlt
        · exact Or.inr rfl
        · exact Or.inr (hmax hlt).symm
    · obtain ⟨hlo, hhi⟩ := ih hv
      constructor
      · split_ifs
        · exact Or.inr rfl
        · exact Or.inl hlo
      · split_ifs
        · exact Or.inr rfl
        · exact Or.inl hhi

end ZoneMap

structure RowGroup where
  fingerprintHash : Word
  hotColumnCount : ℕ
  warmColumnCount : ℕ
  nullMaps : List (Vector Word 16)
  zoneMaps : List ZoneMap
  stringBloom : BloomFilter
  hotDataPlanes : Memory
  warmDictStrings : List Bytes
  rawChunkBuffer : List Bytes
  isCompacted : Bool

namespace RowGroup

/-- The column counts are 32-bit, and so are their sum and the product for the planes. -/
def new (hotCols warmCols : ℕ) : RowGroup where
  fingerprintHash := 0
  hotColumnCount := hotCols
  warmColumnCount := warmCols
  nullMaps := List.replicate ((hotCols + warmCols) % 2 ^ 32) (Vector.replicate 16 0)
  zoneMaps := List.replicate ((hotCols + warmCols) % 2 ^ 32) (.new .uint64)
  stringBloom := .new 8192
  hotDataPlanes := .zero (hotCols * 64 * 8192 % 2 ^ 32)
  warmDictStrings := []
  rawChunkBuffer := []
  isCompacted := false

/-- Word and bit of a block in a presence map. -/
def blockPosition (block : ℕ) (h : block < 1024) : Position 16 :=
  (⟨block / 64, by omega⟩, ⟨block % 64, by omega⟩)

def setBlockPresence (rg : RowGroup) (col block : ℕ) : RowGroup :=
  if h : col < rg.nullMaps.length ∧ block < 1024 then
    { rg with nullMaps := rg.nullMaps.modify col (setBit · (blockPosition block h.2)) }
  else rg

def checkBlockPresence (rg : RowGroup) (col block : ℕ) : Bool :=
  if h : col < rg.nullMaps.length ∧ block < 1024 then
    testBit rg.nullMaps[col] (blockPosition block h.2)
  else false

lemma blockPosition_inj {a b : ℕ} (ha : a < 1024) (hb : b < 1024) :
    blockPosition a ha = blockPosition b hb ↔ a = b := by
  simp only [blockPosition, Prod.mk.injEq, Fin.mk.injEq]
  omega

@[simp] lemma setBlockPresence_length (rg : RowGroup) (col block : ℕ) :
    (rg.setBlockPresence col block).nullMaps.length = rg.nullMaps.length := by
  unfold setBlockPresence
  split_ifs <;> simp

/-- Marking a block shows at that column and block and nowhere else. -/
theorem check_setBlockPresence (rg : RowGroup) {col block : ℕ} (hc : col < rg.nullMaps.length)
    (hb : block < 1024) (c b : ℕ) :
    (rg.setBlockPresence col block).checkBlockPresence c b = true ↔
      (c = col ∧ b = block) ∨ rg.checkBlockPresence c b = true := by
  have hset : rg.setBlockPresence col block =
      { rg with nullMaps := rg.nullMaps.modify col (setBit · (blockPosition block hb)) } := by
    simp [setBlockPresence, hc, hb]
  rw [hset]
  unfold checkBlockPresence
  by_cases h : c < rg.nullMaps.length ∧ b < 1024
  · simp only [List.length_modify, h, and_self, dite_true, List.getElem_modify]
    split_ifs with he
    · rw [testBit_setBit, blockPosition_inj, he]
      simp only [true_and]
    · have hne : ¬ (c = col ∧ b = block) := fun hcb => he hcb.1.symm
      rw [or_iff_right hne]
  · have hne : ¬ (c = col ∧ b = block) := by rintro ⟨rfl, rfl⟩; exact h ⟨hc, hb⟩
    simp [List.length_modify, h, hne]

lemma check_new (hotCols warmCols c b : ℕ) :
    (new hotCols warmCols).checkBlockPresence c b = false := by
  unfold checkBlockPresence new
  split_ifs with h
  · rw [List.getElem_replicate, testBit_replicate]
  · rfl

/-- Word `block` of plane `bit` in the region of a hot slot. -/
def planeWord (rg : RowGroup) (slot bit block : ℕ) : Word :=
  rg.hotDataPlanes.wordIn (slot * 64 * 8192) (bit * 1024 + block)

/-- The value that row `row` of a hot slot decodes to. -/
def slotValue (rg : RowGroup) (slot row : ℕ) : Word :=
  laneValue (fun bit => rg.planeWord slot bit (row / 64)) (row % 64)

def rowCapacity : ℕ := 65536

/-- A row of a hot slot, for the 1024 blocks of 64 rows that a column has. -/
def row? (rg : RowGroup) (slot row : ℕ) : Option Word :=
  if row < rowCapacity then some (rg.slotValue slot row) else none

end RowGroup

end Eureka.Storage
