import Mathlib
import Eureka.PromotionLayout

/-! Which bytes of the planes a promotion writes, for a row group of any shape. The slot is not
compared with the number of hot columns; only the presence maps are guarded. -/
namespace Eureka.Ingest
open WordBytes Storage TransitionRuns

/-- The size that the constructor gives the planes, a 32-bit product. -/
def ConstructedSize (rg : RowGroup) : Prop :=
  rg.hotDataPlanes.size = rg.hotColumnCount * 64 * 8192 % 2 ^ 32

/-- The bits of the value of row `i` that the loop finds set. -/
def writtenBits (rg : RowGroup) (i : ℕ) : List ℕ :=
  (List.range 64).filter fun bit => (promotedValue rg i >>> bit) &&& 1#64 ≠ 0

/-- Every index of the planes that the triple loop writes. -/
def writtenIndices (slot : ℕ) (rg : RowGroup) : List ℕ :=
  (List.range (promotedRows rg)).flatMap fun i =>
    (writtenBits rg i).map fun bit => slot * 64 * 8192 + bit * 8192 + i / 8

/-- All written indices are below the size of the planes, or the call returns false and leaves
the handle. -/
def StaysInBounds (handle : Option RowGroup) (fieldName : String) (targetHotSlot : Byte) : Prop :=
  executeCompactionPromotion handle fieldName targetHotSlot = some (false, handle) ∨
    ∃ rg, handle = some rg ∧
      ∀ idx ∈ writtenIndices targetHotSlot.toNat rg, idx < rg.hotDataPlanes.size

variable {rg rg' : RowGroup}

section shape

lemma constructedSize_new (hotCols warmCols : ℕ) : ConstructedSize (RowGroup.new hotCols warmCols) :=
  rfl

lemma ConstructedSize.of_sameShape (h : ConstructedSize rg) (hshape : SameShape rg rg') :
    ConstructedSize rg' := by
  rw [ConstructedSize, hshape.size, hshape.columns]
  exact h

/-- What the loop reads stays as it is. -/
structure SameInput (rg rg' : RowGroup) : Prop where
  size : rg'.hotDataPlanes.size = rg.hotDataPlanes.size
  bloom : rg'.stringBloom = rg.stringBloom
  strings : rg'.warmDictStrings = rg.warmDictStrings
  columns : rg'.hotColumnCount = rg.hotColumnCount

lemma promoteBit_size {planes planes' : Memory} {base i bit : ℕ} {val : Word}
    (h : promoteBit base i val planes bit = some planes') : planes'.size = planes.size := by
  unfold promoteBit orPlaneByte at h
  split_ifs at h <;> exact (Option.some.inj h) ▸ rfl

lemma promoteRow_sameInput {slot i : ℕ} (h : promoteRow slot rg i = some rg') : SameInput rg rg' := by
  obtain ⟨planes, hplanes, rfl⟩ := Option.map_eq_some_iff.mp h
  have hsize := foldlM_related (R := fun m m' : Memory => m'.size = m.size) (fun _ => rfl)
    (fun _ _ _ h h' => h'.trans h) (fun _ _ _ hbit => promoteBit_size hbit) _ hplanes
  rw [setBlockPresence_rest]
  exact ⟨hsize, rfl, rfl, rfl⟩

lemma SameInput.refl (rg : RowGroup) : SameInput rg rg := ⟨rfl, rfl, rfl, rfl⟩

lemma SameInput.trans {rg'' : RowGroup} (h : SameInput rg rg') (h' : SameInput rg' rg'') :
    SameInput rg rg'' :=
  ⟨h'.size.trans h.size, h'.bloom.trans h.bloom, h'.strings.trans h.strings,
    h'.columns.trans h.columns⟩

/-- A promotion that ends leaves a group that can be promoted again. -/
theorem ConstructedSize.promotedCopy {slot : Byte} (h : ConstructedSize rg)
    (hcopy : promotedCopy slot rg = some rg') : ConstructedSize rg' := by
  obtain ⟨copy, hloop, rfl⟩ := Option.map_eq_some_iff.mp hcopy
  have hsame := foldlM_related (R := SameInput) .refl (fun _ _ _ h h' => h.trans h')
    (fun _ _ _ hrow => promoteRow_sameInput hrow) _ hloop
  exact h.of_sameShape ⟨hsame.size, hsame.columns⟩

end shape

section writes
variable {slot : ℕ}

lemma promoteBit_isSome {planes : Memory} {base i bit : ℕ} {val : Word} :
    (promoteBit base i val planes bit).isSome = true ↔
      ((val >>> bit) &&& 1#64 ≠ 0 → base + bit * 8192 + i / 8 < planes.size) := by
  unfold promoteBit orPlaneByte
  split_ifs <;> simp_all

lemma promoteRow_isSome (rg : RowGroup) (i : ℕ) : (promoteRow slot rg i).isSome = true ↔
    ∀ bit ∈ writtenBits rg i, slot * 64 * 8192 + bit * 8192 + i / 8 < rg.hotDataPlanes.size := by
  have hbits := foldlM_isSome_iff (I := fun m : Memory => m.size = rg.hotDataPlanes.size)
    (P := fun bit => (promotedValue rg i >>> bit) &&& 1#64 ≠ 0 →
      slot * 64 * 8192 + bit * 8192 + i / 8 < rg.hotDataPlanes.size)
    (f := promoteBit (slot * 64 * 8192) i (promotedValue rg i))
    (fun _ _ _ hm hbit => (promoteBit_size hbit).trans hm)
    (fun m bit hm => by rw [promoteBit_isSome, hm]) (List.range 64) rfl
  rw [promoteRow, Option.isSome_map]
  refine hbits.trans ?_
  simp only [writtenBits, List.mem_filter, decide_eq_true_eq, and_imp]

/-- The result is defined exactly if every written index is below the size of the planes. -/
theorem promotion_defined_iff (rg : RowGroup) (fieldName : String) (slot : Byte) :
    (executeCompactionPromotion (some rg) fieldName slot).isSome = true ↔
      ∀ idx ∈ writtenIndices slot.toNat rg, idx < rg.hotDataPlanes.size := by
  have hrows := foldlM_isSome_iff (I := SameInput rg)
    (P := fun i => ∀ bit ∈ writtenBits rg i,
      slot.toNat * 64 * 8192 + bit * 8192 + i / 8 < rg.hotDataPlanes.size)
    (f := promoteRow slot.toNat)
    (fun _ _ _ h hrow => h.trans (promoteRow_sameInput hrow))
    (fun g i h => by
      rw [promoteRow_isSome, h.size, writtenBits, promotedValue, promotedBit, h.bloom, h.strings]
      rfl)
    (List.range (promotedRows rg)) (.refl rg)
  rw [executeCompactionPromotion, Option.isSome_map, promotedCopy, Option.isSome_map]
  refine hrows.trans ?_
  simp only [writtenIndices, List.mem_flatMap, List.mem_map]
  constructor
  · rintro h idx ⟨i, hi, bit, hbit, rfl⟩
    exact h i hi bit hbit
  · exact fun h i hi bit hbit => h _ ⟨i, hi, bit, hbit, rfl⟩

/-- The values are 0 and 1, so only plane 0 is written. -/
lemma mem_writtenBits {i bit : ℕ} : bit ∈ writtenBits rg i ↔ bit = 0 ∧ promotedBit rg i = true := by
  rw [writtenBits, List.mem_filter, List.mem_range, decide_eq_true_eq, promotedValue]
  cases promotedBit rg i with
  | false => simp
  | true =>
    cases bit with
    | zero => exact iff_of_true ⟨by norm_num, by decide⟩ ⟨rfl, rfl⟩
    | succ c =>
      have hone : (1 : Word) >>> (c + 1) = 0 := one_ushiftRight c
      rw [if_pos rfl, hone]
      simp

/-- The first byte of plane 0 of the slot decides. -/
lemma index_lt_iff (h : ConstructedSize rg) {i : ℕ} (hi : i < RowGroup.rowCapacity) :
    slot * 64 * 8192 + 0 * 8192 + i / 8 < rg.hotDataPlanes.size ↔ slot < rg.hotColumnCount % 8192 := by
  have hcap : i < 65536 := hi
  rw [h]
  omega

end writes

section bounds
variable {handle : Option RowGroup} {fieldName : String} {slot : Byte}

/-- A promotion of a group stays in the planes exactly if the slot is among the columns that they
have room for, or no warm string that is visited is in the filter. -/
theorem stays_in_bounds_iff (h : ∀ rg ∈ handle, ConstructedSize rg) :
    StaysInBounds handle fieldName slot ↔ ∀ rg ∈ handle,
      slot.toNat < rg.hotColumnCount % 8192 ∨ ∀ i < promotedRows rg, promotedBit rg i = false := by
  cases handle with
  | none => exact iff_of_true (Or.inl rfl) (fun _ hrg => absurd hrg (by simp))
  | some rg =>
    have hshape := h rg rfl
    have hrow : ∀ i < promotedRows rg, i < RowGroup.rowCapacity :=
      fun i hi => lt_of_lt_of_le hi (min_le_right _ _)
    constructor
    · rintro (hfalse | ⟨rg', hrg', hall⟩) rg₁ hrg₁
      · obtain ⟨copy, -, heq⟩ := Option.map_eq_some_iff.mp hfalse
        exact absurd (congrArg Prod.fst heq) (by simp)
      · obtain rfl := Option.some.inj hrg'
        obtain rfl := Option.some.inj hrg₁
        refine or_iff_not_imp_left.mpr fun hslot i hi => Bool.eq_false_iff.mpr fun hbit => hslot ?_
        refine (index_lt_iff hshape (hrow i hi)).mp (hall _ ?_)
        exact List.mem_flatMap.mpr ⟨i, List.mem_range.mpr hi,
          List.mem_map.mpr ⟨0, mem_writtenBits.mpr ⟨rfl, hbit⟩, rfl⟩⟩
    · intro hfits
      refine Or.inr ⟨rg, rfl, fun idx hidx => ?_⟩
      obtain ⟨i, hi, hidx⟩ := List.mem_flatMap.mp hidx
      obtain ⟨bit, hbit, rfl⟩ := List.mem_map.mp hidx
      obtain ⟨rfl, hset⟩ := mem_writtenBits.mp hbit
      have hrows := List.mem_range.mp hi
      rcases hfits rg rfl with hslot | hnone
      · exact (index_lt_iff hshape (hrow i hrows)).mpr hslot
      · exact absurd hset (by rw [hnone i hrows]; exact Bool.false_ne_true)

/-- A group with one warm string, which its filter knows. -/
def knownString : RowGroup :=
  { RowGroup.new 32 32 with
    warmDictStrings := [[0x61#8]]
    stringBloom := (RowGroup.new 32 32).stringBloom.add [0x61#8] }

lemma promotedBit_knownString : promotedBit knownString 0 = true :=
  @BloomFilter.contains_of_mem 1024 (by norm_num) [[0x61#8]] [0x61#8] List.mem_cons_self

theorem stays_in_bounds_iff_sample : StaysInBounds (some knownString) "trace_id" 31 ↔
    ∀ rg ∈ some knownString, (31 : Byte).toNat < rg.hotColumnCount % 8192 ∨
      ∀ i < promotedRows rg, promotedBit rg i = false :=
  stays_in_bounds_iff (by rintro rg ⟨⟩; rfl)

/-- The first slot past the hot columns: the write is one byte past the planes. -/
theorem slot_past_planes : ¬ StaysInBounds (some knownString) "trace_id" 32 ∧
    executeCompactionPromotion (some knownString) "trace_id" 32 = none ∧
    16777216 ∈ writtenIndices 32 knownString ∧ knownString.hotDataPlanes.size = 16777216 := by
  have hwritten : 16777216 ∈ writtenIndices 32 knownString :=
    List.mem_flatMap.mpr ⟨0, List.mem_range.mpr (by decide),
      List.mem_map.mpr ⟨0, mem_writtenBits.mpr ⟨rfl, promotedBit_knownString⟩, rfl⟩⟩
  have hsize : knownString.hotDataPlanes.size = 16777216 := rfl
  have hundefined : executeCompactionPromotion (some knownString) "trace_id" 32 = none := by
    rw [← Option.not_isSome_iff_eq_none, promotion_defined_iff]
    exact fun hall => absurd (hall _ hwritten) (by rw [hsize]; exact lt_irrefl _)
  refine ⟨?_, hundefined, hwritten, hsize⟩
  rintro (hfalse | ⟨rg, hrg, hall⟩)
  · rw [hundefined] at hfalse
    exact absurd hfalse (by simp)
  · obtain rfl := Option.some.inj hrg
    exact absurd (hall _ hwritten) (by rw [hsize]; exact lt_irrefl _)

end bounds

end Eureka.Ingest
