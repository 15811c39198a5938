import Mathlib
import Eureka.StorageRowGroup
import Eureka.TransitionRuns

/-! `PromotionDaemon`: a promotion copies a row group, sets bits of a hot column for its warm
strings, and stores the copy in the handle. -/
namespace Eureka.Ingest
open WordBytes Storage TransitionRuns

/-- `|= 1 << bitPos` on one byte of the planes; `none` past their end, where the code writes
all the same. -/
def orPlaneByte (planes : Memory) (idx bitPos : ℕ) : Option Memory :=
  if idx < planes.size then
    some { planes with get := Function.update planes.get idx (planes.get idx ||| 1#8 <<< bitPos) }
  else none

def promoteBit (planeBase i : ℕ) (val : Word) (planes : Memory) (bit : ℕ) : Option Memory :=
  if (val >>> bit) &&& 1#64 ≠ 0 then orPlaneByte planes (planeBase + bit * 8192 + i / 8) (i % 8)
  else some planes

def promoteRow (targetHotSlot : ℕ) (rg : RowGroup) (i : ℕ) : Option RowGroup :=
  let val : Word := if rg.stringBloom.contains (rg.warmDictStrings.getD i []) then 1 else 0
  ((List.range 64).foldlM (promoteBit (targetHotSlot * 64 * 8192) i val) rg.hotDataPlanes).map
    fun planes => { rg with hotDataPlanes := planes }.setBlockPresence targetHotSlot (i / 64)

/-- The copy that a promotion stores. -/
def promotedCopy (targetHotSlot : Byte) (oldRg : RowGroup) : Option RowGroup :=
  ((List.range (min oldRg.warmDictStrings.length 65536)).foldlM (promoteRow targetHotSlot.toNat)
    oldRg).map fun rg => { rg with fingerprintHash := rg.fingerprintHash ^^^ 0x999#64 }

/-- The field's name is not used. The result is undefined after a write past the planes. -/
def executeCompactionPromotion (handle : Option RowGroup) (_fieldName : String) (targetHotSlot : Byte) :
    Option (Bool × Option RowGroup) :=
  match handle with
  | none => some (false, none)
  | some oldRg => (promotedCopy targetHotSlot oldRg).map fun newRg => (true, some newRg)

/-- Everything that one row group shows, another shows as well: bits of the planes, marks of
the presence maps, and the state of its raw lines. -/
structure Extends (rg rg' : RowGroup) : Prop where
  bits : ∀ addr bit, (rg.hotDataPlanes.get addr).getLsbD bit = true →
    (rg'.hotDataPlanes.get addr).getLsbD bit = true
  marks : ∀ col block, rg.checkBlockPresence col block = true →
    rg'.checkBlockPresence col block = true
  compacted : rg'.isCompacted = rg.isCompacted
  raw : rg'.rawChunkBuffer = rg.rawChunkBuffer

variable {rg rg' : RowGroup}

lemma Extends.refl (rg : RowGroup) : Extends rg rg :=
  ⟨fun _ _ h => h, fun _ _ h => h, rfl, rfl⟩

lemma Extends.trans {rg₁ rg₂ rg₃ : RowGroup} (h : Extends rg₁ rg₂) (h' : Extends rg₂ rg₃) :
    Extends rg₁ rg₃ :=
  ⟨fun addr bit hb => h'.bits addr bit (h.bits addr bit hb),
    fun col block hb => h'.marks col block (h.marks col block hb),
    h'.compacted.trans h.compacted, h'.raw.trans h.raw⟩

/-- A row group with the bits of `planes` and all else as before. -/
lemma Extends.withPlanes (rg : RowGroup) {planes : Memory}
    (h : ∀ addr bit, (rg.hotDataPlanes.get addr).getLsbD bit = true →
      (planes.get addr).getLsbD bit = true) : Extends rg { rg with hotDataPlanes := planes } :=
  ⟨h, fun _ _ hb => hb, rfl, rfl⟩

lemma Extends.setBlockPresence (rg : RowGroup) (col block : ℕ) :
    Extends rg (rg.setBlockPresence col block) := by
  by_cases hb : col < rg.nullMaps.length ∧ block < 1024
  · refine ⟨?_, ?_, ?_, ?_⟩
    · simp only [RowGroup.setBlockPresence, hb, and_self, dite_true]
      exact fun _ _ h => h
    · exact fun c b h => (rg.check_setBlockPresence hb.1 hb.2 c b).mpr (Or.inr h)
    · simp only [RowGroup.setBlockPresence, hb, and_self, dite_true]
    · simp only [RowGroup.setBlockPresence, hb, and_self, dite_true]
  · rw [RowGroup.setBlockPresence, dif_neg hb]
    exact .refl rg

lemma orPlaneByte_bits {planes planes' : Memory} {idx bitPos : ℕ}
    (h : orPlaneByte planes idx bitPos = some planes') (addr bit : ℕ)
    (hb : (planes.get addr).getLsbD bit = true) : (planes'.get addr).getLsbD bit = true := by
  rw [orPlaneByte] at h
  split_ifs at h with hidx
  obtain rfl := Option.some.inj h
  by_cases ha : addr = idx
  · subst ha
    simp [hb]
  · simpa [Function.update_of_ne ha] using hb

lemma promoteBit_bits {planes planes' : Memory} {planeBase i bit₀ : ℕ} {val : Word}
    (h : promoteBit planeBase i val planes bit₀ = some planes') (addr bit : ℕ)
    (hb : (planes.get addr).getLsbD bit = true) : (planes'.get addr).getLsbD bit = true := by
  rw [promoteBit] at h
  split_ifs at h
  · exact orPlaneByte_bits h addr bit hb
  · obtain rfl := Option.some.inj h
    exact hb

lemma promoteRow_extends {slot i : ℕ} (h : promoteRow slot rg i = some rg') :
    Extends rg rg' ∧ rg'.fingerprintHash = rg.fingerprintHash := by
  obtain ⟨planes, hplanes, rfl⟩ := Option.map_eq_some_iff.mp h
  have hbits := foldlM_related
    (R := fun m m' : Memory => ∀ addr bit, (m.get addr).getLsbD bit = true →
      (m'.get addr).getLsbD bit = true)
    (fun _ _ _ hb => hb) (fun _ _ _ h h' addr bit hb => h' addr bit (h addr bit hb))
    (fun _ _ _ hbit => promoteBit_bits hbit) _ hplanes
  refine ⟨(Extends.withPlanes rg hbits).trans (.setBlockPresence _ slot (i / 64)), ?_⟩
  unfold RowGroup.setBlockPresence
  split_ifs <;> rfl

/-- A promotion adds bits and marks, and changes the fingerprint. -/
theorem promotedCopy_extends {slot : Byte} (h : promotedCopy slot rg = some rg') :
    Extends rg rg' ∧ rg'.fingerprintHash = rg.fingerprintHash ^^^ 0x999#64 := by
  obtain ⟨copy, hcopy, rfl⟩ := Option.map_eq_some_iff.mp h
  have hrows := foldlM_related
    (R := fun g g' : RowGroup => Extends g g' ∧ g'.fingerprintHash = g.fingerprintHash)
    (fun g => ⟨.refl g, rfl⟩)
    (fun _ _ _ h h' => ⟨h.1.trans h'.1, h'.2.trans h.2⟩)
    (fun _ _ _ hrow => promoteRow_extends hrow) _ hcopy
  refine ⟨⟨hrows.1.bits, hrows.1.marks, hrows.1.compacted, hrows.1.raw⟩, ?_⟩
  rw [hrows.2]

end Eureka.Ingest
