import Mathlib
import Eureka.PromotionBounds
import Eureka.QueryPlanner

/-! Runs of promotions on one handle. Each stores a copy with more bits, so what a run leaves is
given by the set of its slots, but for the fingerprint, which changes back and forth. -/
namespace Eureka.Ingest
open WordBytes HashFilter Storage TransitionRuns Jit

/-- The promotions of a handle in order, each with its field and its slot. -/
def promoteAll (handle : Option RowGroup) (promotions : List (String × Byte)) :
    Option (Option RowGroup) :=
  promotions.foldlM (fun h p => (executeCompactionPromotion h p.1 p.2).map Prod.snd) handle

def targetSlots (promotions : List (String × Byte)) : List ℕ := promotions.map fun p => p.2.toNat

def InPlanes (rg : RowGroup) (promotions : List (String × Byte)) : Prop :=
  ∀ s ∈ targetSlots promotions, (s + 1) * 64 * 8192 ≤ rg.hotDataPlanes.size

/-- What promotions to these slots leave of a row group. -/
structure PromotedTo (slots : List ℕ) (rg rg' : RowGroup) : Prop where
  size : rg'.hotDataPlanes.size = rg.hotDataPlanes.size
  bits : ∀ addr, ∀ k < 8, (rg'.hotDataPlanes.get addr).getLsbD k = true ↔
    (rg.hotDataPlanes.get addr).getLsbD k = true ∨
      ∃ s ∈ slots, ∃ i < promotedRows rg, promotedBit rg i = true ∧
        addr = s * 64 * 8192 + i / 8 ∧ k = i % 8
  mapCount : rg'.nullMaps.length = rg.nullMaps.length
  marks : ∀ c b, rg'.checkBlockPresence c b = true ↔
    rg.checkBlockPresence c b = true ∨
      (c ∈ slots ∧ c < rg.nullMaps.length ∧ ∃ i < promotedRows rg, b = i / 64)
  fingerprint : rg'.fingerprintHash =
    if slots.length % 2 = 0 then rg.fingerprintHash else rg.fingerprintHash ^^^ 0x999#64
  rest : rg' = { rg with
    hotDataPlanes := rg'.hotDataPlanes, nullMaps := rg'.nullMaps, fingerprintHash := rg'.fingerprintHash }

variable {rg rg' : RowGroup} {slots : List ℕ} {promotions promotions' : List (String × Byte)}

lemma promotedTo_nil (rg : RowGroup) : PromotedTo [] rg rg :=
  ⟨rfl, by simp, rfl, by simp, rfl, rfl⟩

/-- The rows and their bits are read from fields that a promotion leaves. -/
lemma PromotedTo.sameInput (h : PromotedTo slots rg rg') :
    promotedRows rg' = promotedRows rg ∧ ∀ i, promotedBit rg' i = promotedBit rg i := by
  constructor
  · rw [promotedRows, h.rest]
    rfl
  · intro i
    rw [promotedBit, h.rest]
    rfl

/-- One more promotion. -/
lemma PromotedTo.promote (h : PromotedTo slots rg rg') {slot : Byte}
    (hsize : (slot.toNat + 1) * 64 * 8192 ≤ rg.hotDataPlanes.size) :
    ∃ next, promotedCopy slot rg' = some next ∧ PromotedTo (slots ++ [slot.toNat]) rg next := by
  obtain ⟨copy, hcopy, hP⟩ := promotedCopy_spec (h.size ▸ hsize)
  obtain ⟨hrows, hbit⟩ := h.sameInput
  refine ⟨_, hcopy, ?_, ?_, ?_, ?_, ?_, ?_⟩
  · exact hP.size.trans h.size
  · intro addr k hk
    have hnew := hP.bits addr k hk
    simp only [hrows, hbit] at hnew
    rw [Bool.eq_iff_iff, Bool.or_eq_true, h.bits addr k hk, decide_eq_true_iff, or_assoc] at hnew
    simp only [List.mem_append, List.mem_singleton, or_and_right, exists_or, exists_eq_left]
    exact hnew
  · exact hP.mapCount.trans h.mapCount
  · intro c b
    have hnew := hP.marks c b
    rw [h.marks, hrows, h.mapCount] at hnew
    have hcopy : ({ copy with fingerprintHash := copy.fingerprintHash ^^^ 0x999#64 } :
        RowGroup).checkBlockPresence c b = copy.checkBlockPresence c b := rfl
    rw [hcopy, hnew, List.mem_append, List.mem_singleton, or_and_right]
    constructor
    · rintro (⟨rfl, hlt, hi⟩ | hold | hmark)
      · exact Or.inr (Or.inr ⟨rfl, hlt, hi⟩)
      · exact Or.inl hold
      · exact Or.inr (Or.inl hmark)
    · rintro (hold | hmark | ⟨rfl, hlt, hi⟩)
      · exact Or.inr (Or.inl hold)
      · exact Or.inr (Or.inr hmark)
      · exact Or.inl ⟨rfl, hlt, hi⟩
  · have hsame : copy.fingerprintHash = rg'.fingerprintHash := by rw [hP.rest]
    change copy.fingerprintHash ^^^ 0x999#64 = _
    rw [hsame, h.fingerprint, List.length_append, List.length_singleton]
    rcases Nat.mod_two_eq_zero_or_one slots.length with hz | ho
    · rw [if_pos hz, if_neg (by omega)]
    · rw [if_neg (by omega), if_pos (by omega), BitVec.xor_assoc, BitVec.xor_self, BitVec.xor_zero]
  · have hcopy := hP.rest
    rw [h.rest] at hcopy
    rw [hcopy]

/-- A run within the planes goes through. -/
lemma promoteAll_spec (h : InPlanes rg promotions) :
    ∃ rg', promoteAll (some rg) promotions = some (some rg') ∧
      PromotedTo (targetSlots promotions) rg rg' := by
  induction promotions using List.reverseRecOn with
  | nil => exact ⟨rg, rfl, promotedTo_nil rg⟩
  | append_singleton promotions p ih =>
    rw [InPlanes, targetSlots, List.map_append] at h
    obtain ⟨rg', hrun, hP⟩ := ih fun s hs => h s (List.mem_append_left _ hs)
    obtain ⟨next, hnext, hP'⟩ := hP.promote (h _ (List.mem_append_right _ (List.mem_singleton.mpr rfl)))
    refine ⟨next, ?_, by rw [targetSlots, List.map_append]; exact hP'⟩
    rw [promoteAll, List.foldlM_append, ← promoteAll, hrun]
    simp [executeCompactionPromotion, hnext]

/-- A row group is determined by its bits, its marks and its other fields. -/
lemma PromotedTo.unique {slots' : List ℕ} {rg'' : RowGroup} (h : PromotedTo slots rg rg')
    (h' : PromotedTo slots' rg rg'') (hset : ∀ s, s ∈ slots ↔ s ∈ slots')
    (hparity : slots.length % 2 = slots'.length % 2) : rg' = rg'' := by
  have hplanes : rg'.hotDataPlanes = rg''.hotDataPlanes := by
    have hget : rg'.hotDataPlanes.get = rg''.hotDataPlanes.get := by
      funext addr
      apply BitVec.eq_of_getLsbD_eq
      intro k hk
      rw [Bool.eq_iff_iff, h.bits addr k hk, h'.bits addr k hk]
      simp only [hset]
    have hsize := h.size.trans h'.size.symm
    cases hm : rg'.hotDataPlanes
    cases hm' : rg''.hotDataPlanes
    rw [hm, hm'] at hget hsize
    exact congrArg₂ Memory.mk hsize hget
  have hmaps : rg'.nullMaps = rg''.nullMaps := by
    refine List.ext_getElem (h.mapCount.trans h'.mapCount.symm) fun c hc hc' => ?_
    refine Vector.ext fun i hi => BitVec.eq_of_getLsbD_eq fun j hj => ?_
    have hb : 64 * i + j < 1024 := by omega
    have hmark : rg'.checkBlockPresence c (64 * i + j) = rg''.checkBlockPresence c (64 * i + j) := by
      rw [Bool.eq_iff_iff, h.marks, h'.marks]
      simp only [hset]
    have hpos : RowGroup.blockPosition (64 * i + j) hb = (⟨i, hi⟩, ⟨j, hj⟩) := by
      simp only [RowGroup.blockPosition, Prod.mk.injEq, Fin.mk.injEq]
      omega
    rw [RowGroup.checkBlockPresence, RowGroup.checkBlockPresence, dif_pos ⟨hc, hb⟩, dif_pos ⟨hc', hb⟩,
      hpos, testBit_eq, testBit_eq] at hmark
    exact hmark
  have hhash : rg'.fingerprintHash = rg''.fingerprintHash := by
    rw [h.fingerprint, h'.fingerprint, hparity]
  rw [h.rest, h'.rest, hplanes, hmaps, hhash]

/-- Promotions of one handle to the same slots leave the same row group, in any order and any
number of times, when their numbers are both even or both odd. -/
theorem promotions_order_free (h : InPlanes rg promotions) (h' : InPlanes rg promotions')
    (hset : ∀ s, s ∈ targetSlots promotions ↔ s ∈ targetSlots promotions')
    (hparity : promotions.length % 2 = promotions'.length % 2) :
    promoteAll (some rg) promotions = promoteAll (some rg) promotions' := by
  obtain ⟨g, hrun, hP⟩ := promoteAll_spec h
  obtain ⟨g', hrun', hP'⟩ := promoteAll_spec h'
  have hsame : g = g' := hP.unique hP' hset (by simpa [targetSlots] using hparity)
  rw [hrun, hrun', hsame]

lemma inPlanes_knownString (h : ∀ p ∈ promotions, p.2.toNat < 32) : InPlanes knownString promotions := by
  have hsize : knownString.hotDataPlanes.size = 16777216 := rfl
  intro s hs
  obtain ⟨p, hp, rfl⟩ := List.mem_map.mp hs
  have hslot := h p hp
  rw [hsize]
  omega

theorem promotions_order_free_sample :
    promoteAll (some knownString) [("trace_id", 2), ("service", 3)] =
      promoteAll (some knownString)
        [("trace_id", 3), ("service", 3), ("trace_id", 2), ("service", 2)] :=
  promotions_order_free (inPlanes_knownString (by decide)) (inPlanes_knownString (by decide))
    (by simp [targetSlots]; tauto) rfl

/-- A reader of the rows, of the raw lines or of a pruning decision. -/
structure ReadsAs (slots : List ℕ) (rg rg' : RowGroup) : Prop where
  pruning : ∀ node, evaluatePruning rg' node = evaluatePruning rg node
  rows : ∀ s r, r < RowGroup.rowCapacity → rg'.slotValue s r =
    rg.slotValue s r ||| if s ∈ slots ∧ r < promotedRows rg then promotedValue rg r else 0
  raw : rg'.rawChunkBuffer = rg.rawChunkBuffer ∧ rg'.isCompacted = rg.isCompacted

lemma evaluatePruning_congr (hzones : rg'.zoneMaps = rg.zoneMaps) (hbloom : rg'.stringBloom = rg.stringBloom)
    (node : PredicateNode) : evaluatePruning rg' node = evaluatePruning rg node := by
  induction node with
  | null => rfl
  | node op field valU64 valStr left right ihl ihr =>
    rw [evaluatePruning, evaluatePruning, ihl, ihr]
    have hleaf : leafKeeps rg' op field valU64 valStr = leafKeeps rg op field valU64 valStr := by
      cases op <;> simp only [leafKeeps, zoneKeeps, hzones, hbloom]
    rw [hleaf]

lemma PromotedTo.slotValue (h : PromotedTo slots rg rg') (s : ℕ) {r : ℕ} (hr : r < RowGroup.rowCapacity) :
    rg'.slotValue s r =
      rg.slotValue s r ||| if s ∈ slots ∧ r < promotedRows rg then promotedValue rg r else 0 := by
  have hr' : r < 65536 := hr
  have hbyte : r % 8 < 8 := Nat.mod_lt _ (by norm_num)
  have hcap : promotedRows rg ≤ 65536 := min_le_right _ _
  apply BitVec.eq_of_getLsbD_eq
  intro b hb
  rw [Bool.eq_iff_iff, BitVec.getLsbD_or, Bool.or_eq_true, getLsbD_slotValue _ _ _ hb,
    getLsbD_slotValue _ _ _ hb, h.bits _ _ hbyte]
  refine or_congr_right ?_
  constructor
  · rintro ⟨t, ht, i, hi, hbit, haddr, hk⟩
    -- the written byte and bit are bit 0 of lane i of the slot
    obtain ⟨rfl, rfl, rfl⟩ : b = 0 ∧ s = t ∧ r = i := by omega
    rw [if_pos ⟨ht, hi⟩, getLsbD_promotedValue _ _ hb, hbit]
    rfl
  · intro hset
    split_ifs at hset with hin
    · rw [getLsbD_promotedValue _ _ hb, Bool.and_eq_true, decide_eq_true_iff] at hset
      obtain ⟨rfl, hbit⟩ := hset
      exact ⟨s, hin.1, r, hin.2, hbit, by omega, rfl⟩
    · simp at hset

/-- After any promotions within the planes every pruning decision is as before, and a row of a
slot differs only by the bit of its warm string, where the slot was a target. -/
theorem promotions_read_as (h : InPlanes rg promotions) :
    ∃ rg', promoteAll (some rg) promotions = some (some rg') ∧
      ReadsAs (targetSlots promotions) rg rg' := by
  obtain ⟨rg', hrun, hP⟩ := promoteAll_spec h
  refine ⟨rg', hrun, fun node => ?_, fun s r hr => hP.slotValue s hr, ?_⟩
  · apply evaluatePruning_congr
    · rw [hP.rest]
    · rw [hP.rest]
  · rw [hP.rest]
    exact ⟨rfl, rfl⟩

theorem promotions_read_as_sample :
    ∃ rg', promoteAll (some knownString) [("trace_id", 2), ("service", 3)] = some (some rg') ∧
      ReadsAs [2, 3] knownString rg' :=
  promotions_read_as (inPlanes_knownString (by decide))

end Eureka.Ingest
