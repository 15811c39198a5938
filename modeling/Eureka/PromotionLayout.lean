import Mathlib
import Eureka.IngestChunk
import Eureka.PromotionDaemon

/-! Where a promotion writes. Its byte addresses are those of the word layout that
`ingest_chunk` writes and the readers decode, and all else stays as it was. -/
namespace Eureka.Ingest
open WordBytes BitPlanes HashFilter Storage TransitionRuns

/-- The planes have the size that the constructor gives them. -/
def WellSized (rg : RowGroup) : Prop :=
  rg.hotDataPlanes.size = rg.hotColumnCount * 64 * 8192

/-- The bit that a promotion computes for a warm string. -/
def promotedBit (rg : RowGroup) (i : ℕ) : Bool :=
  rg.stringBloom.contains (rg.warmDictStrings.getD i [])

/-- Its value, as the loop over the bits sees it. -/
def promotedValue (rg : RowGroup) (i : ℕ) : Word := if promotedBit rg i then 1 else 0

/-- The rows that a promotion visits. -/
def promotedRows (rg : RowGroup) : ℕ := min rg.warmDictStrings.length RowGroup.rowCapacity

section layout

/-- Bit `b` of a decoded row, by its byte. -/
theorem getLsbD_slotValue (rg : RowGroup) (slot row : ℕ) {b : ℕ} (hb : b < 64) :
    (rg.slotValue slot row).getLsbD b =
      (rg.hotDataPlanes.get (slot * 64 * 8192 + b * 8192 + row / 8)).getLsbD (row % 8) := by
  have hlane : row % 64 < 64 := Nat.mod_lt _ (by norm_num)
  have haddr : slot * 64 * 8192 + 8 * (b * 1024 + row / 64) + row % 64 / 8 =
      slot * 64 * 8192 + b * 8192 + row / 8 := by omega
  have hbit : row % 64 % 8 = row % 8 := by omega
  rw [RowGroup.slotValue, getLsbD_laneValue _ _ hb, RowGroup.planeWord, Memory.wordIn,
    Memory.loadWord, getLsbD_joinBytes _ hlane, haddr, hbit]

end layout

section loop
variable {rg rg' : RowGroup}

lemma getLsbD_shift (pos k : ℕ) (hp : pos < 8) (hk : k < 8) :
    (1#8 <<< pos).getLsbD k = decide (k = pos) := by
  have h : ∀ p q : Fin 8, (1#8 <<< p.val).getLsbD q.val = decide (q.val = p.val) := by decide
  exact h ⟨pos, hp⟩ ⟨k, hk⟩

/-- A written byte gains its bit, and no other byte changes. -/
lemma orPlaneByte_spec {planes : Memory} {idx pos : ℕ} (hidx : idx < planes.size) (hp : pos < 8) :
    ∃ planes', orPlaneByte planes idx pos = some planes' ∧ planes'.size = planes.size ∧
      ∀ addr, ∀ k < 8, (planes'.get addr).getLsbD k =
        ((planes.get addr).getLsbD k || decide (addr = idx ∧ k = pos)) := by
  refine ⟨_, if_pos hidx, rfl, ?_⟩
  intro addr k hk
  by_cases ha : addr = idx
  · subst ha
    simp [getLsbD_shift pos k hp hk]
  · simp [ha]

lemma one_ushiftRight (c : ℕ) : 1#64 >>> (c + 1) = 0 := by
  apply BitVec.eq_of_toNat_eq
  rw [BitVec.toNat_ushiftRight, Nat.shiftRight_succ_inside]
  simp

/-- The loop over the bits of a value 0 or 1 writes plane 0 or nothing. -/
lemma promoteBits_spec (planes : Memory) (base i : ℕ) (b : Bool)
    (hidx : base + i / 8 < planes.size) :
    ∃ planes', (List.range 64).foldlM (promoteBit base i (if b then 1 else 0)) planes =
        some planes' ∧ planes'.size = planes.size ∧
      ∀ addr, ∀ k < 8, (planes'.get addr).getLsbD k =
        ((planes.get addr).getLsbD k || (b && decide (addr = base + i / 8 ∧ k = i % 8))) := by
  have hrange : List.range 64 = 0 :: (List.range 63).map (· + 1) := List.range_succ_eq_map
  have hpos : i % 8 < 8 := Nat.mod_lt _ (by norm_num)
  cases b with
  | false =>
    refine ⟨planes, foldlM_eq_self fun bit _ => ?_, rfl, by simp⟩
    exact if_neg (by simp)
  | true =>
    obtain ⟨planes', hfirst, hsize, hbits⟩ := orPlaneByte_spec hidx hpos
    have hzero : promoteBit base i 1 planes 0 = some planes' := by
      rw [promoteBit, if_pos (by decide)]
      simpa using hfirst
    have hrest : ∀ bit ∈ (List.range 63).map (· + 1),
        promoteBit base i 1 planes' bit = some planes' := by
      intro bit hbit
      obtain ⟨c, -, rfl⟩ := List.mem_map.mp hbit
      have hone : (1 : Word) >>> (c + 1) = 0 := one_ushiftRight c
      rw [promoteBit, hone]
      exact if_neg (by simp)
    refine ⟨planes', ?_, hsize, by simpa using hbits⟩
    rw [hrange, List.foldlM_cons, if_pos rfl, hzero, Option.bind_eq_bind, Option.bind_some]
    exact foldlM_eq_self hrest

/-- What `m` rows of a promotion to a slot leave of a row group. -/
structure Promoted (slot m : ℕ) (rg rg' : RowGroup) : Prop where
  size : rg'.hotDataPlanes.size = rg.hotDataPlanes.size
  bits : ∀ addr, ∀ k < 8, (rg'.hotDataPlanes.get addr).getLsbD k =
    ((rg.hotDataPlanes.get addr).getLsbD k ||
      decide (∃ i < m, promotedBit rg i = true ∧ addr = slot * 64 * 8192 + i / 8 ∧ k = i % 8))
  mapCount : rg'.nullMaps.length = rg.nullMaps.length
  marks : ∀ c b, rg'.checkBlockPresence c b = true ↔
    (c = slot ∧ slot < rg.nullMaps.length ∧ ∃ i < m, b = i / 64) ∨
      rg.checkBlockPresence c b = true
  rest : rg' = { rg with hotDataPlanes := rg'.hotDataPlanes, nullMaps := rg'.nullMaps }

lemma promoted_zero (slot : ℕ) (rg : RowGroup) : Promoted slot 0 rg rg :=
  ⟨rfl, by simp, rfl, by simp, rfl⟩

lemma setBlockPresence_rest (rg : RowGroup) (col block : ℕ) :
    rg.setBlockPresence col block =
      { rg with nullMaps := (rg.setBlockPresence col block).nullMaps } := by
  unfold RowGroup.setBlockPresence
  split_ifs <;> rfl

/-- A mark shows in its column, if there is one, at its block. -/
lemma check_mark (rg : RowGroup) (col : ℕ) {block : ℕ} (hb : block < 1024) (c b : ℕ) :
    (rg.setBlockPresence col block).checkBlockPresence c b = true ↔
      (c = col ∧ col < rg.nullMaps.length ∧ b = block) ∨ rg.checkBlockPresence c b = true := by
  by_cases hc : col < rg.nullMaps.length
  · rw [rg.check_setBlockPresence hc hb]
    tauto
  · have hsame : rg.setBlockPresence col block = rg := dif_neg fun h => hc h.1
    rw [hsame]
    tauto

/-- One row of the promotion loop. -/
lemma Promoted.step {slot m : ℕ} (h : Promoted slot m rg rg') (hm : m < RowGroup.rowCapacity)
    (hsize : (slot + 1) * 64 * 8192 ≤ rg.hotDataPlanes.size) :
    ∃ next, promoteRow slot rg' m = some next ∧ Promoted slot (m + 1) rg next := by
  have hcap : m < 65536 := hm
  have hbit : rg'.stringBloom.contains (rg'.warmDictStrings.getD m []) = promotedBit rg m := by
    rw [h.rest, promotedBit]
  obtain ⟨planes, hplanes, hps, hpb⟩ := promoteBits_spec rg'.hotDataPlanes (slot * 64 * 8192) m
    (promotedBit rg m) (by rw [h.size]; omega)
  obtain ⟨mid, hmid⟩ : ∃ mid, mid = { rg' with hotDataPlanes := planes } := ⟨_, rfl⟩
  have hrow : promoteRow slot rg' m = some (mid.setBlockPresence slot (m / 64)) := by
    rw [promoteRow, hbit]
    exact Option.map_eq_some_iff.mpr ⟨planes, hplanes, by rw [hmid]⟩
  have hmark := setBlockPresence_rest mid slot (m / 64)
  have hlen : mid.nullMaps.length = rg.nullMaps.length := by
    rw [hmid]
    exact h.mapCount
  refine ⟨_, hrow, ?_, ?_, ?_, ?_, ?_⟩
  · rw [hmark, hmid]
    exact hps.trans h.size
  · intro addr k hk
    rw [hmark, hmid]
    rw [hpb addr k hk, h.bits addr k hk, Bool.or_assoc]
    congr 1
    rw [Bool.eq_iff_iff, Bool.or_eq_true, Bool.and_eq_true, decide_eq_true_iff, decide_eq_true_iff,
      decide_eq_true_iff, Nat.exists_lt_succ_right]
  · rw [RowGroup.setBlockPresence_length, hlen]
  · intro c b
    have hold : mid.checkBlockPresence c b = rg'.checkBlockPresence c b :=
      checkBlockPresence_congr (by rw [hmid]) c b
    rw [check_mark mid slot (by omega : m / 64 < 1024), hold, h.marks, Nat.exists_lt_succ_right,
      hlen, ← or_assoc, ← and_or_left, ← and_or_left, or_comm (a := b = m / 64)]
  · rw [hmark, hmid, h.rest]

/-- The whole loop, on planes that reach past the slot. -/
theorem promotedCopy_spec {slot : Byte} (hsize : (slot.toNat + 1) * 64 * 8192 ≤ rg.hotDataPlanes.size) :
    ∃ rg', promotedCopy slot rg =
        some { rg' with fingerprintHash := rg'.fingerprintHash ^^^ 0x999#64 } ∧
      Promoted slot.toNat (promotedRows rg) rg rg' := by
  obtain ⟨rg', hloop, hP⟩ := foldlM_range_induction (f := promoteRow slot.toNat)
    (P := fun m g => Promoted slot.toNat m rg g) (n := promotedRows rg)
    (promoted_zero slot.toNat rg)
    (fun m g hm hg => hg.step (lt_of_lt_of_le hm (min_le_right _ _)) hsize)
  exact ⟨rg', Option.map_eq_some_iff.mpr ⟨rg', hloop, rfl⟩, hP⟩

end loop

section exact
variable {rg rg' : RowGroup}

lemma getLsbD_promotedValue (rg : RowGroup) (i : ℕ) {b : ℕ} (hb : b < 64) :
    (promotedValue rg i).getLsbD b = (decide (b = 0) && promotedBit rg i) := by
  unfold promotedValue
  cases promotedBit rg i with
  | false => simp
  | true => simp [hb]

/-- A row after `m` rows of a promotion: the byte and bit that row `i` writes are those of bit 0
of lane `i`, and of nothing else in any slot. -/
lemma Promoted.slotValue {slot m : ℕ} (h : Promoted slot m rg rg') (hm : m ≤ RowGroup.rowCapacity)
    (s : ℕ) {r : ℕ} (hr : r < RowGroup.rowCapacity) :
    rg'.slotValue s r =
      rg.slotValue s r ||| if s = slot ∧ r < m then promotedValue rg r else 0 := by
  have hm' : m ≤ 65536 := hm
  have hr' : r < 65536 := hr
  have hbyte : r % 8 < 8 := Nat.mod_lt _ (by norm_num)
  apply BitVec.eq_of_getLsbD_eq
  intro b hb
  rw [BitVec.getLsbD_or, getLsbD_slotValue _ _ _ hb, getLsbD_slotValue _ _ _ hb,
    h.bits _ _ hbyte]
  congr 1
  have haddr : ∀ i < m, (s * 64 * 8192 + b * 8192 + r / 8 = slot * 64 * 8192 + i / 8 ∧
      r % 8 = i % 8) ↔ b = 0 ∧ s = slot ∧ r = i := by
    intro i hi
    omega
  rw [Bool.eq_iff_iff, decide_eq_true_iff]
  constructor
  · rintro ⟨i, hi, hbit, hat⟩
    obtain ⟨rfl, hs, rfl⟩ := (haddr i hi).mp hat
    rw [if_pos ⟨hs, hi⟩, getLsbD_promotedValue _ _ hb, hbit]
    rfl
  · intro hset
    split_ifs at hset with hin
    · rw [getLsbD_promotedValue _ _ hb, Bool.and_eq_true, decide_eq_true_iff] at hset
      exact ⟨r, hin.2, hset.2, (haddr r hin.2).mpr ⟨hset.1, hin.1, rfl⟩⟩
    · simp at hset

end exact

section store

end store

section sizes
variable {parser : Simdjson.Parser} {slicer : Apex.BitSlicer} {slots : Slots} {lines : List Bytes}
  {rg rg' : RowGroup}

/-- From 8192 hot columns on the product wraps. -/
lemma wellSized_new {hotCols : ℕ} (h : hotCols < 8192) (warmCols : ℕ) :
    WellSized (RowGroup.new hotCols warmCols) := by
  change hotCols * 64 * 8192 % 2 ^ 32 = hotCols * 64 * 8192
  omega

/-- The size of the planes and the number of hot columns agree. -/
structure SameShape (rg rg' : RowGroup) : Prop where
  size : rg'.hotDataPlanes.size = rg.hotDataPlanes.size
  columns : rg'.hotColumnCount = rg.hotColumnCount

lemma WellSized.of_sameShape (h : WellSized rg) (hshape : SameShape rg rg') : WellSized rg' := by
  rw [WellSized, hshape.size, hshape.columns]
  exact h

lemma SameShape.addTrace (h : SameShape rg rg') (trace : Option Bytes) :
    SameShape rg (addTrace rg' trace) := by
  cases trace with
  | none => exact h
  | some t => exact ⟨h.size, h.columns⟩

lemma SameShape.ingestRow {block i : ℕ} {st : ChunkState} (h : SameShape rg st.rg) :
    SameShape rg (ingestRow parser slots lines block st i).rg := by
  cases hline : lines[64 * block + i]? with
  | none =>
    simp only [Ingest.ingestRow, hline]
    exact h
  | some line =>
    rw [ingestRow_some hline]
    apply SameShape.addTrace
    exact ⟨h.size, h.columns⟩

lemma storePlanes_size (sp lp : Lanes) (block : ℕ) (m : Memory) :
    ((List.range 64).foldl (storePlane slots sp lp block) m).size = m.size :=
  FixedBlocks.foldl_range_induction (n := 64) (s := m) (f := storePlane slots sp lp block)
    (P := fun _ m' => m'.size = m.size) rfl (by
      intro bit m' _ h
      exact h)

/-- Stores of words and marks keep the shape. -/
lemma SameShape.ingestBlock (block : ℕ) (h : SameShape rg rg') :
    SameShape rg (ingestBlock parser slicer slots lines rg' block) := by
  obtain ⟨maps, hmaps⟩ := markBlock_fields slots rg' block
  have hmark : SameShape rg (markBlock slots rg' block) := by
    rw [hmaps]
    exact ⟨h.size, h.columns⟩
  have hrows := FixedBlocks.foldl_range_induction (n := 64)
    (s := (⟨markBlock slots rg' block, Vector.replicate 64 0, Vector.replicate 64 0⟩ : ChunkState))
    (f := Ingest.ingestRow parser slots lines block) (P := fun _ st => SameShape rg st.rg) hmark
    (fun _ _ _ hst => hst.ingestRow)
  rw [Ingest.ingestBlock]
  constructor
  · simp only [storePlanes_size]
    exact hrows.size
  · exact hrows.columns

lemma sameShape_ingestChunk (a : AdaptiveIngester) (lines : List Bytes) :
    SameShape (RowGroup.new 32 32) (ingestChunk parser slicer a lines).1 := by
  have hloop := FixedBlocks.foldl_range_induction (n := numBlocksOf lines.length)
    (s := RowGroup.new 32 32) (f := Ingest.ingestBlock parser slicer (slotsOf (assignSlots a)) lines)
    (P := fun _ rg => SameShape (RowGroup.new 32 32) rg) ⟨rfl, rfl⟩
    (fun k _ _ h => h.ingestBlock k)
  exact ⟨hloop.size, hloop.columns⟩

lemma wellSized_ingestChunk (a : AdaptiveIngester) (lines : List Bytes) :
    WellSized (ingestChunk parser slicer a lines).1 :=
  (wellSized_new (by norm_num) 32).of_sameShape (sameShape_ingestChunk a lines)

lemma slot_in_planes {slot : ℕ} (h : WellSized rg) (ht : slot < rg.hotColumnCount) :
    (slot + 1) * 64 * 8192 ≤ rg.hotDataPlanes.size := by
  rw [h]
  exact Nat.mul_le_mul_right 8192 (Nat.mul_le_mul_right 64 ht)

/-- A promotion keeps the size, so its result can be promoted again. -/
lemma WellSized.promotedCopy {slot : Byte} (h : WellSized rg) (ht : slot.toNat < rg.hotColumnCount)
    (hcopy : promotedCopy slot rg = some rg') : WellSized rg' := by
  obtain ⟨copy, hspec, hP⟩ := promotedCopy_spec (slot_in_planes h ht)
  obtain rfl := Option.some.inj (hspec.symm.trans hcopy)
  change copy.hotDataPlanes.size = copy.hotColumnCount * 64 * 8192
  rw [hP.size, h, hP.rest]

end sizes

end Eureka.Ingest
