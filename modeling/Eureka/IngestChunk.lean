import Mathlib
import Eureka.IngestColumns

/-! `ingest_chunk` as a whole, from any slot map that the ingester can have reached. -/
namespace Eureka.Ingest
open WordBytes BitPlanes Apex Simdjson FixedBlocks Storage

variable {parser : Parser} {slicer : BitSlicer}

/-- The ingesters that calls of the public interface can produce. -/
inductive Reachable (parser : Parser) (slicer : BitSlicer) : AdaptiveIngester → Prop
  | new : Reachable parser slicer .new
  | ingest {a : AdaptiveIngester} (lines : List Bytes) : Reachable parser slicer a →
      Reachable parser slicer (ingestChunk parser slicer a lines).2
  | append {a : AdaptiveIngester} (io : WalOutcome) (wal : WalFile) (lines : List Bytes) :
      Reachable parser slicer a → Reachable parser slicer (appendRawBatch io a wal lines).2.1
  | transcode {a : AdaptiveIngester} (walOpens : Bool) (wal : WalFile) (h : Option RowGroup) :
      Reachable parser slicer a →
      Reachable parser slicer (transcodeBatchNow parser slicer walOpens a wal h).ingester

/-- Either no field has a slot yet or the three fields have theirs. -/
def SlotsFixed (a : AdaptiveIngester) : Prop :=
  (a.fieldToSlotMap = (fun _ => none) ∧ a.nextHotSlot = 0 ∧ a.nextWarmSlot = 0) ∨
  (a.fieldToSlotMap "status" = some 0 ∧ a.fieldToSlotMap "latency" = some 1 ∧
    a.fieldToSlotMap "trace_id" = some 32)

lemma assignSlots_fields {a : AdaptiveIngester} (h : SlotsFixed a) :
    (assignSlots a).fieldToSlotMap "status" = some 0 ∧
    (assignSlots a).fieldToSlotMap "latency" = some 1 ∧
    (assignSlots a).fieldToSlotMap "trace_id" = some 32 := by
  rcases h with ⟨hm, hh, hw⟩ | ⟨hs, hl, ht⟩
  · simp [assignSlots, assignWarmSlot, assignHotSlot, hm, hh, hw, Function.update]
  · simp [assignSlots, assignWarmSlot, assignHotSlot, hs, hl, ht]

lemma ingestChunk_slotMap (a : AdaptiveIngester) (lines : List Bytes) :
    (ingestChunk parser slicer a lines).2 = assignSlots a := rfl

theorem Reachable.slotsFixed {a : AdaptiveIngester} (h : Reachable parser slicer a) :
    SlotsFixed a := by
  induction h with
  | new => exact Or.inl ⟨rfl, rfl, rfl⟩
  | ingest lines _ ih => exact Or.inr (assignSlots_fields ih)
  | append io wal lines _ ih => exact ih
  | @transcode a walOpens wal handle _ ih =>
    unfold transcodeBatchNow
    cases handle with
    | none => exact ih
    | some rg =>
      dsimp only
      split_ifs
      · exact ih
      · exact Or.inr (assignSlots_fields ih)

def fixedSlots : Slots := ⟨0, 1, 32⟩

lemma fixedSlots_valid : fixedSlots.Valid := ⟨by decide, by decide, by decide, by decide⟩

theorem slotsOf_assignSlots {a : AdaptiveIngester} (h : SlotsFixed a) :
    slotsOf (assignSlots a) = fixedSlots := by
  obtain ⟨hs, hl, ht⟩ := assignSlots_fields h
  simp [slotsOf, hs, hl, ht, fixedSlots]

lemma numBlocksOf_eq (n : ℕ) : numBlocksOf n = blockCount (min n 65536) := by
  unfold numBlocksOf blockCount
  split_ifs <;> omega

lemma numBlocksOf_le (n : ℕ) : numBlocksOf n ≤ 1024 := by
  unfold numBlocksOf
  split_ifs <;> omega

lemma take_numBlocksOf (lines : List Bytes) :
    lines.take (64 * numBlocksOf lines.length) = lines.take 65536 := by
  have hn : numBlocksOf lines.length = 1024 ∨
      lines.length ≤ 64 * numBlocksOf lines.length ∧ lines.length ≤ 65536 := by
    unfold numBlocksOf
    split_ifs <;> omega
  rcases hn with h | ⟨h, h'⟩
  · rw [h]
  · rw [List.take_of_length_le h, List.take_of_length_le h']

/-- The loop invariant at the end of the chunk. -/
theorem holds_ingestChunk (a : AdaptiveIngester) (lines : List Bytes) (h : SlotsFixed a) :
    Holds parser fixedSlots lines (64 * numBlocksOf lines.length) (numBlocksOf lines.length)
      (numBlocksOf lines.length) (ingestChunk parser slicer a lines).1 := by
  have hloop := foldl_range_induction (n := numBlocksOf lines.length) (s := RowGroup.new 32 32)
    (f := ingestBlock parser slicer fixedSlots lines)
    (P := fun k rg => Holds parser fixedSlots lines (64 * k) k k rg)
    (holds_new fixedSlots_valid)
    (fun k rg hk hrg => holds_ingestBlock slicer fixedSlots_valid
      (by have := numBlocksOf_le lines.length; omega) hrg)
  rw [← slotsOf_assignSlots h] at hloop ⊢
  exact ⟨hloop.zoneCount, hloop.statusZone, hloop.latencyZone, hloop.bloom, hloop.warm,
    hloop.mapCount, hloop.presence, hloop.planes, hloop.raw, hloop.staged⟩

/-- Decoding any row of a hot slot. -/
theorem Holds.slotValue {slots : Slots} {lines : List Bytes} {m k p : ℕ} {rg : RowGroup}
    (h : Holds parser slots lines m k p rg) {s r : ℕ} (hs : s < 32) (hr : r < 65536) :
    rg.slotValue s r = if r / 64 < k then (slotColumn parser slots lines s).getD r 0 else 0 := by
  have hm : r % 64 < 64 := Nat.mod_lt _ (by norm_num)
  have hplanes := fun b hb => h.planes s hs b hb (r / 64) (by omega)
  split_ifs with hk
  · simp only [if_pos hk] at hplanes
    rw [RowGroup.slotValue, laneValue_of_transpose hplanes hm]
    simp [blockLanes, laneOf_divMod]
  · simp only [if_neg hk] at hplanes
    rw [RowGroup.slotValue, laneValue_congr hplanes, laneValue_zero]

/-- A zone map describes a list of values: presence, minimum and maximum are exact. -/
structure Describes (z : ZoneMap) (values : List Word) : Prop where
  hasValues : z.hasValues = true ↔ values ≠ []
  minimum : values ≠ [] → z.minVal ∈ values ∧ ∀ v ∈ values, z.minVal ≤ v
  maximum : values ≠ [] → z.maxVal ∈ values ∧ ∀ v ∈ values, v ≤ z.maxVal

lemma describes_ofValues (values : List Word) : Describes (.ofValues values) values where
  hasValues := ZoneMap.ofValues_hasValues values
  minimum h := ⟨(ZoneMap.ofValues_attained h).1, fun _ hv => (ZoneMap.ofValues_bounds hv).1⟩
  maximum h := ⟨(ZoneMap.ofValues_attained h).2, fun _ hv => (ZoneMap.ofValues_bounds hv).2⟩

/-- What a chunk of lines leaves in a row group, for the rows that it admits. -/
structure StoredExactly (parser : Parser) (slots : Slots) (lines : List Bytes) (rg : RowGroup) :
    Prop where
  rows : ∀ r (hr : r < min lines.length 65536),
    rg.slotValue slots.status r = statusOf parser lines[r] ∧
    rg.slotValue slots.latency r = latencyOf parser lines[r]
  padding : ∀ r, min lines.length 65536 ≤ r → r < 65536 →
    rg.slotValue slots.status r = 0 ∧ rg.slotValue slots.latency r = 0
  otherSlots : ∀ s < 32, s ≠ slots.status → s ≠ slots.latency →
    ∀ r < 65536, rg.slotValue s r = 0
  statusZone : ∃ z, rg.zoneMaps[slots.status]? = some z ∧
    Describes z ((lines.take 65536).map (statusOf parser))
  latencyZone : ∃ z, rg.zoneMaps[slots.latency]? = some z ∧
    Describes z ((lines.take 65536).map (latencyOf parser))
  presence : ∀ b, ∀ c ∈ [slots.status, slots.latency, slots.trace],
    (rg.checkBlockPresence c b = true ↔ b < blockCount (min lines.length 65536))
  warm : rg.warmDictStrings = (lines.take 65536).filterMap (warmOf parser)

theorem Holds.storedExactly {slots : Slots} {lines : List Bytes} {rg : RowGroup}
    (hs : slots.Valid) (h : Holds parser slots lines (64 * numBlocksOf lines.length)
      (numBlocksOf lines.length) (numBlocksOf lines.length) rg) :
    StoredExactly parser slots lines rg := by
  have hn := numBlocksOf_eq lines.length
  constructor
  · intro r hr
    have hk : r / 64 < numBlocksOf lines.length := by rw [hn, blockCount]; omega
    rw [h.slotValue hs.status (by omega), h.slotValue hs.latency (by omega), if_pos hk, if_pos hk,
      slotColumn_status, slotColumn_latency hs, List.getD_eq_getElem _ _ (by simp; omega),
      List.getD_eq_getElem _ _ (by simp; omega), List.getElem_map, List.getElem_map]
    exact ⟨rfl, rfl⟩
  · intro r hge hlt
    -- past the last admitted row either the block is missing or the line is
    have hzero : ∀ f : Bytes → Word, (if r / 64 < numBlocksOf lines.length then
        (lines.map f).getD r 0 else 0) = 0 := by
      intro f
      split_ifs with hk
      · exact List.getD_eq_default _ _ (by rw [List.length_map]; omega)
      · rfl
    rw [h.slotValue hs.status hlt, h.slotValue hs.latency hlt, slotColumn_status,
      slotColumn_latency hs]
    exact ⟨hzero _, hzero _⟩
  · intro s hslot h1 h2 r hr
    rw [h.slotValue hslot hr, slotColumn_other h1 h2]
    simp
  · exact ⟨_, h.statusZone, by rw [take_numBlocksOf]; exact describes_ofValues _⟩
  · exact ⟨_, h.latencyZone, by rw [take_numBlocksOf]; exact describes_ofValues _⟩
  · intro b c hc
    have hcol : c = slots.status ∨ c = slots.latency ∨ c = slots.trace := by simpa using hc
    rw [h.presence, hn]
    exact and_iff_right hcol
  · rw [h.warm, take_numBlocksOf]

/-- Columnar ingest stores exactly the admitted rows, from every reachable slot map. -/
theorem ingestChunk_storedExactly {a : AdaptiveIngester} (ha : Reachable parser slicer a)
    (lines : List Bytes) :
    StoredExactly parser (slotsOf (ingestChunk parser slicer a lines).2) lines
      (ingestChunk parser slicer a lines).1 := by
  rw [ingestChunk_slotMap, slotsOf_assignSlots ha.slotsFixed]
  exact (holds_ingestChunk a lines ha.slotsFixed).storedExactly fixedSlots_valid

theorem ingestChunk_storedExactly_new :
    StoredExactly (.ofStream [some fullDocument])
      (slotsOf (ingestChunk (.ofStream [some fullDocument]) .reference .new [fullLine, fullLine]).2)
      [fullLine, fullLine]
      (ingestChunk (.ofStream [some fullDocument]) .reference .new [fullLine, fullLine]).1 :=
  ingestChunk_storedExactly .new _

end Eureka.Ingest
