import Mathlib
import Eureka.IngestChunk

/-! What one transcode acknowledges and what it stores. The count comes from the raw
buffer, the rows from the capped block loop of `ingest_chunk`. -/
namespace Eureka.Ingest
open WordBytes Apex Simdjson Storage

variable {parser : Parser} {slicer : BitSlicer}

lemma transcode_staged (opens : Bool) (a : AdaptiveIngester) (wal : WalFile) (batch : List Bytes) :
    transcodeBatchNow parser slicer opens a wal (some (stagedGroup batch)) =
      ⟨batch.length,
        { assignSlots a with
          activeBufferDepth := (assignSlots a).activeBufferDepth - BitVec.ofNat 64 batch.length },
        truncateWal opens wal,
        some { (ingestChunk parser slicer a batch).1 with isCompacted := true }⟩ := rfl

lemma assignSlots_depth (a : AdaptiveIngester) :
    (assignSlots a).activeBufferDepth = a.activeBufferDepth := by
  have hhot : ∀ b f, (assignHotSlot b f).activeBufferDepth = b.activeBufferDepth := by
    intro b f
    unfold assignHotSlot
    split_ifs <;> rfl
  have hwarm : ∀ b f, (assignWarmSlot b f).activeBufferDepth = b.activeBufferDepth := by
    intro b f
    unfold assignWarmSlot
    split_ifs <;> rfl
  rw [assignSlots, hwarm, hhot, hhot]

/-- What the caller of a transcode is told, and what it relies on afterwards. -/
structure Acknowledged (parser : Parser) (a : AdaptiveIngester) (batch : List Bytes)
    (t : Transcoded) : Prop where
  drained : t.linesDrained = batch.length
  depth : t.ingester.activeBufferDepth = a.activeBufferDepth - BitVec.ofNat 64 t.linesDrained
  rows : ∃ rg, t.handle = some rg ∧ rg.isCompacted = true ∧ ∀ r (hr : r < batch.length),
    rg.row? (slotsOf t.ingester).status r = some (statusOf parser batch[r]) ∧
    rg.row? (slotsOf t.ingester).latency r = some (latencyOf parser batch[r])

/-- No row group has a row past its 1024 blocks. -/
theorem Acknowledged.length_le {a : AdaptiveIngester} {batch : List Bytes} {t : Transcoded}
    (h : Acknowledged parser a batch t) : batch.length ≤ 65536 := by
  obtain ⟨rg, -, -, hrows⟩ := h.rows
  by_contra hlen
  have hrow := (hrows 65536 (by omega)).1
  simp [RowGroup.row?, RowGroup.rowCapacity] at hrow

lemma slotsOf_depth (a : AdaptiveIngester) (d : Word) :
    slotsOf { a with activeBufferDepth := d } = slotsOf a := rfl

theorem acknowledged_of_length_le (opens : Bool) {a : AdaptiveIngester}
    (ha : Reachable parser slicer a) (wal : WalFile) {batch : List Bytes}
    (hlen : batch.length ≤ 65536) :
    Acknowledged parser a batch
      (transcodeBatchNow parser slicer opens a wal (some (stagedGroup batch))) := by
  have hstored : StoredExactly parser fixedSlots batch (ingestChunk parser slicer a batch).1 :=
    (holds_ingestChunk a batch ha.slotsFixed).storedExactly fixedSlots_valid
  have hslots := slotsOf_assignSlots ha.slotsFixed
  have hmin : min batch.length 65536 = batch.length := min_eq_left hlen
  rw [transcode_staged]
  refine ⟨rfl, ?_, _, rfl, rfl, ?_⟩
  · rw [assignSlots_depth]
  · intro r hr
    rw [slotsOf_depth, hslots]
    have hcap : r < RowGroup.rowCapacity := lt_of_lt_of_le hr hlen
    obtain ⟨hs, hl⟩ := hstored.rows r (by rw [hmin]; exact hr)
    rw [RowGroup.row?, RowGroup.row?, if_pos hcap, if_pos hcap]
    exact ⟨congrArg some hs, congrArg some hl⟩

/-- A staged batch, transcoded from any later state of the ingester, keeps a row for every
acknowledged line exactly when it fits the row group. -/
theorem transcode_acknowledged_iff (io : WalOutcome) (opens : Bool) (a₀ : AdaptiveIngester)
    {a : AdaptiveIngester} (ha : Reachable parser slicer a) (wal₀ wal : WalFile)
    (batch : List Bytes) :
    Acknowledged parser a batch (transcodeBatchNow parser slicer opens a wal
      (some (appendRawBatch io a₀ wal₀ batch).1)) ↔ batch.length ≤ 65536 :=
  ⟨Acknowledged.length_le, acknowledged_of_length_le opens ha wal⟩

theorem transcode_acknowledged_iff_sample :
    Acknowledged (.ofStream []) (appendRawBatch (.writes none) .new none [[0x7b#8]]).2.1 [[0x7b#8]]
      (transcodeBatchNow (.ofStream []) .reference true
        (appendRawBatch (.writes none) .new none [[0x7b#8]]).2.1 none
        (some (appendRawBatch (.writes none) .new none [[0x7b#8]]).1)) ↔
    [[0x7b#8]].length ≤ 65536 :=
  transcode_acknowledged_iff (.writes none) true .new (.append _ _ _ .new) none none [[0x7b#8]]

/-- 65537 empty lines: the last one is acknowledged and has no row. -/
theorem transcode_drops_row :
    ¬ Acknowledged (.ofStream []) (appendRawBatch (.writes none) .new none
        (List.replicate 65537 [])).2.1 (List.replicate 65537 [])
      (transcodeBatchNow (.ofStream []) .reference true
        (appendRawBatch (.writes none) .new none (List.replicate 65537 [])).2.1
        (appendRawBatch (.writes none) .new none (List.replicate 65537 [])).2.2
        (some (appendRawBatch (.writes none) .new none (List.replicate 65537 [])).1)) := by
  intro h
  have hlen := h.length_le
  rw [List.length_replicate] at hlen
  exact absurd hlen (by norm_num)

end Eureka.Ingest
