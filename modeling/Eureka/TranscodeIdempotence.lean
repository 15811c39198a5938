import Mathlib
import Eureka.PromotionDaemon
import Eureka.Transcode

/-! A second transcode of columnar data. The compaction flag tells columnar groups from staged
ones, and only a transcode sets it: a group straight from `ingest_chunk` looks staged. -/
namespace Eureka.Ingest
open WordBytes Apex Simdjson Storage TransitionRuns

/-- What `async_background_transcode` leaves: the count is dropped. -/
def asyncBackgroundTranscode (parser : Parser) (slicer : BitSlicer) (walOpens : Bool)
    (a : AdaptiveIngester) (wal : WalFile) (handle : Option RowGroup) :
    AdaptiveIngester × WalFile × Option RowGroup :=
  let t := transcodeBatchNow parser slicer walOpens a wal handle
  (t.ingester, t.wal, t.handle)

/-- Where a columnar group was built. -/
inductive Origin
  | chunk (lines : List Bytes)
  | transcode

/-- The row groups with columnar rows: from `ingest_chunk`, from a transcode that stored one,
and promoted copies of either. -/
inductive Columnar (parser : Parser) (slicer : BitSlicer) : Origin → RowGroup → Prop
  | chunk {a : AdaptiveIngester} (ha : Reachable parser slicer a) (lines : List Bytes) :
      Columnar parser slicer (.chunk lines) (ingestChunk parser slicer a lines).1
  | transcode {a : AdaptiveIngester} (ha : Reachable parser slicer a) (walOpens : Bool)
      (wal : WalFile) {oldRg rg : RowGroup} (hstaged : oldRg.isCompacted = false)
      (hstored : (transcodeBatchNow parser slicer walOpens a wal (some oldRg)).handle = some rg) :
      Columnar parser slicer .transcode rg
  | promote {origin : Origin} {rg rg' : RowGroup} (slot : Byte)
      (h : Columnar parser slicer origin rg) (hcopy : promotedCopy slot rg = some rg') :
      Columnar parser slicer origin rg'

/-- The columns of a group: its rows with their marks and dictionary, and both indexes. -/
structure SameColumns (rg rg' : RowGroup) : Prop where
  planes : rg'.hotDataPlanes = rg.hotDataPlanes
  marks : rg'.nullMaps = rg.nullMaps
  strings : rg'.warmDictStrings = rg.warmDictStrings
  zones : rg'.zoneMaps = rg.zoneMaps
  bloom : rg'.stringBloom = rg.stringBloom

/-- A call on the group that changes nothing. -/
structure LeavesAll (rg : RowGroup) (a : AdaptiveIngester) (wal : WalFile) (a' : AdaptiveIngester)
    (wal' : WalFile) (handle' : Option RowGroup) : Prop where
  group : ∃ rg', handle' = some rg' ∧ SameColumns rg rg'
  depth : a'.activeBufferDepth = a.activeBufferDepth
  log : wal' = wal

/-- A transcode of the group, by either entry point, does nothing. -/
structure Repeatable (parser : Parser) (slicer : BitSlicer) (walOpens : Bool) (a : AdaptiveIngester)
    (wal : WalFile) (rg : RowGroup) : Prop where
  drained : (transcodeBatchNow parser slicer walOpens a wal (some rg)).linesDrained = 0
  leaves : LeavesAll rg a wal (transcodeBatchNow parser slicer walOpens a wal (some rg)).ingester
    (transcodeBatchNow parser slicer walOpens a wal (some rg)).wal
    (transcodeBatchNow parser slicer walOpens a wal (some rg)).handle
  async : LeavesAll rg a wal (asyncBackgroundTranscode parser slicer walOpens a wal (some rg)).1
    (asyncBackgroundTranscode parser slicer walOpens a wal (some rg)).2.1
    (asyncBackgroundTranscode parser slicer walOpens a wal (some rg)).2.2

/-- The transcode is told apart from a staged group, or has nothing to lose: no rows, and a log
that the truncation leaves as it is. -/
def Origin.Spared (walOpens : Bool) (wal : WalFile) : Origin → Prop
  | .chunk lines => lines = [] ∧ (walOpens = false ∨ wal = some [])
  | .transcode => True

/-- What a promotion leaves alone. -/
structure KeepsIndexes (rg rg' : RowGroup) : Prop where
  zones : rg'.zoneMaps = rg.zoneMaps
  bloom : rg'.stringBloom = rg.stringBloom
  strings : rg'.warmDictStrings = rg.warmDictStrings

variable {parser : Parser} {slicer : BitSlicer} {rg rg' : RowGroup}

lemma SameColumns.refl (rg : RowGroup) : SameColumns rg rg := ⟨rfl, rfl, rfl, rfl, rfl⟩

lemma setBlockPresence_indexes (rg : RowGroup) (col block : ℕ) :
    KeepsIndexes rg (rg.setBlockPresence col block) := by
  unfold RowGroup.setBlockPresence
  split_ifs <;> exact ⟨rfl, rfl, rfl⟩

lemma promoteRow_indexes {slot i : ℕ} (h : promoteRow slot rg i = some rg') :
    KeepsIndexes rg rg' := by
  obtain ⟨planes, -, rfl⟩ := Option.map_eq_some_iff.mp h
  obtain ⟨hzones, hbloom, hstrings⟩ :=
    setBlockPresence_indexes { rg with hotDataPlanes := planes } slot (i / 64)
  exact ⟨hzones, hbloom, hstrings⟩

theorem promotedCopy_indexes {slot : Byte} (h : promotedCopy slot rg = some rg') :
    KeepsIndexes rg rg' := by
  obtain ⟨copy, hcopy, rfl⟩ := Option.map_eq_some_iff.mp h
  have hrows := foldlM_related (R := KeepsIndexes) (fun _ => ⟨rfl, rfl, rfl⟩)
    (fun _ _ _ h h' => ⟨h'.zones.trans h.zones, h'.bloom.trans h.bloom,
      h'.strings.trans h.strings⟩)
    (fun _ _ _ hrow => promoteRow_indexes hrow) _ hcopy
  exact ⟨hrows.zones, hrows.bloom, hrows.strings⟩

/-- Without warm strings a promotion changes only the fingerprint. -/
lemma promotedCopy_of_empty {slot : Byte} (hnone : rg.warmDictStrings = [])
    (h : promotedCopy slot rg = some rg') : SameColumns rg rg' := by
  obtain ⟨copy, hcopy, rfl⟩ := Option.map_eq_some_iff.mp h
  rw [hnone] at hcopy
  obtain rfl := Option.some.inj hcopy
  exact ⟨rfl, rfl, rfl, rfl, rfl⟩

lemma transcode_staged_handle {walOpens : Bool} {a : AdaptiveIngester} {wal : WalFile}
    (h : rg.isCompacted = false) :
    (transcodeBatchNow parser slicer walOpens a wal (some rg)).handle =
      some { (ingestChunk parser slicer a rg.rawChunkBuffer).1 with isCompacted := true } := by
  simp only [transcodeBatchNow, h, Bool.false_eq_true, if_false]

/-- A group from a transcode is flagged. -/
lemma Columnar.compacted (h : Columnar parser slicer .transcode rg) : rg.isCompacted = true := by
  generalize ho : Origin.transcode = origin at h
  induction h with
  | chunk ha lines => exact absurd ho (by simp)
  | transcode ha walOpens wal hstaged hstored =>
    rw [transcode_staged_handle hstaged] at hstored
    rw [← Option.some.inj hstored]
  | promote slot _ hcopy ih => rw [(promotedCopy_extends hcopy).1.compacted, ih ho]

/-- A group from a chunk is not flagged, has no raw lines, and its status zone is of its rows. -/
structure FromChunk (parser : Parser) (lines : List Bytes) (rg : RowGroup) : Prop where
  staged : rg.isCompacted = false
  raw : rg.rawChunkBuffer = []
  statusZone : rg.zoneMaps[0]? =
    some (.ofValues ((lines.take 65536).map (statusOf parser)))
  empty : lines = [] → SameColumns (RowGroup.new 32 32) rg

lemma ingestChunk_nil (a : AdaptiveIngester) :
    (ingestChunk parser slicer a []).1 =
      { RowGroup.new 32 32 with fingerprintHash := chunkFingerprint } := rfl

lemma fromChunk_ingestChunk {a : AdaptiveIngester} (ha : Reachable parser slicer a)
    (lines : List Bytes) : FromChunk parser lines (ingestChunk parser slicer a lines).1 := by
  have hholds := @holds_ingestChunk parser slicer a lines ha.slotsFixed
  refine ⟨hholds.staged, hholds.raw, ?_, ?_⟩
  · rw [← take_numBlocksOf]
    exact hholds.statusZone
  · rintro rfl
    rw [ingestChunk_nil]
    exact ⟨rfl, rfl, rfl, rfl, rfl⟩

lemma Columnar.fromChunk {lines : List Bytes} (h : Columnar parser slicer (.chunk lines) rg) :
    FromChunk parser lines rg := by
  generalize ho : Origin.chunk lines = origin at h
  induction h with
  | chunk ha lines' =>
    obtain rfl := Origin.chunk.inj ho
    exact fromChunk_ingestChunk ha lines
  | transcode => exact absurd ho (by simp)
  | promote slot _ hcopy ih =>
    have hfrom := ih ho
    have hext := (promotedCopy_extends hcopy).1
    refine ⟨hext.compacted.trans hfrom.staged, hext.raw.trans hfrom.raw, ?_, fun hnil => ?_⟩
    · rw [(promotedCopy_indexes hcopy).zones]
      exact hfrom.statusZone
    · have hnew := hfrom.empty hnil
      have hcopied := promotedCopy_of_empty hnew.strings hcopy
      exact ⟨hcopied.planes.trans hnew.planes, hcopied.marks.trans hnew.marks,
        hcopied.strings.trans hnew.strings, hcopied.zones.trans hnew.zones,
        hcopied.bloom.trans hnew.bloom⟩

lemma truncateWal_eq_self (walOpens : Bool) (wal : WalFile) :
    truncateWal walOpens wal = wal ↔ walOpens = false ∨ wal = some [] := by
  cases walOpens with
  | true => simp [truncateWal, eq_comm]
  | false => simp [truncateWal]

lemma repeatable_of_compacted (walOpens : Bool) (a : AdaptiveIngester) (wal : WalFile)
    (h : rg.isCompacted = true) : Repeatable parser slicer walOpens a wal rg := by
  have hnothing : transcodeBatchNow parser slicer walOpens a wal (some rg) = ⟨0, a, wal, some rg⟩ := by
    simp only [transcodeBatchNow, h, if_true]
  have hleaves : LeavesAll rg a wal a wal (some rg) := ⟨⟨rg, rfl, .refl rg⟩, rfl, rfl⟩
  constructor
  · rw [hnothing]
  · rw [hnothing]
    exact hleaves
  · rw [asyncBackgroundTranscode, hnothing]
    exact hleaves

/-- The transcode of a group from a chunk stores an empty group. -/
lemma transcode_fromChunk (walOpens : Bool) (a : AdaptiveIngester) (wal : WalFile) {lines : List Bytes}
    (h : FromChunk parser lines rg) :
    transcodeBatchNow parser slicer walOpens a wal (some rg) =
      ⟨0, { assignSlots a with activeBufferDepth := (assignSlots a).activeBufferDepth - 0 },
        truncateWal walOpens wal,
        some { RowGroup.new 32 32 with fingerprintHash := chunkFingerprint, isCompacted := true }⟩ := by
  simp only [transcodeBatchNow, h.staged, h.raw, Bool.false_eq_true, if_false]
  rfl

lemma repeatable_fromChunk_iff (walOpens : Bool) (a : AdaptiveIngester) (wal : WalFile)
    {lines : List Bytes} (h : FromChunk parser lines rg) :
    Repeatable parser slicer walOpens a wal rg ↔
      lines = [] ∧ (walOpens = false ∨ wal = some []) := by
  have htranscode := @transcode_fromChunk _ slicer _ walOpens a wal _ h
  rw [← truncateWal_eq_self]
  constructor
  · intro hrepeat
    obtain ⟨rg', hstored, hsame⟩ := hrepeat.leaves.group
    have hlog := hrepeat.leaves.log
    rw [htranscode] at hstored hlog
    refine ⟨?_, hlog⟩
    obtain rfl := Option.some.inj hstored
    have hzone : (RowGroup.new 32 32).zoneMaps[0]? =
        some (.ofValues ((lines.take 65536).map (statusOf parser))) := by
      rw [← h.statusZone, ← hsame.zones]
    have hnone : ¬ (ZoneMap.ofValues ((lines.take 65536).map (statusOf parser))).hasValues = true := by
      rw [← Option.some.inj hzone]
      exact Bool.false_ne_true
    rw [ZoneMap.ofValues_hasValues, not_not, List.map_eq_nil_iff, List.take_eq_nil_iff] at hnone
    exact hnone.resolve_left (by norm_num)
  · rintro ⟨hnil, hlog⟩
    have hnew := h.empty hnil
    have hleaves : LeavesAll rg a wal
        { assignSlots a with activeBufferDepth := (assignSlots a).activeBufferDepth - 0 }
        (truncateWal walOpens wal)
        (some { RowGroup.new 32 32 with fingerprintHash := chunkFingerprint, isCompacted := true }) := by
      refine ⟨⟨_, rfl, ?_⟩, (BitVec.sub_zero _).trans (assignSlots_depth a), hlog⟩
      exact ⟨hnew.planes.symm, hnew.marks.symm, hnew.strings.symm, hnew.zones.symm, hnew.bloom.symm⟩
    constructor
    · rw [htranscode]
    · rw [htranscode]
      exact hleaves
    · rw [asyncBackgroundTranscode, htranscode]
      exact hleaves

/-- A transcode of a columnar group does nothing exactly when the group came from a transcode,
or had no rows to lose and the log nothing to truncate. -/
theorem transcode_idempotent_iff {origin : Origin} {rg : RowGroup}
    (h : Columnar parser slicer origin rg) (walOpens : Bool) (a : AdaptiveIngester)
    (wal : WalFile) : Repeatable parser slicer walOpens a wal rg ↔ origin.Spared walOpens wal := by
  cases origin with
  | chunk lines => exact repeatable_fromChunk_iff walOpens a wal h.fromChunk
  | transcode => exact iff_of_true (repeatable_of_compacted walOpens a wal h.compacted) trivial

theorem transcode_idempotent_iff_sample :
    Repeatable (.ofStream [some fullDocument]) .reference true .new (some [])
      (ingestChunk (.ofStream [some fullDocument]) .reference .new [fullLine]).1 ↔
    (Origin.chunk [fullLine]).Spared true (some []) :=
  transcode_idempotent_iff (.chunk .new [fullLine]) true .new (some [])

/-- The group of one ingested line is transcoded: its row is gone. -/
theorem transcode_erases_chunk :
    Columnar (.ofStream [some fullDocument]) .reference (.chunk [fullLine])
      (ingestChunk (.ofStream [some fullDocument]) .reference .new [fullLine]).1 ∧
    ¬ Repeatable (.ofStream [some fullDocument]) .reference true .new (some [])
      (ingestChunk (.ofStream [some fullDocument]) .reference .new [fullLine]).1 := by
  have hcolumnar : Columnar (.ofStream [some fullDocument]) .reference (.chunk [fullLine])
      (ingestChunk (.ofStream [some fullDocument]) .reference .new [fullLine]).1 :=
    .chunk .new [fullLine]
  refine ⟨hcolumnar, fun hrepeat => ?_⟩
  have hspared := (repeatable_fromChunk_iff true .new (some []) hcolumnar.fromChunk).mp hrepeat
  exact absurd hspared.1 (by simp)

end Eureka.Ingest
