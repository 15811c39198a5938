import Mathlib
import Eureka.CoreService
import Eureka.ExporterEncoding

/-! The scan of an exported file. The file has no header, so the number of columns is guessed
from its size; and the scan evaluates only the low eight bits of every column. -/
namespace Eureka.Service
open WordBytes BitPlanes Apex Simdjson FixedBlocks Dispatcher Pipeline Exporter ExporterEncoding

/-- The rows that a scan evaluates. -/
def agbRows (bytes : Bytes) (fileBytes : ℕ) : List LogRecord :=
  (nativeRows (agbFields fileBytes) (wordAt bytes) (numBlocks fileBytes)).map
    fun row => ⟨row "status", row "latency"⟩

/-- The query on the low eight bits of all values. -/
def lowSatisfies (s l : Word) (r : LogRecord) : Bool :=
  lowBits 8 r.status == lowBits 8 s && decide (lowBits 8 l < lowBits 8 r.latency)

lemma eval_agbFields (fileBytes : ℕ) (s l : Word) (row : String → Word) :
    (queryRoot s l).eval (agbFields fileBytes) row =
      lowSatisfies s l ⟨row "status", row "latency"⟩ := by
  have hs : (agbFields fileBytes).find? (·.name = "status") = some ⟨"status", 0, 8⟩ := by
    unfold agbFields
    split_ifs <;> rfl
  have hl : (agbFields fileBytes).find? (·.name = "latency") = some ⟨"latency", 8, 8⟩ := by
    unfold agbFields
    split_ifs <;> rfl
  simp only [queryRoot, Expr.eval, hs, hl, Option.any_some, lowSatisfies]

theorem scanAgb_count (engine : ApexEngine) (bytes : Bytes) (fileBytes : ℕ) (query : ParsedQuery) :
    scanAgb engine bytes fileBytes query =
      (agbRows bytes fileBytes).countP (lowSatisfies query.statusTarget query.latencyTarget) := by
  rw [scanAgb, engine.native_count, agbRows, List.countP_map]
  exact List.countP_congr fun row _ => by rw [eval_agbFields]; rfl

/-- The only size that is taken for three columns. -/
lemma numFields_blocks (k : ℕ) : numFields (1024 * k) = if k = 1950000 then 3 else 2 := by
  unfold numFields
  split_ifs <;> omega

lemma numBlocks_of_ne {k : ℕ} (hk : k ≠ 1950000) : numBlocks (1024 * k) = k := by
  rw [numBlocks, numFields_blocks, if_neg hk]
  omega

/-- The records without their offsets. -/
def logRecords (recs : List AgbRecord) : List LogRecord := recs.map fun r => ⟨r.status, r.latency⟩

/-- Lane `i` of block `b` of the records. -/
lemma laneOf_records (recs : List AgbRecord) (b i : ℕ) :
    laneOf (logRecords recs) ⟨0, 0⟩ b i =
      ⟨laneOf (recs.map AgbRecord.status) 0 b i, laneOf (recs.map AgbRecord.latency) 0 b i⟩ := by
  have h := laneOf_map (fun r : AgbRecord => (⟨r.status, r.latency⟩ : LogRecord)) recs ⟨0, 0, 0⟩ b i
  have hs := laneOf_map AgbRecord.status recs ⟨0, 0, 0⟩ b i
  have hl := laneOf_map AgbRecord.latency recs ⟨0, 0, 0⟩ b i
  rw [logRecords, h, hs, hl]

/-- Lane `i` of the `c`-th column of sixty-four words: status and latency alternate. -/
def writtenLane (recs : List AgbRecord) (c i : ℕ) : Word :=
  if c % 2 = 0 then laneOf (recs.map AgbRecord.status) 0 (c / 2) i
  else laneOf (recs.map AgbRecord.latency) 0 (c / 2) i

/-- What a reader finds at a column of a written file, whatever it takes the column for. -/
theorem laneValue_written (recs : List AgbRecord) {n c i : ℕ} (hc : c < 2 * n) (hi : i < 64) :
    laneValue (fun p => wordAt (encodeWords (agbWords recs n)) (c * 64 + p)) i =
      writtenLane recs c i := by
  have hb : c / 2 < n := by omega
  unfold writtenLane
  split_ifs with h
  · have hword : ∀ p (hp : p < 64), wordAt (encodeWords (agbWords recs n)) (c * 64 + p) =
        (transpose (column AgbRecord.status recs (c / 2)))[p] := by
      intro p hp
      rw [← wordAt_status_plane recs hb hp]
      congr 1
      omega
    rw [laneValue_of_transpose hword hi]
    simp [column]
  · have hword : ∀ p (hp : p < 64), wordAt (encodeWords (agbWords recs n)) (c * 64 + p) =
        (transpose (column AgbRecord.latency recs (c / 2)))[p] := by
      intro p hp
      rw [← wordAt_latency_plane recs hb hp]
      congr 1
      omega
    rw [laneValue_of_transpose hword hi]
    simp [column]

/-- The rows of a scan that takes the columns by `width`. -/
def rowsByWidth (recs : List AgbRecord) (width blocks : ℕ) : List LogRecord :=
  (List.range blocks).flatMap fun b => (List.range 64).map fun i =>
    ⟨writtenLane recs (b * width) i, writtenLane recs (b * width + 1) i⟩

lemma agbFields_length (fileBytes : ℕ) : (agbFields fileBytes).length = numFields fileBytes := by
  unfold agbFields numFields
  split_ifs <;> simp_all

lemma agbFields_findIdx (fileBytes : ℕ) :
    (agbFields fileBytes).findIdx (·.name = "status") = 0 ∧
    (agbFields fileBytes).findIdx (·.name = "latency") = 1 := by
  unfold agbFields
  split_ifs <;> exact ⟨rfl, rfl⟩

/-- The rows that the scan of a written file evaluates. -/
theorem agbRows_written (recs : List AgbRecord) {n fileBytes : ℕ}
    (hfit : numBlocks fileBytes * numFields fileBytes ≤ 2 * n) (hwidth : 2 ≤ numFields fileBytes) :
    agbRows (encodeWords (agbWords recs n)) fileBytes =
      rowsByWidth recs (numFields fileBytes) (numBlocks fileBytes) := by
  obtain ⟨hs, hl⟩ := agbFields_findIdx fileBytes
  rw [agbRows, nativeRows, List.map_flatMap, rowsByWidth]
  refine flatMap_range_congr fun b hb => ?_
  rw [List.map_map]
  refine List.map_congr_left fun i hi => ?_
  have hi := List.mem_range.mp hi
  have hc : b * numFields fileBytes + 1 < 2 * n := by
    have hmul := Nat.mul_le_mul_right (numFields fileBytes) (Nat.succ_le_of_lt hb)
    rw [Nat.succ_mul] at hmul
    omega
  simp only [Function.comp_apply, agbFields_length, hs, hl, Nat.add_zero]
  rw [laneValue_written recs (by omega) hi, laneValue_written recs hc hi]

lemma writtenLane_even (recs : List AgbRecord) {c k : ℕ} (hc : c = 2 * k) (i : ℕ) :
    writtenLane recs c i = laneOf (recs.map AgbRecord.status) 0 k i := by
  rw [writtenLane, if_pos (by omega), show c / 2 = k by omega]

lemma writtenLane_odd (recs : List AgbRecord) {c k : ℕ} (hc : c = 2 * k + 1) (i : ℕ) :
    writtenLane recs c i = laneOf (recs.map AgbRecord.latency) 0 k i := by
  rw [writtenLane, if_neg (by omega), show c / 2 = k by omega]

/-- Taken by two columns, the rows are the records and the padding. -/
theorem rowsByWidth_two (recs : List AgbRecord) :
    rowsByWidth recs 2 (blockCount recs.length) =
      logRecords recs ++ List.replicate (64 * blockCount recs.length - recs.length) ⟨0, 0⟩ := by
  have h := flatMap_lanes (logRecords recs) ⟨0, 0⟩
  rw [show (logRecords recs).length = recs.length from List.length_map _] at h
  rw [← h, rowsByWidth]
  refine flatMap_range_congr fun b _ => List.map_congr_left fun i _ => ?_
  rw [laneOf_records, writtenLane_even recs (k := b) (by omega),
    writtenLane_odd recs (k := b) (by omega)]

/-- Sixty-four rows with the status from one column of lanes and the latency from another. -/
def pairedRows (status latency : ℕ → Word) : List LogRecord :=
  (List.range 64).map fun i => ⟨status i, latency i⟩

/-- The rows of 1950000 blocks that are taken for 1300000 blocks of three columns: one block in
three is read right, and the latencies of the second are paired with the statuses of the third. -/
def misreadRows (recs : List AgbRecord) : List LogRecord :=
  (List.range 650000).flatMap fun j =>
    pairedRows (laneOf (recs.map AgbRecord.status) 0 (3 * j))
      (laneOf (recs.map AgbRecord.latency) 0 (3 * j)) ++
    pairedRows (laneOf (recs.map AgbRecord.latency) 0 (3 * j + 1))
      (laneOf (recs.map AgbRecord.status) 0 (3 * j + 2))

theorem rowsByWidth_three (recs : List AgbRecord) :
    rowsByWidth recs 3 1300000 = misreadRows recs := by
  rw [rowsByWidth, show (1300000 : ℕ) = 2 * 650000 by norm_num, flatMap_range_double, misreadRows]
  refine flatMap_range_congr fun j _ => congrArg₂ _ ?_ ?_
  · refine List.map_congr_left fun i _ => ?_
    rw [writtenLane_even recs (k := 3 * j) (by omega), writtenLane_odd recs (k := 3 * j) (by omega)]
  · refine List.map_congr_left fun i _ => ?_
    rw [writtenLane_odd recs (k := 3 * j + 1) (by omega),
      writtenLane_even recs (k := 3 * j + 2) (by omega)]

/-- The scan finds the layout that the export wrote. -/
structure LayoutAgrees (recs : List AgbRecord) (agb : Bytes) : Prop where
  fields : numFields agb.length = 2
  blocks : numBlocks agb.length = blockCount recs.length
  rows : agbRows agb agb.length =
    logRecords recs ++ List.replicate (64 * blockCount recs.length - recs.length) ⟨0, 0⟩

theorem layoutAgrees_iff (recs : List AgbRecord) :
    LayoutAgrees recs (encodeWords (agbWords recs (blockCount recs.length))) ↔
      blockCount recs.length ≠ 1950000 := by
  have hsize := agb_size recs (blockCount recs.length)
  constructor
  · intro h hk
    have hf := h.fields
    rw [hsize, numFields_blocks, if_pos hk] at hf
    exact absurd hf (by norm_num)
  · intro hk
    have hfields : numFields (1024 * blockCount recs.length) = 2 := by
      rw [numFields_blocks, if_neg hk]
    have hblocks := numBlocks_of_ne hk
    refine ⟨by rw [hsize, hfields], by rw [hsize, hblocks], ?_⟩
    rw [hsize, agbRows_written recs (by rw [hfields, hblocks]; omega) (by rw [hfields]), hfields,
      hblocks, rowsByWidth_two]

/-- After a successful export, the reader that sees only the size of the file agrees with
the writer exactly when the file does not have 1950000 blocks. -/
theorem export_layout_iff {parser : Parser} {slicer : BitSlicer} {env : ExportEnv}
    {files files' : AgbFiles} {docs : List (Option Document)}
    (hagb : env.agbRoom = none) (hidx : env.idxRoom = none)
    (hdocs : env.map.bind parser.iterateMany = some docs)
    (hok : convertJsonToAgb parser slicer env files = (true, files')) :
    ∃ agb, files'.agb = some agb ∧ (LayoutAgrees (acceptedRecords docs) agb ↔
      blockCount (acceptedRecords docs).length ≠ 1950000) := by
  rw [convert_files hagb hidx hdocs hok]
  exact ⟨_, rfl, layoutAgrees_iff _⟩

theorem export_layout_iff_sample :
    ∃ agb, (convertJsonToAgb (.ofStream sampleStream) .reference (.working sampleFile)
        ⟨none, none⟩).2.agb = some agb ∧
      (LayoutAgrees (acceptedRecords sampleStream) agb ↔
        blockCount (acceptedRecords sampleStream).length ≠ 1950000) :=
  @export_layout_iff (.ofStream sampleStream) .reference (.working sampleFile) ⟨none, none⟩ _ _
    rfl rfl rfl rfl

lemma working_converts (docs : List (Option Document)) (json : Bytes) :
    ∃ files', convertJsonToAgb (.ofStream docs) .reference (.working json) ⟨none, none⟩ =
      (true, files') := ⟨_, rfl⟩

/-- `n` lines with the status 200. -/
def statusLines (n : ℕ) : Bytes := (List.replicate n (statusLine ++ [0x0a#8])).flatten

def statusDocuments (n : ℕ) : List (Option Document) :=
  (List.range n).map fun i => some (.ofFields statusLine (BitVec.ofNat 64 (16 * i)) (some 200) none)

lemma statusDocuments_length (n : ℕ) : (acceptedRecords (statusDocuments n)).length = n := by
  simp [acceptedRecords, statusDocuments, List.filterMap_map]

/-- 124800000 records fill 1950000 blocks, and the file is taken for 1300000 blocks of three
columns. -/
theorem export_layout_mismatch :
    ∃ agb, (convertJsonToAgb (.ofStream (statusDocuments 124800000)) .reference
        (.working (statusLines 124800000)) ⟨none, none⟩).2.agb = some agb ∧
      (acceptedRecords (statusDocuments 124800000)).length = 124800000 ∧
      numFields agb.length = 3 ∧ numBlocks agb.length = 1300000 := by
  have hlen := statusDocuments_length 124800000
  obtain ⟨files', hf⟩ := working_converts (statusDocuments 124800000) (statusLines 124800000)
  have hfiles := convert_files rfl rfl rfl hf
  have hblocks : blockCount 124800000 = 1950000 := by norm_num [blockCount]
  rw [hlen, hblocks] at hfiles
  refine ⟨_, by rw [hf, hfiles], hlen, ?_⟩
  rw [agb_size]
  exact ⟨rfl, rfl⟩

end Eureka.Service
