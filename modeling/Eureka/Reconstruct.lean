import Mathlib
import Eureka.AdaptiveIngester
import Eureka.ExporterEncoding
import Eureka.SlicedComparison
import Eureka.TransitionRuns

/-! `bench_reconstruct`: the bit planes of an export are scanned for `status == 200` and
`latency > 100`, and the line of every match is cut out of the JSON text at the offset that the
companion index holds. A read beyond the end of a mapping has no result. -/
namespace Eureka.Reconstruct
open WordBytes ByteText BitPlanes Apex Simdjson FixedBlocks LineFraming Exporter ExporterEncoding
open SlicedComparison TransitionRuns
open Ingest (newline)

/-- The eight planes from word `base` of the mapped `.agb` file. -/
def planesAt (agb : Bytes) (base : ℕ) : Option (ℕ → Word) :=
  if 8 * (base + 8) ≤ agb.length then some fun bit => wordAt agb (base + bit) else none

/-- `status_eq_mask` and `latency_gt_mask` on eight planes each. -/
def maskOf (statusPlanes latencyPlanes : ℕ → Word) : Word :=
  BitVec.allOnes 64 &&& equalMask statusPlanes 200 8 (BitVec.allOnes 64) &&&
    greaterMask latencyPlanes 100 8 0 (BitVec.allOnes 64)

/-- `mask_match` of a block. -/
def maskMatch (agb : Bytes) (b : ℕ) : Option Word := do
  let statusPlanes ← planesAt agb (b * 2 * 64)
  let latencyPlanes ← planesAt agb (b * 2 * 64 + 64)
  return maskOf statusPlanes latencyPlanes

def fileOffsetAt (idx : Bytes) (k : ℕ) : Option Word :=
  if 8 * (k + 1) ≤ idx.length then some (wordAt idx k) else none

def pushLane (idx : Bytes) (b : ℕ) (mask : Word) (offsets : List Word) (i : ℕ) :
    Option (List Word) :=
  if mask.getLsbD i then (fileOffsetAt idx (b * 64 + i)).map fun offset => offsets ++ [offset]
  else some offsets

def scanBlock (agb idx : Bytes) (offsets : List Word) (b : ℕ) : Option (List Word) := do
  let mask ← maskMatch agb b
  if mask ≠ 0 then (List.range 64).foldlM (pushLane idx b mask) offsets else return offsets

def matchedLogOffsets (agb idx : Bytes) (numBlocks : ℕ) : Option (List Word) :=
  (List.range numBlocks).foldlM (scanBlock agb idx) []

/-- The text up to the next newline. At the end of the mapping the loop reads one byte more. -/
def recordText : Bytes → Option Bytes
  | [] => none
  | c :: rest => if c = newline then some [] else (recordText rest).map (c :: ·)

def reconstructedLogs (json agb idx : Bytes) (numRecords : ℕ) : Option (List Bytes) := do
  let offsets ← matchedLogOffsets agb idx (blockCount numRecords)
  offsets.mapM fun offset => recordText (json.drop offset.toNat)

/-- The rows that the query asks for. -/
def selects (r : AgbRecord) : Bool := r.status = 200 ∧ 100 < r.latency

/-- One document per line, found at the first byte of its line. -/
structure Ndjson (parser : Parser) where
  rows : List (Bytes × Document)
  unbroken : ∀ row ∈ rows, newline ∉ row.1
  stream : parser.iterateMany (joinLines newline (rows.map Prod.fst)) =
    some (rows.map fun row => some row.2)
  rawJson : ∀ i (hi : i < rows.length), ∃ text ≠ [], rows[i].2.rawJson =
    some (BitVec.ofNat 64 (joinLines newline ((rows.take i).map Prod.fst)).length, text)
  narrow : ∀ row ∈ rows, row.2.status.toNat < 256 ∧ row.2.latency.toNat < 256
  addressable : (joinLines newline (rows.map Prod.fst)).length < 2 ^ 64

namespace Ndjson
variable {parser : Parser}

def json (file : Ndjson parser) : Bytes := joinLines newline (file.rows.map Prod.fst)

def records (file : Ndjson parser) : List AgbRecord := file.rows.map fun row => recordOf row.2

/-- The lines of the rows that the query asks for, in file order. -/
def selectedLines (file : Ndjson parser) : List Bytes :=
  (file.rows.filter fun row => row.2.status = 200 ∧ 100 < row.2.latency).map Prod.fst

end Ndjson

section scan
variable {recs : List AgbRecord} {n b : ℕ}

lemma planesAt_of_le {agb : Bytes} {base : ℕ} (h : 8 * (base + 8) ≤ agb.length) :
    planesAt agb base = some fun bit => wordAt agb (base + bit) := if_pos h

/-- A plane of a transposed column holds one bit of the value in every lane. -/
lemma holds_column (f : AgbRecord → Word) {plane : ℕ → Word} {i : ℕ} (hi : i < 64)
    (hplane : ∀ p (hp : p < 64), plane p = (transpose (column f recs b))[p]) :
    Holds plane i 8 (laneOf (recs.map f) 0 b i).toNat := by
  intro p hp
  rw [hplane p (by omega), getLsbD_transpose _ (by omega) hi]
  simp [column, BitVec.getLsbD]

lemma laneOf_record (f : AgbRecord → Word) (i : ℕ) :
    laneOf (recs.map f) 0 b i = (recs[64 * b + i]?.map f).getD 0 := by
  simp [laneOf, List.getD_eq_getElem?_getD]

lemma laneOf_lt (f : AgbRecord → Word) (hf : ∀ r ∈ recs, (f r).toNat < 256) (i : ℕ) :
    (laneOf (recs.map f) 0 b i).toNat < 256 := by
  rw [laneOf_record]
  cases h : recs[64 * b + i]? with
  | none => simp
  | some r => exact hf r (List.mem_of_getElem? h)

/-- With values below 256 the eight planes decide both comparisons in every lane. -/
lemma maskOf_lane {statusPlanes latencyPlanes : ℕ → Word} {i s l : ℕ} (hi : i < 64)
    (hstatus : Holds statusPlanes i 8 s) (hlatency : Holds latencyPlanes i 8 l)
    (hs : s < 2 ^ 8) (hl : l < 2 ^ 8) :
    (maskOf statusPlanes latencyPlanes).getLsbD i = true ↔ 200 = s ∧ 100 < l := by
  have hones : (BitVec.allOnes 64).getLsbD i = true := by
    rw [BitVec.getLsbD_allOnes, decide_eq_true hi]
  have hsame : ∀ {c v : ℕ}, c < 2 ^ 8 → v < 2 ^ 8 →
      ((BitVec.allOnes 64).getLsbD i = true ↔ c / 2 ^ 8 = v / 2 ^ 8) := by
    intro c v hc hv
    rw [hones, Nat.div_eq_of_lt hc, Nat.div_eq_of_lt hv]
    exact iff_of_true rfl rfl
  have hnone : (0 : Word).getLsbD i = true ↔ 100 / 2 ^ 8 < l / 2 ^ 8 := by
    rw [Nat.div_eq_of_lt hl]
    exact iff_of_false (by simp) (Nat.not_lt_zero _)
  rw [maskOf, BitVec.getLsbD_and, BitVec.getLsbD_and, hones, Bool.true_and, Bool.and_eq_true,
    equalMask_lane hi 200 8 hstatus (hsame (by norm_num) hs),
    greaterMask_lane hi 100 8 hlatency hnone (hsame (by norm_num) hl)]

/-- The bits of the match mask are the rows of the block that the query asks for; a lane
without a row never matches. -/
lemma maskMatch_spec (h : ∀ r ∈ recs, r.status.toNat < 256 ∧ r.latency.toNat < 256)
    (hb : b < n) :
    ∃ mask, maskMatch (encodeWords (agbWords recs n)) b = some mask ∧
      ∀ i < 64, mask.getLsbD i = recs[64 * b + i]?.any selects := by
  have hsize := agb_size recs n
  have hmask : maskMatch (encodeWords (agbWords recs n)) b = some (maskOf
      (fun p => wordAt (encodeWords (agbWords recs n)) (b * 2 * 64 + p))
      (fun p => wordAt (encodeWords (agbWords recs n)) (b * 2 * 64 + 64 + p))) := by
    rw [maskMatch, planesAt_of_le (by omega), planesAt_of_le (by omega)]
    rfl
  refine ⟨_, hmask, fun i hi => ?_⟩
  have hbase : b * 2 * 64 = 128 * b := by ring
  have hstatus : Holds (fun p => wordAt (encodeWords (agbWords recs n)) (b * 2 * 64 + p)) i 8
      (laneOf (recs.map AgbRecord.status) 0 b i).toNat :=
    holds_column _ hi fun p hp => by rw [hbase]; exact wordAt_status_plane recs hb hp
  have hlatency : Holds (fun p => wordAt (encodeWords (agbWords recs n)) (b * 2 * 64 + 64 + p)) i 8
      (laneOf (recs.map AgbRecord.latency) 0 b i).toNat :=
    holds_column _ hi fun p hp => by rw [hbase]; exact wordAt_latency_plane recs hb hp
  have hlane := maskOf_lane hi hstatus hlatency (laneOf_lt _ (fun r hr => (h r hr).1) i)
    (laneOf_lt _ (fun r hr => (h r hr).2) i)
  rw [Bool.eq_iff_iff, hlane, laneOf_record, laneOf_record]
  cases recs[64 * b + i]? with
  | none => simp
  | some r =>
    simp only [Option.map_some, Option.getD_some, Option.any_some, selects, Bool.decide_and,
      Bool.and_eq_true, decide_eq_true_eq]
    rw [BitVec.lt_def, ← BitVec.toNat_inj, eq_comm]
    rfl

/-- The offsets of the first `m` rows that the query asks for. -/
def selectedOffsets (recs : List AgbRecord) (m : ℕ) : List Word :=
  ((recs.take m).filter selects).map AgbRecord.offset

lemma selectedOffsets_succ (recs : List AgbRecord) (m : ℕ) :
    selectedOffsets recs (m + 1) = selectedOffsets recs m ++
      if recs[m]?.any selects then [(recs.map AgbRecord.offset).getD m 0] else [] := by
  rw [selectedOffsets, List.take_add_one, List.filter_append, List.map_append, ← selectedOffsets,
    List.getD_eq_getElem?_getD, List.getElem?_map]
  congr 1
  cases recs[m]? with
  | none => simp
  | some r => cases h : selects r <;> simp [h]

lemma pushLane_spec {mask : Word} {i : ℕ} (hb : b < n) (hi : i < 64)
    (hmask : mask.getLsbD i = recs[64 * b + i]?.any selects) :
    pushLane (encodeWords (idxWords recs n)) b mask (selectedOffsets recs (64 * b + i)) i =
      some (selectedOffsets recs (64 * b + i + 1)) := by
  have hsize := idx_size recs n
  have hlane : b * 64 + i = 64 * b + i := by ring
  rw [pushLane, hmask, selectedOffsets_succ, hlane]
  cases recs[64 * b + i]?.any selects with
  | false => simp
  | true =>
    rw [if_pos rfl, if_pos rfl, fileOffsetAt, if_pos (by omega), ← readOffset,
      readOffset_idx recs (by omega), Option.map_some]

/-- The shortcut for a block without a match saves only time. -/
lemma scanBlock_eq {agb idx : Bytes} {mask : Word} (h : maskMatch agb b = some mask)
    (offsets : List Word) :
    scanBlock agb idx offsets b = (List.range 64).foldlM (pushLane idx b mask) offsets := by
  rw [scanBlock, h, Option.bind_eq_bind, Option.bind_some]
  split_ifs with hmask
  · rfl
  · rw [not_not.mp hmask]
    exact (foldlM_eq_self fun i _ => by simp [pushLane]).symm

lemma scanBlock_spec (h : ∀ r ∈ recs, r.status.toNat < 256 ∧ r.latency.toNat < 256)
    (hb : b < n) :
    scanBlock (encodeWords (agbWords recs n)) (encodeWords (idxWords recs n))
      (selectedOffsets recs (64 * b)) b = some (selectedOffsets recs (64 * (b + 1))) := by
  obtain ⟨mask, hmask, hlanes⟩ := maskMatch_spec h hb
  rw [scanBlock_eq hmask]
  obtain ⟨offsets, hloop, rfl⟩ := foldlM_range_induction (n := 64)
    (f := pushLane (encodeWords (idxWords recs n)) b mask) (s := selectedOffsets recs (64 * b))
    (P := fun i offsets => offsets = selectedOffsets recs (64 * b + i)) rfl
    (fun i _ hi h => ⟨_, h ▸ pushLane_spec hb hi (hlanes i hi), rfl⟩)
  exact hloop

/-- The scan of an export collects the offsets of the rows that the query asks for, in order. -/
theorem matchedLogOffsets_spec (h : ∀ r ∈ recs, r.status.toNat < 256 ∧ r.latency.toNat < 256)
    (hn : recs.length ≤ 64 * n) :
    matchedLogOffsets (encodeWords (agbWords recs n)) (encodeWords (idxWords recs n)) n =
      some ((recs.filter selects).map AgbRecord.offset) := by
  obtain ⟨offsets, hloop, rfl⟩ := foldlM_range_induction (n := n)
    (f := scanBlock (encodeWords (agbWords recs n)) (encodeWords (idxWords recs n)))
    (s := ([] : List Word)) (P := fun b offsets => offsets = selectedOffsets recs (64 * b)) rfl
    (fun b _ hb hinv => ⟨_, hinv ▸ scanBlock_spec h hb, rfl⟩)
  rw [matchedLogOffsets, hloop, selectedOffsets, List.take_of_length_le hn]

end scan

section cutting

lemma recordText_line {line : Bytes} (h : newline ∉ line) (rest : Bytes) :
    recordText (line ++ newline :: rest) = some line := by
  induction line with
  | nil => rw [List.nil_append, recordText, if_pos rfl]
  | cons c line ih =>
    obtain ⟨hc, hline⟩ := not_or.mp (mt List.mem_cons.mpr h)
    rw [List.cons_append, recordText, if_neg (Ne.symm hc), ih hline, Option.map_some]

/-- Cutting at the first byte of a line gives that line. -/
lemma recordText_at {lines : List Bytes} (h : ∀ line ∈ lines, newline ∉ line) {i : ℕ}
    (hi : i < lines.length) :
    recordText ((joinLines newline lines).drop (joinLines newline (lines.take i)).length) =
      some lines[i] := by
  have hsplit : lines = lines.take i ++ lines[i] :: lines.drop (i + 1) := by
    rw [← List.drop_eq_getElem_cons hi, List.take_append_drop]
  have htext : joinLines newline lines = joinLines newline (lines.take i) ++
      (lines[i] ++ newline :: joinLines newline (lines.drop (i + 1))) := by
    have hcons : joinLines newline (lines[i] :: lines.drop (i + 1)) =
        lines[i] ++ newline :: joinLines newline (lines.drop (i + 1)) := by
      rw [joinLines, List.flatMap_cons, List.append_assoc, List.singleton_append, joinLines]
    rw [← hcons, ← joinLines_append, ← hsplit]
  rw [htext, List.drop_left]
  exact recordText_line (h _ (List.getElem_mem hi)) _

lemma mapM_eq_map {α β : Type*} {f : α → Option β} {g : α → β} {l : List α}
    (h : ∀ x ∈ l, f x = some (g x)) : l.mapM f = some (l.map g) := by
  induction l with
  | nil => rfl
  | cons x l ih =>
    rw [List.mapM_cons, h x List.mem_cons_self, ih fun y hy => h y (List.mem_cons_of_mem _ hy)]
    rfl

end cutting

namespace Ndjson
variable {parser : Parser} (file : Ndjson parser)

/-- Each row's offset leads to its own line. -/
lemma recordText_row {row : Bytes × Document} (h : row ∈ file.rows) :
    recordText (file.json.drop (recordOf row.2).offset.toNat) = some row.1 := by
  obtain ⟨i, hi, rfl⟩ := List.getElem_of_mem h
  obtain ⟨text, htext, hraw⟩ := file.rawJson i hi
  have hle : (joinLines newline ((file.rows.take i).map Prod.fst)).length ≤ file.json.length := by
    rw [json]
    conv_rhs => rw [← List.take_append_drop i file.rows, List.map_append, joinLines_append]
    simp
  have hoffset : (recordOf file.rows[i].2).offset.toNat =
      (joinLines newline ((file.rows.take i).map Prod.fst)).length := by
    simp only [recordOf, docOffset, hraw, if_neg htext, BitVec.toNat_ofNat]
    exact Nat.mod_eq_of_lt (lt_of_le_of_lt hle file.addressable)
  have hlines : ∀ line ∈ file.rows.map Prod.fst, newline ∉ line := by
    intro line hline
    obtain ⟨row, hrow, rfl⟩ := List.mem_map.mp hline
    exact file.unbroken row hrow
  rw [hoffset, json, List.map_take, recordText_at hlines (by simpa using hi), List.getElem_map]

lemma acceptedRecords_stream :
    acceptedRecords (file.rows.map fun row => some row.2) = file.records := by
  simp [acceptedRecords, records, List.filterMap_map]

lemma records_narrow : ∀ r ∈ file.records, r.status.toNat < 256 ∧ r.latency.toNat < 256 := by
  intro r hr
  obtain ⟨row, hrow, rfl⟩ := List.mem_map.mp hr
  exact file.narrow row hrow

lemma selected_offsets : (file.records.filter selects).map AgbRecord.offset =
    (file.rows.filter fun row => row.2.status = 200 ∧ 100 < row.2.latency).map fun row =>
      (recordOf row.2).offset := by
  rw [records, List.filter_map, List.map_map]
  rfl

end Ndjson

/-- An export followed by the scan and the cutting retrieves exactly the lines of the rows that
the query asks for, once each and in file order; a lane without a row is in no match mask. -/
theorem reconstructed_exactly (parser : Parser) (slicer : BitSlicer) (file : Ndjson parser)
    (files : AgbFiles) :
    ∃ agb idx, convertJsonToAgb parser slicer (.working file.json) files =
        (true, ⟨some agb, some idx⟩) ∧
      reconstructedLogs file.json agb idx file.rows.length = some file.selectedLines ∧
      ∀ b < blockCount file.rows.length, ∃ mask, maskMatch agb b = some mask ∧
        ∀ i < 64, mask.getLsbD i = true → 64 * b + i < file.rows.length := by
  have hok : (convertJsonToAgb parser slicer (.working file.json) files).1 = true := by
    simp [convertJsonToAgb, ExportEnv.working, Ndjson.json, file.stream]
  have hfiles := @convert_files _ _ (.working file.json) _ _ _ rfl rfl file.stream
    (Prod.ext hok rfl : convertJsonToAgb parser slicer (.working file.json) files = (true, _))
  have hlength : file.records.length = file.rows.length := List.length_map _
  rw [file.acceptedRecords_stream, hlength] at hfiles
  refine ⟨_, _, Prod.ext hok hfiles, ?_, ?_⟩
  · have hblocks : file.records.length ≤ 64 * blockCount file.rows.length := by
      rw [hlength, blockCount]; omega
    rw [reconstructedLogs, matchedLogOffsets_spec file.records_narrow hblocks,
      Option.bind_eq_bind, Option.bind_some, file.selected_offsets, List.mapM_map]
    exact mapM_eq_map fun row hrow => file.recordText_row (List.mem_of_mem_filter hrow)
  · intro b hb
    obtain ⟨mask, hmask, hlanes⟩ := maskMatch_spec file.records_narrow hb
    refine ⟨mask, hmask, fun i hi hbit => ?_⟩
    rw [hlanes i hi, Option.any_eq_true] at hbit
    obtain ⟨r, hr, -⟩ := hbit
    exact hlength ▸ (List.getElem?_eq_some_iff.mp hr).1

section samples

def slowLine : Bytes := ascii "\x7b\"status\": 200, \"latency\": 150\x7d"

/-- A line without a latency and a line that the query asks for. -/
def slowRows : List (Bytes × Document) :=
  [(statusLine, .ofFields statusLine 0 (some 200) none),
    (slowLine, .ofFields slowLine 16 (some 200) (some 150))]

def slowFile : Ndjson (.ofStream (slowRows.map fun row => some row.2)) where
  rows := slowRows
  unbroken := by decide
  stream := rfl
  rawJson i hi := by
    have hi2 : i < 2 := hi
    interval_cases i
    · exact ⟨statusLine, by decide, rfl⟩
    · exact ⟨slowLine, by decide, rfl⟩
  narrow := by decide
  addressable := by decide

end samples

theorem reconstructed_exactly_sample :
    ∃ agb idx, convertJsonToAgb (.ofStream (slowRows.map fun row => some row.2)) .reference
        (.working slowFile.json) ⟨none, none⟩ = (true, ⟨some agb, some idx⟩) ∧
      reconstructedLogs slowFile.json agb idx 2 = some [slowLine] := by
  obtain ⟨agb, idx, hfiles, hlogs, -⟩ := reconstructed_exactly _ .reference slowFile ⟨none, none⟩
  exact ⟨agb, idx, hfiles, hlogs⟩

end Eureka.Reconstruct
