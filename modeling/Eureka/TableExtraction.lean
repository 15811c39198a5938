import Mathlib
import Eureka.ExporterEncoding
import Eureka.IngestChunk

/-! One NDJSON text through both extraction loops. The export skips a line that is no document
and reads the latency from one field; the chunk stores a row for every line and falls back to
`latency_ms`. -/
namespace Eureka.Ingest
open WordBytes Apex Simdjson LineFraming ByteText Exporter ExporterEncoding

/-- The stream of a text holds the documents of its accepted lines, with the same integers. -/
structure LineByLine (parser : Parser) (accepts : Bytes → Bool) (json : Bytes)
    (docs : List (Option Document)) : Prop where
  started : parser.iterateMany json = some docs
  integers : List.Forall₂ (fun line (doc : Document) => (parser.iterate line).getUint64 = doc.getUint64)
    ((splitLines newline json).filter accepts) (docs.filterMap id)

/-- The records that a conversion counts, read back from the file that it writes. -/
def exportedTable (parser : Parser) (slicer : BitSlicer) (json : Bytes) : List (Word × Word) :=
  let docs := (parser.iterateMany json).getD []
  let records := (docs.foldl (exportEntry slicer) (ExportState.init none none)).recordCount
  let agb := (convertJsonToAgb parser slicer (.working json) ⟨none, none⟩).2.agb.getD []
  (List.range records).map fun r => (readStatus agb r, readLatency agb r)

/-- The rows of the lines, read back from the row group. -/
def storedTable (parser : Parser) (slicer : BitSlicer) (a : AdaptiveIngester)
    (lines : List Bytes) : List (Word × Word) :=
  let chunk := ingestChunk parser slicer a lines
  (List.range lines.length).map fun r =>
    (chunk.1.slotValue (slotsOf chunk.2).status r, chunk.1.slotValue (slotsOf chunk.2).latency r)

/-- Without a readable `latency` the document has no `latency_ms` other than zero. -/
def NoOtherLatency (doc : Document) : Prop :=
  doc.getUint64 "latency" = none → (doc.getUint64 "latency_ms").getD 0 = 0

lemma latency_eq_latencyOrMs (doc : Document) :
    doc.latency = latencyOrMs doc ↔ NoOtherLatency doc := by
  unfold Document.latency latencyOrMs NoOtherLatency
  cases doc.getUint64 "latency" with
  | none => simp [eq_comm]
  | some v => simp

lemma recordCount_foldl (slicer : BitSlicer) (docs : List (Option Document)) (st : ExportState) :
    (docs.foldl (exportEntry slicer) st).recordCount =
      st.recordCount + (acceptedRecords docs).length := by
  induction docs generalizing st with
  | nil => rfl
  | cons entry docs ih =>
    rw [List.foldl_cons, ih]
    cases entry with
    | none => rfl
    | some doc =>
      have hdoc : (exportDoc slicer st doc).recordCount = st.recordCount + 1 := by
        unfold exportDoc
        split_ifs <;> rfl
      have hcons : acceptedRecords (some doc :: docs) = recordOf doc :: acceptedRecords docs := rfl
      rw [exportEntry, hdoc, hcons, List.length_cons, Nat.add_right_comm, Nat.add_assoc]

lemma map_range_getElem {α β : Type*} (xs : List α) (f : α → β) (g : ℕ → β)
    (h : ∀ r (hr : r < xs.length), g r = f xs[r]) : (List.range xs.length).map g = xs.map f := by
  refine List.ext_getElem (by simp) fun r hr _ => ?_
  simp only [List.getElem_map, List.getElem_range]
  exact h r (by simpa using hr)

variable {parser : Parser} {slicer : BitSlicer} {accepts : Bytes → Bool} {json : Bytes}
  {docs : List (Option Document)} {a : AdaptiveIngester}

theorem exportedTable_eq (h : parser.iterateMany json = some docs) :
    exportedTable parser slicer json =
      (docs.filterMap id).map fun doc => (doc.status, doc.latency) := by
  have hok : convertJsonToAgb parser slicer (.working json) ⟨none, none⟩ =
      (true, (convertJsonToAgb parser slicer (.working json) ⟨none, none⟩).2) := by
    simp [convertJsonToAgb, ExportEnv.working, h]
  have hdocs : (ExportEnv.working json).map.bind parser.iterateMany = some docs := h
  have hfiles := convert_files rfl rfl hdocs hok
  unfold exportedTable
  simp only [h, hfiles, Option.getD_some, recordCount_foldl, ExportState.init, Nat.zero_add]
  rw [map_range_getElem (acceptedRecords docs) (fun r => (r.status, r.latency))]
  · rw [acceptedRecords, List.map_filterMap, List.map_filterMap]
    refine List.filterMap_congr fun doc _ => ?_
    cases doc <;> rfl
  · intro r hr
    obtain ⟨hstatus, hlatency, -⟩ := decoded_rows (acceptedRecords docs) hr
    rw [hstatus, hlatency]

theorem storedTable_eq (ha : Reachable parser slicer a) {lines : List Bytes}
    (hlines : lines.length ≤ 65536) :
    storedTable parser slicer a lines =
      lines.map fun line => (statusOf parser line, latencyOf parser line) := by
  have hstored : StoredExactly parser (slotsOf (ingestChunk parser slicer a lines).2) lines
      (ingestChunk parser slicer a lines).1 := by
    rw [ingestChunk_slotMap, slotsOf_assignSlots ha.slotsFixed]
    exact (holds_ingestChunk a lines ha.slotsFixed).storedExactly fixedSlots_valid
  refine map_range_getElem lines _ _ fun r hr => ?_
  obtain ⟨hstatus, hlatency⟩ := hstored.rows r (by omega)
  rw [hstatus, hlatency]

/-- A filtered list maps to the same values as the whole only if nothing was filtered out. -/
lemma map_filter_eq_map_iff {α β : Type*} (p : α → Bool) (f g : α → β) (xs : List α) :
    (xs.filter p).map f = xs.map g ↔ ∀ x ∈ xs, p x = true ∧ f x = g x := by
  constructor
  · intro h
    have hlength := congrArg List.length h
    rw [List.length_map, List.length_map, List.length_filter_eq_length_iff] at hlength
    rw [List.filter_eq_self.mpr hlength] at h
    exact fun x hx => ⟨hlength x hx, List.map_inj_left.mp h x hx⟩
  · intro h
    rw [List.filter_eq_self.mpr fun x hx => (h x hx).1]
    exact List.map_inj_left.mpr fun x hx => (h x hx).2

lemma values_of_integers {lines : List Bytes} {parsed : List Document}
    (h : List.Forall₂ (fun line (doc : Document) => (parser.iterate line).getUint64 = doc.getUint64)
      lines parsed) :
    (parsed.map fun doc => (doc.status, doc.latency)) =
      lines.map fun line => (statusOf parser line, (parser.iterate line).latency) := by
  induction h with
  | nil => rfl
  | cons hget _ ih =>
    rw [List.map_cons, List.map_cons, ih]
    simp only [statusOf, Document.status, Document.latency, hget]

lemma LineByLine.exportedTable_eq (h : LineByLine parser accepts json docs) :
    exportedTable parser slicer json = ((splitLines newline json).filter accepts).map fun line =>
      (statusOf parser line, (parser.iterate line).latency) := by
  rw [Ingest.exportedTable_eq h.started]
  exact values_of_integers h.integers

/-- Both paths extract one table exactly when every line is a document and none gives its
latency only as `latency_ms`. -/
theorem same_table_iff (ha : Reachable parser slicer a) (h : LineByLine parser accepts json docs)
    (hlines : (splitLines newline json).length ≤ 65536) :
    exportedTable parser slicer json = storedTable parser slicer a (splitLines newline json) ↔
      ∀ line ∈ splitLines newline json, accepts line = true ∧
        NoOtherLatency (parser.iterate line) := by
  rw [h.exportedTable_eq, storedTable_eq ha hlines, map_filter_eq_map_iff]
  refine forall_congr' fun line => forall_congr' fun _ => and_congr_right fun _ => ?_
  rw [← latency_eq_latencyOrMs, Prod.mk.injEq]
  exact and_iff_right rfl

section samples

def millisecondsLine : Bytes := ascii "\x7b\"status\": 200, \"latency_ms\": 9\x7d"

def millisecondsDocument : Document where
  getUint64 f := if f = "status" then some 200 else if f = "latency_ms" then some 9 else none
  getString _ := none
  rawJson := some (0, millisecondsLine)

lemma lineByLine_single {line : Bytes} (doc : Document)
    (hline : splitLines newline line = [line]) :
    LineByLine (.ofStream [some doc]) (fun _ => true) line [some doc] := by
  refine ⟨rfl, ?_⟩
  rw [hline]
  exact .cons rfl .nil

theorem same_table_iff_sample :
    exportedTable (.ofStream [some fullDocument]) .reference fullLine =
      storedTable (.ofStream [some fullDocument]) .reference .new (splitLines newline fullLine) ↔
    ∀ line ∈ splitLines newline fullLine, true = true ∧ NoOtherLatency fullDocument :=
  same_table_iff .new (lineByLine_single fullDocument (by decide)) (by decide)

/-- The export reads no latency from a line that gives it in milliseconds. -/
theorem export_misses_milliseconds :
    LineByLine (.ofStream [some millisecondsDocument]) (fun _ => true) millisecondsLine
      [some millisecondsDocument] ∧
    exportedTable (.ofStream [some millisecondsDocument]) .reference millisecondsLine ≠
      storedTable (.ofStream [some millisecondsDocument]) .reference .new
        (splitLines newline millisecondsLine) := by
  have hline : splitLines newline millisecondsLine = [millisecondsLine] := by decide
  refine ⟨lineByLine_single millisecondsDocument hline, ?_⟩
  rw [exportedTable_eq rfl, storedTable_eq .new (by rw [hline]; decide), hline]
  decide

end samples

end Eureka.Ingest
