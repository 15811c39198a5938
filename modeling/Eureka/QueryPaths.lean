import Mathlib
import Eureka.AgbScan
import Eureka.CountComparison
import Eureka.NumericQueries

/-! One log and the two ways to query it: the text through the pipeline, its export through
the scan. The scan keeps the low eight bits of both fields, so it can lose records and it can
count records that do not match. -/
namespace Eureka.Service
open WordBytes BitPlanes Apex Simdjson FixedBlocks ByteText Dispatcher Pipeline Exporter
  ExporterEncoding CountComparison

/-- A match whose latency does not exceed the target on the low bits. -/
def lostByScan (s l : Word) (r : LogRecord) : Bool :=
  r.status = s ∧ l < r.latency ∧ lowBits 8 r.latency ≤ lowBits 8 l

/-- No match, but one on the low bits. -/
def gainedByScan (s l : Word) (r : LogRecord) : Bool :=
  lowBits 8 r.status = lowBits 8 s ∧ lowBits 8 l < lowBits 8 r.latency ∧
    (r.status ≠ s ∨ r.latency ≤ l)

/-- The record lists on which the scan of the export counts what the pipeline counts. -/
def PathsAgree (recs : List AgbRecord) (s l : Word) : Prop :=
  if blockCount recs.length = 1950000 then
    (misreadRows recs).countP (lowSatisfies s l) = (logRecords recs).countP (satisfies s l)
  else (logRecords recs).countP (gainedByScan s l) = (logRecords recs).countP (lostByScan s l)

lemma satisfies_iff {s l : Word} {r : LogRecord} :
    satisfies s l r = true ↔ r.status = s ∧ l < r.latency := by
  simp [satisfies]

lemma lowSatisfies_iff {s l : Word} {r : LogRecord} : lowSatisfies s l r = true ↔
    lowBits 8 r.status = lowBits 8 s ∧ lowBits 8 l < lowBits 8 r.latency := by
  simp [lowSatisfies]

lemma lost_eq (s l : Word) (r : LogRecord) :
    (satisfies s l r && !lowSatisfies s l r) = lostByScan s l r := by
  rw [Bool.eq_iff_iff, Bool.and_eq_true, Bool.not_eq_true', ← Bool.not_eq_true, satisfies_iff,
    lowSatisfies_iff, lostByScan, decide_eq_true_eq]
  constructor
  · rintro ⟨⟨hs, hl⟩, hlow⟩
    exact ⟨hs, hl, not_lt.mp fun h => hlow ⟨by rw [hs], h⟩⟩
  · rintro ⟨hs, hl, hle⟩
    exact ⟨⟨hs, hl⟩, fun h => absurd h.2 (not_lt.mpr hle)⟩

lemma gained_eq (s l : Word) (r : LogRecord) :
    (lowSatisfies s l r && !satisfies s l r) = gainedByScan s l r := by
  rw [Bool.eq_iff_iff, Bool.and_eq_true, Bool.not_eq_true', ← Bool.not_eq_true, satisfies_iff,
    lowSatisfies_iff, gainedByScan, decide_eq_true_eq, not_and_or, BitVec.not_lt, and_assoc]

/-- A padding lane holds zeros, and zero is above no target. -/
lemma lowSatisfies_padding (s l : Word) : lowSatisfies s l ⟨0, 0⟩ = false := by
  rw [← Bool.not_eq_true, lowSatisfies_iff]
  rintro ⟨-, h⟩
  exact absurd h (Nat.not_lt_zero _)

theorem countP_two_columns (recs : List AgbRecord) (s l : Word) :
    (rowsByWidth recs 2 (blockCount recs.length)).countP (lowSatisfies s l) =
      (logRecords recs).countP (lowSatisfies s l) := by
  rw [rowsByWidth_two, List.countP_append, List.countP_replicate, lowSatisfies_padding]
  rfl

/-- The count of the scan of a written file. -/
theorem scanAgb_written (engine : ApexEngine) (recs : List AgbRecord) (query : ParsedQuery) :
    scanAgb engine (encodeWords (agbWords recs (blockCount recs.length)))
        (1024 * blockCount recs.length) query =
      if blockCount recs.length = 1950000 then
        (misreadRows recs).countP (lowSatisfies query.statusTarget query.latencyTarget)
      else (logRecords recs).countP (lowSatisfies query.statusTarget query.latencyTarget) := by
  rw [scanAgb_count]
  split_ifs with hk
  · have hfields : numFields (1024 * blockCount recs.length) = 3 := by
      rw [numFields_blocks, if_pos hk]
    have hblocks : numBlocks (1024 * blockCount recs.length) = 1300000 := by
      rw [numBlocks, hfields, hk]
    rw [agbRows_written recs (by rw [hfields, hblocks, hk]) (by rw [hfields]; omega), hfields,
      hblocks, rowsByWidth_three]
  · have hfields : numFields (1024 * blockCount recs.length) = 2 := by
      rw [numFields_blocks, if_neg hk]
    have hblocks := numBlocks_of_ne hk
    rw [agbRows_written recs (by rw [hfields, hblocks]; omega) (by rw [hfields]), hfields, hblocks,
      countP_two_columns]

theorem scan_eq_pipeline_iff (engine : ApexEngine) (recs : List AgbRecord) (query : ParsedQuery) :
    scanAgb engine (encodeWords (agbWords recs (blockCount recs.length)))
        (1024 * blockCount recs.length) query =
      (logRecords recs).countP (satisfies query.statusTarget query.latencyTarget) ↔
    PathsAgree recs query.statusTarget query.latencyTarget := by
  rw [scanAgb_written, PathsAgree]
  split_ifs with hk
  · exact Iff.rfl
  · rw [countP_eq_iff_diff]
    simp only [lost_eq, gained_eq]

/-- A mapping that the service may still hold was made of the file as it is. -/
def MappedFilesCache.Current (cache : MappedFilesCache) (files : FileSystem) (path : String) :
    Prop :=
  ∀ m, cache path = some m →
    m.addr = path ∧ ∀ bytes, files.read path = some bytes → m.size = bytes.length

lemma current_none (files : FileSystem) (path : String) :
    MappedFilesCache.Current (fun _ => none) files path :=
  fun _ hm => absurd hm (by simp)

lemma prewarmCache_current {env : ServiceEnv} {cache : MappedFilesCache} {path : String}
    {bytes : Bytes} (pin : Bool) (hname : env.names.canonical path = path)
    (hagb : isAgb path = true) (hread : env.files.read path = some bytes) (hne : bytes ≠ [])
    (hcur : cache.Current env.files path) :
    ∃ m, prewarmCache env cache path pin path = some m ∧ m.addr = path ∧
      m.size = bytes.length := by
  have hnot : ¬ ¬ isAgb path := not_not.mpr hagb
  unfold prewarmCache
  simp only [hname, if_neg hnot]
  cases hc : cache path with
  | some m =>
    obtain ⟨haddr, hsize⟩ := hcur m hc
    simp only []
    split_ifs with hpin
    · exact ⟨{ m with pinInProgress := true }, Function.update_self .., haddr, hsize bytes hread⟩
    · exact ⟨m, hc, haddr, hsize bytes hread⟩
  | none =>
    simp only [hread, if_neg hne]
    exact ⟨_, Function.update_self .., rfl, rfl⟩

/-- The one response for an exported file. -/
theorem executeQuery_agb (engine : ApexEngine) (parser : Parser) {env : ServiceEnv}
    {cache : MappedFilesCache} {request : QueryRequest} {bytes : Bytes} {p : ParsedQuery}
    (hparse : parseQuery request.queryString = some p)
    (hagb : isAgb (env.names.canonical request.filePath) = true)
    (hread : env.files.read (env.names.canonical request.filePath) = some bytes) (hne : bytes ≠ [])
    (hcur : cache.Current env.files (env.names.canonical request.filePath)) :
    ∃ cache₁, ∀ response cache', ExecuteQuery engine parser env cache request response cache' ↔
      response = .found (scanAgb engine bytes bytes.length p) bytes.length ∧ cache' = cache₁ := by
  refine ⟨prewarmCache env cache (env.names.canonical request.filePath) request.pinMemory, ?_⟩
  intro response cache'
  obtain ⟨m, hm, haddr, hsize⟩ := prewarmCache_current request.pinMemory
    (env.names.canonical_canonical _) hagb hread hne hcur
  simp only [ExecuteQuery, hparse, if_pos hagb]
  rw [and_comm]
  refine and_congr_left fun hc => ?_
  rw [hc, executeAgb, hm]
  simp only [haddr, hread, hsize, Option.getD_some]

/-- The one response for a text file whose document stream ends. -/
theorem executeQuery_text (engine : ApexEngine) {parser : Parser} {env : ServiceEnv}
    {cache : MappedFilesCache} {request : QueryRequest} {json : Bytes}
    {docs : List (Option Document)} {p : ParsedQuery} (hend : env.throwsAfter = none)
    (hparse : parseQuery request.queryString = some p) (htype : p.type = .bitSlicedNumericalLogic)
    (htext : isAgb (env.names.canonical request.filePath) = false)
    (hread : env.files.read (env.names.canonical request.filePath) = some json)
    (hdocs : parser.iterateMany json = some docs) (response : QueryResponse)
    (cache' : MappedFilesCache) :
    ExecuteQuery engine parser env cache request response cache' ↔
      response = .found ((docRecords docs).countP (satisfies p.statusTarget p.latencyTarget))
        json.length ∧ cache' = cache := by
  have hpath : env.names.canonical request.filePath ≠ "" := by
    intro he
    rw [he, env.files.read_empty] at hread
    exact absurd hread (by simp)
  have hopen : Ingester.new.openFile env.ingest (env.names.canonical request.filePath) =
      (true, { Ingester.new with
        filepath := env.names.canonical request.filePath, fileSize := json.length }) := by
    simp only [Ingester.openFile, ServiceEnv.ingest, hread]
  have hrecords : sentRecords parser env.ingest { Ingester.new with
      filepath := env.names.canonical request.filePath, fileSize := json.length } =
      docRecords docs := by
    have hstream : env.ingest.throwsAfter = none := hend
    rw [sentRecords_of_ends hstream, parsedRecords, stream]
    simp only [ServiceEnv.ingest, hread, Option.bind_some, hdocs, if_neg hpath, streamed, hend]
  simp only [ExecuteQuery, hparse, htext, Bool.false_eq_true, if_false, ExecutesText, htype, hopen,
    if_true, returns_iff, hrecords]
  rw [and_comm, exists_eq_left]

/-- The records of the text and those of its export are the same. -/
lemma docRecords_eq (docs : List (Option Document)) :
    docRecords docs = logRecords (acceptedRecords docs) := by
  rw [docRecords, logRecords, acceptedRecords, List.map_filterMap]
  refine List.filterMap_congr fun entry _ => ?_
  cases entry <;> rfl

/-- The service sees a log with at least one readable document and the export of that log. -/
structure SeesExport (parser : Parser) (slicer : BitSlicer) (env : ServiceEnv)
    (logPath agbPath : String) (docs : List (Option Document)) : Prop where
  ends : env.throwsAfter = none
  text : isAgb (env.names.canonical logPath) = false
  binary : isAgb (env.names.canonical agbPath) = true
  exported : ∃ json exportEnv files files',
    env.files.read (env.names.canonical logPath) = some json ∧
    parser.iterateMany json = some docs ∧ exportEnv.map = some json ∧
    exportEnv.agbRoom = none ∧ exportEnv.idxRoom = none ∧
    convertJsonToAgb parser slicer exportEnv files = (true, files') ∧
    env.files.read (env.names.canonical agbPath) = files'.agb
  readable : acceptedRecords docs ≠ []

section responses
variable {parser : Parser} {slicer : BitSlicer} {env : ServiceEnv} {cache : MappedFilesCache}
  {logPath agbPath : String} {docs : List (Option Document)} {query : Bytes} {p : ParsedQuery}

theorem SeesExport.text_response (engine : ApexEngine)
    (h : SeesExport parser slicer env logPath agbPath docs) (hparse : parseQuery query = some p)
    (htype : p.type = .bitSlicedNumericalLogic) (cache : MappedFilesCache) (pin : Bool) :
    ∃ size, ∀ response cache',
      ExecuteQuery engine parser env cache ⟨query, logPath, pin⟩ response cache' ↔
        response = .found ((logRecords (acceptedRecords docs)).countP
          (satisfies p.statusTarget p.latencyTarget)) size ∧ cache' = cache := by
  obtain ⟨json, -, -, -, hread, hdocs, -⟩ := h.exported
  refine ⟨json.length, fun response cache' => ?_⟩
  rw [← docRecords_eq]
  refine executeQuery_text engine h.ends hparse htype ?_ ?_ hdocs response cache'
  · exact h.text
  · exact hread

/-- The file that the export left. -/
lemma SeesExport.read_agb (h : SeesExport parser slicer env logPath agbPath docs) :
    env.files.read (env.names.canonical agbPath) = some (encodeWords
      (agbWords (acceptedRecords docs) (blockCount (acceptedRecords docs).length))) := by
  obtain ⟨json, exportEnv, files, files', -, hdocs, hmap, hagb, hidx, hok, hread⟩ := h.exported
  have hbind : exportEnv.map.bind parser.iterateMany = some docs := by
    rw [hmap, Option.bind_some, hdocs]
  rw [hread, convert_files hagb hidx hbind hok]

lemma SeesExport.agb_ne_nil (h : SeesExport parser slicer env logPath agbPath docs) :
    encodeWords (agbWords (acceptedRecords docs) (blockCount (acceptedRecords docs).length)) ≠
      [] := by
  have hpos : 0 < (acceptedRecords docs).length := List.length_pos_iff.mpr h.readable
  refine List.ne_nil_of_length_pos ?_
  rw [agb_size, blockCount]
  omega

theorem SeesExport.agb_response (engine : ApexEngine)
    (h : SeesExport parser slicer env logPath agbPath docs) (hparse : parseQuery query = some p)
    (hcur : cache.Current env.files (env.names.canonical agbPath)) (pin : Bool) :
    ∃ cache₁, ∀ response cache',
      ExecuteQuery engine parser env cache ⟨query, agbPath, pin⟩ response cache' ↔
        response = .found (scanAgb engine (encodeWords (agbWords (acceptedRecords docs)
            (blockCount (acceptedRecords docs).length)))
            (1024 * blockCount (acceptedRecords docs).length) p)
          (1024 * blockCount (acceptedRecords docs).length) ∧ cache' = cache₁ := by
  rw [← agb_size (acceptedRecords docs)]
  exact executeQuery_agb engine parser hparse h.binary h.read_agb h.agb_ne_nil hcur

/-- Each of the two queries has one response, and the counts of the two agree exactly when
as many records are gained by the scan as are lost by it. -/
theorem query_paths_agree_iff (engine : ApexEngine)
    (h : SeesExport parser slicer env logPath agbPath docs) (hparse : parseQuery query = some p)
    (htype : p.type = .bitSlicedNumericalLogic)
    (hcur : cache.Current env.files (env.names.canonical agbPath)) (pin pin' : Bool) :
    ∃ textResponse agbResponse cache₁,
      (∀ response cache',
        ExecuteQuery engine parser env cache ⟨query, logPath, pin⟩ response cache' ↔
          response = textResponse ∧ cache' = cache) ∧
      (∀ response cache',
        ExecuteQuery engine parser env cache ⟨query, agbPath, pin'⟩ response cache' ↔
          response = agbResponse ∧ cache' = cache₁) ∧
      textResponse.status = .ok ∧ agbResponse.status = .ok ∧
      (agbResponse.totalMatches = textResponse.totalMatches ↔
        PathsAgree (acceptedRecords docs) p.statusTarget p.latencyTarget) := by
  obtain ⟨size, htext⟩ := h.text_response engine hparse htype cache pin
  obtain ⟨cache₁, hagb⟩ := h.agb_response engine hparse hcur pin'
  exact ⟨_, _, cache₁, htext, hagb, rfl, rfl, scan_eq_pipeline_iff engine _ p⟩

end responses

section samples

/-- `app.log` holds two records and `app.agb` is its export. -/
def sampleFiles : FileSystem where
  read path :=
    if path = "app.log" then some sampleFile
    else if path = "app.agb" then
      (convertJsonToAgb (.ofStream sampleStream) .reference (.working sampleFile) ⟨none, none⟩).2.agb
    else none
  read_empty := by simp

def sampleService : ServiceEnv where
  files := sampleFiles
  names := ⟨id, fun _ => rfl⟩
  throwsAfter := none
  scratch := ⟨Vector.replicate 64 0, Vector.replicate 64 0, 0⟩

lemma seesExport_sample :
    SeesExport (.ofStream sampleStream) .reference sampleService "app.log" "app.agb" sampleStream where
  ends := rfl
  text := by decide
  binary := by decide
  exported := by
    refine ⟨sampleFile, .working sampleFile, ⟨none, none⟩, _, ?_, rfl, rfl, rfl, rfl, rfl, ?_⟩
    · rfl
    · rfl
  readable := by decide

theorem query_paths_agree_iff_sample :
    ∃ textResponse agbResponse cache₁,
      (∀ response cache', ExecuteQuery .reference (.ofStream sampleStream) sampleService
        (fun _ => none) ⟨(Query.both (.status 500) (.latency 100)).text, "app.log", false⟩
        response cache' ↔ response = textResponse ∧ cache' = fun _ => none) ∧
      (∀ response cache', ExecuteQuery .reference (.ofStream sampleStream) sampleService
        (fun _ => none) ⟨(Query.both (.status 500) (.latency 100)).text, "app.agb", false⟩
        response cache' ↔ response = agbResponse ∧ cache' = cache₁) ∧
      textResponse.status = .ok ∧ agbResponse.status = .ok ∧
      (agbResponse.totalMatches = textResponse.totalMatches ↔
        PathsAgree (acceptedRecords sampleStream) 500 100) :=
  query_paths_agree_iff .reference seesExport_sample (parseQuery_text _) rfl
    (current_none _ _) false false

/-- The query asks for status 244 and no record has it, but 500 and 244 agree on eight bits. -/
theorem query_paths_differ :
    SeesExport (.ofStream sampleStream) .reference sampleService "app.log" "app.agb" sampleStream ∧
    (∃ p, parseQuery (ascii "status == 244 AND latency > 100") = some p ∧
      p.type = .bitSlicedNumericalLogic) ∧
    ∃ textResponse agbResponse cache₁,
      ExecuteQuery .reference (.ofStream sampleStream) sampleService (fun _ => none)
        ⟨ascii "status == 244 AND latency > 100", "app.log", false⟩ textResponse (fun _ => none) ∧
      ExecuteQuery .reference (.ofStream sampleStream) sampleService (fun _ => none)
        ⟨ascii "status == 244 AND latency > 100", "app.agb", false⟩ agbResponse cache₁ ∧
      textResponse.totalMatches = 0 ∧ agbResponse.totalMatches = 1 := by
  have hparse : parseQuery (ascii "status == 244 AND latency > 100") =
      some ⟨.bitSlicedNumericalLogic, [], 244, 100⟩ :=
    parseQuery_text (.both (.status 244) (.latency 100))
  refine ⟨seesExport_sample, ⟨_, hparse, rfl⟩, ?_⟩
  obtain ⟨size, htext⟩ := seesExport_sample.text_response .reference hparse rfl (fun _ => none) false
  obtain ⟨cache₁, hagb⟩ := seesExport_sample.agb_response .reference hparse
    (current_none _ _) false
  have hnone : (logRecords (acceptedRecords sampleStream)).countP (satisfies 244 100) = 0 := by
    decide
  have hblocks : ¬ blockCount (acceptedRecords sampleStream).length = 1950000 := by decide
  have hone : (logRecords (acceptedRecords sampleStream)).countP (lowSatisfies 244 100) = 1 := by
    decide
  have hscan := scanAgb_written .reference (acceptedRecords sampleStream)
    ⟨.bitSlicedNumericalLogic, [], 244, 100⟩
  rw [if_neg hblocks, hone] at hscan
  refine ⟨_, _, cache₁, (htext _ _).mpr ⟨rfl, rfl⟩, (hagb _ _).mpr ⟨rfl, rfl⟩, hnone, ?_⟩
  rw [QueryResponse.found, hscan]

end samples

end Eureka.Service
