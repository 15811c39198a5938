import Mathlib
import Eureka.IngestOutcomes
import Eureka.QueryPaths
import Eureka.StringSearch
import Eureka.WalAcknowledgment

/-! `ag-lex`, the command line tool. With `--stream-ingest` the lines of the standard input are
collected until there are 1000 of them, and each batch is logged and transcoded. Otherwise a query
runs over a file without the service. Both do what the service does with the same lines and the
same query. -/
namespace Eureka.CommandLine
open WordBytes Apex Simdjson ByteText Dispatcher LineFraming Storage Pipeline Exporter Ingest
open Service (ServiceEnv LogIO MappedFilesCache QueryRequest QueryResponse ExecuteQuery
  readRequest scanFile isAgb)
open QueryService (batches batchesFrom)

section ingestion

/-- The variables of the loop, with the log file. `flushed` records the batches and what
transcoding them left. -/
structure StreamLoop where
  ingester : AdaptiveIngester
  wal : WalFile
  batch : List Bytes
  totalIngested : ℕ
  flushed : List (List Bytes × Transcoded)

def StreamLoop.start (wal : WalFile) : StreamLoop := ⟨.new, wal, [], 0, []⟩

variable (parser : Parser) (slicer : BitSlicer) (logOutcomes : ℕ → LogIO)

/-- `logOutcomes` is what the file system does to the log for each batch. -/
def StreamLoop.flush (s : StreamLoop) : StreamLoop :=
  let io := logOutcomes s.flushed.length
  let staged := appendRawBatch io.append s.ingester s.wal s.batch
  let t := transcodeBatchNow parser slicer io.truncateOpens staged.2.1 staged.2.2 (some staged.1)
  ⟨t.ingester, t.wal, [], s.totalIngested + s.batch.length, s.flushed ++ [(s.batch, t)]⟩

def StreamLoop.readLine (s : StreamLoop) (line : Bytes) : StreamLoop :=
  let s := { s with batch := s.batch ++ [line] }
  if 1000 ≤ s.batch.length then s.flush parser slicer logOutcomes else s

/-- The batch that is left when the input ends. -/
def StreamLoop.finish (s : StreamLoop) : StreamLoop :=
  if s.batch = [] then s else s.flush parser slicer logOutcomes

/-- `getline` returns the last line of the input also without its newline. -/
def streamIngest (wal : WalFile) (stdin : Bytes) : StreamLoop :=
  ((splitLines newline stdin).foldl (StreamLoop.readLine parser slicer logOutcomes)
    (StreamLoop.start wal)).finish parser slicer logOutcomes

/-- What the gateway sends for these lines, with what happens to the log. -/
def gatewayRequests (dbPath : String) (lines : List Bytes) : List (Service.IngestRequest × LogIO) :=
  (batches lines).mapIdx fun i batch => (⟨dbPath, batch⟩, logOutcomes i)

/-- Every line is counted and has its row, the backlog is empty, and the service that gets the
lines in a stream of the gateway gives the same count and leaves the same log. -/
structure StreamIngested (wal : WalFile) (lines : List Bytes) (s : StreamLoop) : Prop where
  counted : s.totalIngested = lines.length
  batched : s.flushed.map Prod.fst = batches lines
  drained : s.ingester.activeBufferDepth = 0
  stored : ∀ b ∈ s.flushed, b.1 ≠ [] ∧
    ∃ a, Reachable parser slicer a ∧ Acknowledged parser a b.1 b.2
  served : ∀ env cache dbPath, ∃ path cache',
    Service.streamIngest parser slicer env wal cache (gatewayRequests logOutcomes dbPath lines) =
      ⟨⟨s.totalIngested, true, ""⟩, s.wal, path, cache'⟩

section partition
variable {L : Type*} {n : ℕ} {lines : List L}

lemma batchesFrom_nil (n : ℕ) : batchesFrom n ([] : List L) = [] := by
  cases n <;> rfl

/-- Enough steps give the same sublists. -/
lemma batchesFrom_eq {m : ℕ} (hn : lines.length ≤ n) (hm : lines.length ≤ m) :
    batchesFrom n lines = batchesFrom m lines := by
  induction n generalizing m lines with
  | zero =>
    rw [List.eq_nil_of_length_eq_zero (Nat.le_zero.mp hn), batchesFrom_nil, batchesFrom_nil]
  | succ n ih =>
    by_cases hne : lines = []
    · rw [hne, batchesFrom_nil, batchesFrom_nil]
    · obtain ⟨k, rfl⟩ : ∃ k, m = k + 1 := Nat.exists_eq_succ_of_ne_zero fun hzero =>
        hne (List.eq_nil_of_length_eq_zero (Nat.le_zero.mp (hzero ▸ hm)))
      have hdrop : (lines.drop QueryService.batchSize).length + 1 ≤ lines.length := by
        have hpos := List.length_pos_iff.mpr hne
        rw [List.length_drop, QueryService.batchSize]
        omega
      rw [batchesFrom, batchesFrom, if_neg hne, if_neg hne,
        ih (Nat.le_of_succ_le_succ (hdrop.trans hn)) (Nat.le_of_succ_le_succ (hdrop.trans hm))]

/-- A full batch is the first sublist. -/
lemma batches_full {batch : List L} (h : batch.length = 1000) (rest : List L) :
    batches (batch ++ rest) = batch :: batches rest := by
  have hne : batch ++ rest ≠ [] := by
    intro hnil
    rw [List.append_eq_nil_iff.mp hnil |>.1] at h
    cases h
  have htake : (batch ++ rest).take QueryService.batchSize = batch := List.take_left' h
  have hdrop : (batch ++ rest).drop QueryService.batchSize = rest := List.drop_left' h
  have hsteps : (batch ++ rest).length = 999 + rest.length + 1 := by
    rw [List.length_append, h]
    omega
  rw [batches, hsteps, batchesFrom, if_neg hne, htake, hdrop]
  exact congrArg (batch :: ·) (batchesFrom_eq (Nat.le_add_left _ _) le_rfl)

/-- A batch that is not full is the last sublist. -/
lemma batches_short {batch : List L} (hne : batch ≠ []) (h : batch.length ≤ 1000) :
    batches batch = [batch] := by
  obtain ⟨m, hm⟩ := Nat.exists_eq_succ_of_ne_zero (List.length_pos_iff.mpr hne).ne'
  have htake : batch.take QueryService.batchSize = batch := List.take_of_length_le h
  have hdrop : batch.drop QueryService.batchSize = [] := List.drop_of_length_le h
  rw [batches, hm, batchesFrom, if_neg hne, htake, hdrop, batchesFrom_nil]

/-- The sublists have between one and 1000 lines. -/
lemma length_of_mem_batchesFrom {batch : List L} (h : batch ∈ batchesFrom n lines) :
    batch ≠ [] ∧ batch.length ≤ 1000 := by
  induction n generalizing lines with
  | zero => exact absurd h List.not_mem_nil
  | succ n ih =>
    rw [batchesFrom] at h
    split_ifs at h with hne
    · exact absurd h List.not_mem_nil
    · rcases List.mem_cons.mp h with rfl | h
      · exact ⟨by simpa [QueryService.batchSize] using hne, List.length_take_le _ _⟩
      · exact ih h

end partition

variable {parser slicer logOutcomes}
variable {s : StreamLoop} {lines : List Bytes}

/-- A batch that is logged and transcoded at once. -/
def StreamLoop.ingest (parser : Parser) (slicer : BitSlicer) (logOutcomes : ℕ → LogIO) (s : StreamLoop)
    (batch : List Bytes) : StreamLoop :=
  StreamLoop.flush parser slicer logOutcomes { s with batch := batch }

/-- Collecting the lines and cutting them beforehand is the same. -/
lemma finish_foldl (h : s.batch.length < 1000) :
    (lines.foldl (StreamLoop.readLine parser slicer logOutcomes) s).finish parser slicer logOutcomes =
      (batches (s.batch ++ lines)).foldl (StreamLoop.ingest parser slicer logOutcomes)
        { s with batch := [] } := by
  induction lines generalizing s with
  | nil =>
    rw [List.foldl_nil, StreamLoop.finish, List.append_nil]
    split_ifs with hnil
    · obtain ⟨ingester, wal, batch, total, flushed⟩ := s
      obtain rfl : batch = [] := hnil
      rfl
    · rw [batches_short hnil h.le]
      rfl
  | cons line lines ih =>
    have hsnoc : s.batch ++ line :: lines = (s.batch ++ [line]) ++ lines := List.append_cons _ _ _
    have hlength : (s.batch ++ [line]).length = s.batch.length + 1 := List.length_append
    rw [List.foldl_cons, StreamLoop.readLine, hsnoc]
    by_cases hfull : 1000 ≤ (s.batch ++ [line]).length
    · have hexact : (s.batch ++ [line]).length = 1000 := by omega
      rw [if_pos hfull, batches_full hexact, List.foldl_cons, ih (by simp [StreamLoop.flush])]
      rfl
    · rw [if_neg hfull, ih (not_le.mp hfull)]

/-- One batch: the count grows by it, and the backlog is as before. -/
lemma ingest_transcoded {logOutcomes : ℕ → LogIO} (hs : Reachable parser slicer s.ingester)
    (batch : List Bytes) (hlen : batch.length ≤ 1000) :
    ∃ t, StreamLoop.ingest parser slicer logOutcomes s batch =
        ⟨t.ingester, t.wal, [], s.totalIngested + batch.length, s.flushed ++ [(batch, t)]⟩ ∧
      (∃ a, Reachable parser slicer a ∧ Acknowledged parser a batch t) ∧
      Reachable parser slicer t.ingester ∧
      t.ingester.activeBufferDepth = s.ingester.activeBufferDepth := by
  have hstaged := Reachable.append (logOutcomes s.flushed.length).append s.wal batch hs
  refine ⟨_, rfl, ⟨_, hstaged, ?_⟩, .transcode _ _ _ hstaged, ?_⟩
  · exact acknowledged_of_length_le _ hstaged _ (hlen.trans (by norm_num))
  · simp only [appendRawBatch, transcode_staged, assignSlots_depth]
    exact add_sub_cancel_right _ _

/-- What holds after some batches. -/
structure Progress (parser : Parser) (slicer : BitSlicer) (logOutcomes : ℕ → LogIO) (wal : WalFile)
    (dbPath : String) (done : List (List Bytes)) (s : StreamLoop) : Prop where
  reachable : Reachable parser slicer s.ingester
  counted : s.totalIngested = done.flatten.length
  batched : s.flushed.map Prod.fst = done
  drained : s.ingester.activeBufferDepth = 0
  stored : ∀ b ∈ s.flushed, ∃ a, Reachable parser slicer a ∧ Acknowledged parser a b.1 b.2
  served : ∃ path, (done.mapIdx fun i batch => (⟨dbPath, batch⟩, logOutcomes i)).foldl
    (readRequest parser slicer) ⟨.new, wal, "", 0⟩ = ⟨s.ingester, s.wal, path, s.totalIngested⟩

lemma progress_start (wal : WalFile) (dbPath : String) :
    Progress parser slicer logOutcomes wal dbPath [] (StreamLoop.start wal) where
  reachable := .new
  counted := rfl
  batched := rfl
  drained := rfl
  stored _ h := absurd h List.not_mem_nil
  served := ⟨"", rfl⟩

lemma progress_ingest {wal : WalFile} {dbPath : String} {done : List (List Bytes)}
    (h : Progress parser slicer logOutcomes wal dbPath done s) {batch : List Bytes} (hne : batch ≠ [])
    (hlen : batch.length ≤ 1000) :
    Progress parser slicer logOutcomes wal dbPath (done ++ [batch])
      (StreamLoop.ingest parser slicer logOutcomes s batch) := by
  have hindex : s.flushed.length = done.length := by rw [← h.batched, List.length_map]
  obtain ⟨path, hserved⟩ := h.served
  obtain ⟨t, ht, hstored, hreachable, hdepth⟩ := ingest_transcoded h.reachable batch hlen
  refine ⟨?_, ?_, ?_, ?_, ?_, ?_⟩
  · rw [ht]
    exact hreachable
  · rw [ht, h.counted, List.flatten_concat, List.length_append]
  · rw [ht, List.map_append, h.batched]
    rfl
  · rw [ht]
    exact hdepth.trans h.drained
  · rw [ht]
    intro b hb
    rcases List.mem_append.mp hb with hb | hb
    · exact h.stored b hb
    · obtain rfl := List.mem_singleton.mp hb
      exact hstored
  · rw [List.mapIdx_concat, List.foldl_append, hserved, List.foldl_cons, List.foldl_nil, readRequest,
      if_neg hne, ← hindex]
    exact ⟨_, rfl⟩

lemma progress_foldl (wal : WalFile) (dbPath : String) {bs : List (List Bytes)}
    (h : ∀ b ∈ bs, b ≠ [] ∧ b.length ≤ 1000) : Progress parser slicer logOutcomes wal dbPath bs
      (bs.foldl (StreamLoop.ingest parser slicer logOutcomes) (StreamLoop.start wal)) := by
  induction bs using List.reverseRecOn with
  | nil => exact progress_start wal dbPath
  | append_singleton bs b ih =>
    have hb := h b (List.mem_append_right _ List.mem_cons_self)
    rw [List.foldl_append]
    exact progress_ingest (ih fun b' hb' => h b' (List.mem_append_left _ hb')) hb.1 hb.2

/-- Whatever the input is and whatever happens to the log, the tool counts and transcodes every
line of the input, in the batches of the gateway, and the service does the same with them. -/
theorem stream_ingested (parser : Parser) (slicer : BitSlicer) (logOutcomes : ℕ → LogIO) (wal : WalFile)
    (stdin : Bytes) : StreamIngested parser slicer logOutcomes wal (splitLines newline stdin)
      (streamIngest parser slicer logOutcomes wal stdin) := by
  have hloop : streamIngest parser slicer logOutcomes wal stdin =
      (batches (splitLines newline stdin)).foldl (StreamLoop.ingest parser slicer logOutcomes)
        (StreamLoop.start wal) := finish_foldl (by simp [StreamLoop.start])
  have hsizes : ∀ b ∈ batches (splitLines newline stdin), b ≠ [] ∧ b.length ≤ 1000 :=
    fun b hb => length_of_mem_batchesFrom hb
  have hprogress : ∀ dbPath, Progress parser slicer logOutcomes wal dbPath
      (batches (splitLines newline stdin)) (streamIngest parser slicer logOutcomes wal stdin) := by
    intro dbPath
    rw [hloop]
    exact progress_foldl wal dbPath hsizes
  have hdone := hprogress ""
  refine ⟨?_, hdone.batched, hdone.drained, fun b hb => ⟨?_, hdone.stored b hb⟩, ?_⟩
  · rw [hdone.counted, batches, QueryService.flatten_batchesFrom le_rfl]
  · have hmem : b.1 ∈ batches (splitLines newline stdin) := by
      rw [← hdone.batched]
      exact List.mem_map_of_mem hb
    exact (hsizes b.1 hmem).1
  · intro env cache dbPath
    obtain ⟨path, hserved⟩ := (hprogress dbPath).served
    rw [Service.streamIngest, gatewayRequests, hserved]
    exact ⟨_, _, rfl⟩

end ingestion

section query

structure Options where
  pinMemory : Bool
  args : List Bytes

/-- The flag is taken out wherever it stands. -/
def parseArgs (argv : List Bytes) : Options where
  pinMemory := argv.contains (ascii "--pin-memory")
  args := argv.filter (· ≠ ascii "--pin-memory")

/-- What a run of the tool meets. `fileName` is the name that an argument spells, and `statSize`
is 0 where `stat` fails. -/
structure ToolEnv where
  service : ServiceEnv
  fileName : Bytes → String
  statSize : String → ℕ
  statSize_read : ∀ path bytes, service.files.read path = some bytes → statSize path = bytes.length
  exporting : Bytes → Bytes → ExportEnv
  exported : Bytes → AgbFiles
  stdin : Bytes
  wal : WalFile
  logOutcomes : ℕ → LogIO

inductive ToolOutput
  | converted (success : Bool)
  | ingested (totalIngested : ℕ)
  | usage
  | notMapped
  | counted (totalMatches fileBytes : ℕ)
  deriving DecidableEq, Repr

def ToolOutput.exitCode : ToolOutput → ℕ
  | .converted success => if success then 0 else 1
  | .ingested _ => 0
  | .usage => 1
  | .notMapped => 1
  | .counted _ _ => 0

/-- The two profiles. There is none for a binary file. -/
def RunsQuery (engine : ApexEngine) (parser : Parser) (env : ToolEnv) (query : ParsedQuery)
    (filepath : String) (output : ToolOutput) : Prop :=
  match query.type with
  | .scalarStringSearch =>
    ∃ totalMatches,
      scanFile ((env.service.files.read filepath).getD []) query.stringPattern = some totalMatches ∧
        output = .counted totalMatches (env.statSize filepath)
  | .bitSlicedNumericalLogic =>
    let opened := Ingester.new.openFile env.service.ingest filepath
    if opened.1 then
      ∃ totalMatches, Returns engine parser env.service.ingest opened.2 query.statusTarget
          query.latencyTarget totalMatches ∧
        output = .counted totalMatches opened.2.fileSize
    else output = .notMapped

/-- The outputs that a run can give. -/
def Main (engine : ApexEngine) (parser : Parser) (slicer : BitSlicer) (env : ToolEnv)
    (argv : List Bytes) (output : ToolOutput) : Prop :=
  match (parseArgs argv).args with
  | first :: second :: rest =>
    if rest ≠ [] ∧ first = ascii "--convert" then
      output = .converted (convertJsonToAgb parser slicer (env.exporting second (rest.headD []))
        (env.exported (rest.headD []))).1
    else if first = ascii "--stream-ingest" then
      output = .ingested (streamIngest parser slicer env.logOutcomes env.wal env.stdin).totalIngested
    else
      match parseQuery first with
      | none => False
      | some query => RunsQuery engine parser env query (env.fileName second) output
  | _ => output = .usage

/-- The arguments ask for a query over a file. -/
structure AsksQuery (argv : List Bytes) (query path : Bytes) : Prop where
  args : ∃ rest, (parseArgs argv).args = query :: path :: rest ∧
    (query = ascii "--convert" → rest = [])
  noStream : query ≠ ascii "--stream-ingest"
  noNul : 0 ∉ query

variable {pattern q : Bytes} {c : Byte}

lemma mem_trim (h : c ∈ trim q) : c ∈ q :=
  (List.dropWhile_suffix _).subset ((List.rdropWhile_prefix _ _).subset h)

lemma mem_stripQuotes (hp : stripQuotes q = some pattern) (h : c ∈ pattern) : c ∈ q := by
  rw [stripQuotes] at hp
  split_ifs at hp
  · obtain rfl := Option.some.inj hp
    exact List.mem_of_mem_drop (List.mem_of_mem_take h)
  · obtain rfl := Option.some.inj hp
    exact h

/-- A text pattern has only bytes of its query. -/
lemma mem_stringPattern {query : ParsedQuery} (hq : parseQuery q = some query)
    (h : c ∈ query.stringPattern) : c ∈ q := by
  rw [parseQuery] at hq
  split_ifs at hq
  · obtain rfl := Option.some.inj hq
    exact absurd h List.not_mem_nil
  · obtain ⟨pattern, hp, rfl⟩ := Option.map_eq_some_iff.mp hq
    apply mem_trim
    rw [parseString] at hp
    split_ifs at hp
    · exact List.mem_of_mem_drop (List.mem_of_mem_take (mem_trim (mem_stripQuotes hp h)))
    · exact mem_stripQuotes hp h

/-- The scan of the tool and the scan of the service count alike. -/
lemma scanFile_service {files : Service.FileSystem} {path : String} {bytes : Bytes} (h0 : 0 ∉ pattern)
    (hread : files.read path = some bytes) :
    scanFile bytes pattern = some (Service.runScalarStringSearch files path pattern).1 := by
  rw [Service.runScalarStringSearch, hread]
  by_cases hw : pattern = []
  · subst hw
    simp only [scanFile, if_true]
    exact ite_self _
  · rw [Service.scanFile_greedy hw h0]
    simp only [if_neg hw, Service.countFrom_eq hw h0 0]
    rfl

/-- The pipeline of a readable file sees the file and not its name. -/
lemma sentRecords_read (parser : Parser) (env : ServiceEnv) {path path' : String} {bytes : Bytes}
    (hread : env.files.read path = some bytes) (hread' : env.files.read path' = some bytes) :
    sentRecords parser env.ingest (Ingester.new.openFile env.ingest path).2 =
      sentRecords parser env.ingest (Ingester.new.openFile env.ingest path').2 := by
  have hname : ∀ {p : String}, env.files.read p = some bytes → p ≠ "" := by
    rintro p hp rfl
    rw [env.files.read_empty] at hp
    cases hp
  simp only [Ingester.openFile, ServiceEnv.ingest, hread, hread', sentRecords, parsedRecords, stream,
    if_neg (hname hread), if_neg (hname hread')]

/-- Over a text file that can be read, the tool prints a count exactly when the service answers it,
for the same query, with and without pinning. -/
theorem tool_counts_as_service (engine : ApexEngine) (parser : Parser) (slicer : BitSlicer)
    (env : ToolEnv) (cache : MappedFilesCache) {argv : List Bytes} {query path bytes : Bytes}
    (hargs : AsksQuery argv query path)
    (htext : isAgb (env.service.names.canonical (env.fileName path)) = false)
    (hread : env.service.files.read (env.fileName path) = some bytes)
    (hsame : env.service.files.read (env.service.names.canonical (env.fileName path)) = some bytes)
    (totalMatches fileBytes : ℕ) :
    Main engine parser slicer env argv (.counted totalMatches fileBytes) ↔
      ∃ cache', ExecuteQuery engine parser env.service cache
        ⟨query, env.fileName path, (parseArgs argv).pinMemory⟩ (.found totalMatches fileBytes)
        cache' := by
  obtain ⟨rest, hparse, hconvert⟩ := hargs.args
  have hquery : ¬ (rest ≠ [] ∧ query = ascii "--convert") := fun h => h.1 (hconvert h.2)
  simp only [Main, hparse, if_neg hquery, if_neg hargs.noStream, ExecuteQuery, htext,
    Bool.false_eq_true, if_false]
  cases hq : parseQuery query with
  | none => simp
  | some p =>
    have hcache : ∀ P : Prop, (∃ cache', cache' = cache ∧ P) ↔ P := fun P => by simp
    simp only [hcache, RunsQuery, Service.ExecutesText]
    cases p.type with
    | scalarStringSearch =>
      have h0 : 0 ∉ p.stringPattern := fun h => hargs.noNul (mem_stringPattern hq h)
      have hsize : (Service.runScalarStringSearch env.service.files
          (env.service.names.canonical (env.fileName path)) p.stringPattern).2 = bytes.length := by
        rw [Service.runScalarStringSearch, hsame]
        dsimp only
        split_ifs <;> rfl
      simp only [hread, Option.getD_some, scanFile_service h0 hsame, hsize,
        env.statSize_read _ _ hread, Option.some.injEq, exists_eq_left', ToolOutput.counted.injEq,
        QueryResponse.found, QueryResponse.mk.injEq, true_and, and_true]
    | bitSlicedNumericalLogic =>
      have hrecords := sentRecords_read parser env.service hread hsame
      simp only [returns_iff, hrecords]
      simp only [Ingester.openFile, ServiceEnv.ingest, hread, hsame, if_true, exists_eq_left,
        ToolOutput.counted.injEq, QueryResponse.found, QueryResponse.mk.injEq, true_and, and_true]

open Service in
def sampleTool : ToolEnv where
  service := sampleService
  fileName _ := "app.log"
  statSize path := ((sampleService.files.read path).getD []).length
  statSize_read _ _ h := by rw [h, Option.getD_some]
  exporting _ _ := .working []
  exported _ := ⟨none, none⟩
  stdin := []
  wal := none
  logOutcomes _ := ⟨.writes none, true⟩

def sampleArgs : List Bytes :=
  [ascii "--pin-memory", ascii "status == 500 AND latency > 100", ascii "app.log"]

theorem tool_counts_as_service_sample :
    Main .reference (.ofStream sampleStream) .reference sampleTool sampleArgs
        (.counted 1 sampleFile.length) ↔
      ∃ cache', ExecuteQuery .reference (.ofStream sampleStream) sampleTool.service (fun _ => none)
        ⟨ascii "status == 500 AND latency > 100", "app.log", true⟩ (.found 1 sampleFile.length)
        cache' := by
  have hargs : AsksQuery sampleArgs (ascii "status == 500 AND latency > 100") (ascii "app.log") :=
    ⟨⟨[], by decide, fun _ => rfl⟩, by decide, by decide⟩
  exact tool_counts_as_service .reference _ .reference sampleTool _ hargs (by decide) rfl rfl 1 _

end query

end Eureka.CommandLine
