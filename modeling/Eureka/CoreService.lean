import Mathlib
import Eureka.Dispatcher
import Eureka.PipelineProgress

/-! `AarchGateServiceImpl::ExecuteQuery`: a query runs over an exported `.agb` file as a
bit-sliced scan of the mapped file, over any other file as a substring count or through the
streaming pipeline. -/
namespace Eureka.Service
open WordBytes Apex Simdjson ByteText Dispatcher Pipeline

/-- `none` where a file cannot be opened or mapped. -/
structure FileSystem where
  read : String → Option Bytes
  read_empty : read "" = none

/-- `weakly_canonical`, with the given path where it throws. -/
structure PathNames where
  canonical : String → String
  canonical_canonical : ∀ path, canonical (canonical path) = canonical path

/-- What a call meets outside the service; see `IngestEnv` for the last two. -/
structure ServiceEnv where
  files : FileSystem
  names : PathNames
  throwsAfter : Option ℕ
  scratch : LogChunk

def ServiceEnv.ingest (env : ServiceEnv) : IngestEnv :=
  ⟨env.files.read, env.throwsAfter, env.scratch⟩

/-- `addr` is the file whose pages a shared mapping shows. -/
structure MappedFile where
  addr : String
  size : ℕ
  pinned : Bool
  pinInProgress : Bool
  deriving DecidableEq, Repr

abbrev MappedFilesCache := String → Option MappedFile

def isAgb (filepath : String) : Bool :=
  4 ≤ filepath.length ∧ filepath.toList.drop (filepath.length - 4) = ".agb".toList

/-- Maps a file that is not cached yet, or notes that pinning was requested for one that is. -/
def prewarmCache (env : ServiceEnv) (cache : MappedFilesCache) (rawFilepath : String)
    (pinMemory : Bool) : MappedFilesCache :=
  let filepath := env.names.canonical rawFilepath
  if ¬ isAgb filepath then cache
  else
    match cache filepath with
    | some m =>
      if pinMemory ∧ ¬ m.pinned ∧ ¬ m.pinInProgress then
        Function.update cache filepath (some { m with pinInProgress := true })
      else cache
    | none =>
      match env.files.read filepath with
      | none => cache
      | some bytes =>
        if bytes = [] then cache
        else Function.update cache filepath (some ⟨filepath, bytes.length, false, pinMemory⟩)

def numFields (fileBytes : ℕ) : ℕ := if fileBytes = 1996800000 then 3 else 2

def numBlocks (fileBytes : ℕ) : ℕ := fileBytes / (numFields fileBytes * 64 * 8)

def agbFields (fileBytes : ℕ) : List FieldDescriptor :=
  if numFields fileBytes = 3 then [⟨"status", 0, 8⟩, ⟨"latency", 8, 8⟩, ⟨"severity", 16, 8⟩]
  else [⟨"status", 0, 8⟩, ⟨"latency", 8, 8⟩]

/-- The scan of a mapping of `fileBytes` bytes. -/
def scanAgb (engine : ApexEngine) (bytes : Bytes) (fileBytes : ℕ) (query : ParsedQuery) : ℕ :=
  engine.executeNativeParallel (agbFields fileBytes)
    (queryRoot query.statusTarget query.latencyTarget) (wordAt bytes) (numBlocks fileBytes) 4

/-- `strncmp(a, b, n) == 0`: a common NUL ends the comparison. -/
def strncmpEq : ℕ → Bytes → Bytes → Bool
  | 0, _, _ => true
  | _ + 1, [], [] => true
  | _ + 1, [], b :: _ => b = 0
  | _ + 1, a :: _, [] => a = 0
  | n + 1, a :: as, b :: bs => a = b ∧ (a = 0 ∨ strncmpEq n as bs)

/-- The search from the current byte on; `skip` bytes of an occurrence are still passed over. -/
def countFrom (pattern : Bytes) : ℕ → Bytes → ℕ
  | _, [] => 0
  | 0, c :: cs =>
    if (c :: cs).length < pattern.length then 0
    else if pattern.head? = some c ∧ strncmpEq pattern.length (c :: cs) pattern then
      1 + countFrom pattern (pattern.length - 1) cs
    else countFrom pattern 0 cs
  | skip + 1, _ :: cs => countFrom pattern skip cs

/-- The count and the file size; both zero if the file cannot be mapped or is empty. -/
def runScalarStringSearch (fs : FileSystem) (filepath : String) (pattern : Bytes) : ℕ × ℕ :=
  match fs.read filepath with
  | none => (0, 0)
  | some bytes =>
    if pattern = [] then (0, bytes.length) else (countFrom pattern 0 bytes, bytes.length)

structure QueryRequest where
  queryString : Bytes
  filePath : String
  pinMemory : Bool

inductive StatusCode
  | ok | notFound | internal
  deriving DecidableEq, Repr

structure QueryResponse where
  status : StatusCode
  totalMatches : ℕ
  bytesProcessed : ℕ
  errorMessage : String
  deriving DecidableEq, Repr

def QueryResponse.found (totalMatches bytesProcessed : ℕ) : QueryResponse :=
  ⟨.ok, totalMatches, bytesProcessed, ""⟩

/-- The answer for a binary file, after prewarming. -/
def executeAgb (engine : ApexEngine) (env : ServiceEnv) (cache : MappedFilesCache)
    (filepath : String) (query : ParsedQuery) : QueryResponse :=
  match cache filepath with
  | none => ⟨.internal, 0, 0, "Failed to map binary file: " ++ filepath⟩
  | some m => .found (scanAgb engine ((env.files.read m.addr).getD []) m.size query) m.size

/-- The answers for any other file, over the interleavings of the pipeline. -/
def ExecutesText (engine : ApexEngine) (parser : Parser) (env : ServiceEnv) (filepath : String)
    (query : ParsedQuery) (response : QueryResponse) : Prop :=
  match query.type with
  | .scalarStringSearch =>
    response = .found (runScalarStringSearch env.files filepath query.stringPattern).1
      (runScalarStringSearch env.files filepath query.stringPattern).2
  | .bitSlicedNumericalLogic =>
    let opened := Ingester.new.openFile env.ingest filepath
    if opened.1 then
      ∃ totalMatches, Returns engine parser env.ingest opened.2 query.statusTarget
          query.latencyTarget totalMatches ∧
        response = .found totalMatches opened.2.fileSize
    else response = ⟨.notFound, 0, 0, "Failed to open index file: " ++ filepath⟩

/-- A call of `ExecuteQuery` on a service with the given mapping cache: the responses it can
give and the cache it leaves. There is none where `parse_query` has no defined result. -/
def ExecuteQuery (engine : ApexEngine) (parser : Parser) (env : ServiceEnv)
    (cache : MappedFilesCache) (request : QueryRequest) (response : QueryResponse)
    (cache' : MappedFilesCache) : Prop :=
  let filepath := env.names.canonical request.filePath
  match parseQuery request.queryString with
  | none => False
  | some query =>
    if isAgb filepath then
      cache' = prewarmCache env cache filepath request.pinMemory ∧
        response = executeAgb engine env cache' filepath query
    else cache' = cache ∧ ExecutesText engine parser env filepath query response

end Eureka.Service
