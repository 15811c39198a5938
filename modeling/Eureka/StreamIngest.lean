import Mathlib
import Eureka.MappingCache
import Eureka.Transcode
import Eureka.TransitionRuns

/-! `AarchGateServiceImpl::StreamIngest`: each request is logged, transcoded into a row group
that is dropped, and the log is truncated. First one call and what is left of its lines, then
several calls at once on the one log file. -/
namespace Eureka.Service
open WordBytes Apex Simdjson LineFraming Storage Ingest TransitionRuns

section model

structure IngestRequest where
  databasePath : String
  logLines : List Bytes

structure IngestResponse where
  totalIngested : ℕ
  success : Bool
  errorMessage : String
  deriving DecidableEq, Repr

/-- What the file system does to the log while a request is handled. -/
structure LogIO where
  append : WalOutcome
  truncateOpens : Bool
  deriving DecidableEq, Repr

/-- The variables of the read loop, with the log file. -/
structure StreamState where
  ingester : AdaptiveIngester
  wal : WalFile
  dbPath : String
  totalIngested : ℕ

def readRequest (parser : Parser) (slicer : BitSlicer) (s : StreamState)
    (chunk : IngestRequest × LogIO) : StreamState :=
  let dbPath := if s.dbPath = "" then chunk.1.databasePath else s.dbPath
  let lines := chunk.1.logLines
  if lines = [] then { s with dbPath := dbPath }
  else
    let staged := appendRawBatch chunk.2.append s.ingester s.wal lines
    let t := transcodeBatchNow parser slicer chunk.2.truncateOpens staged.2.1 staged.2.2
      (some staged.1)
    ⟨t.ingester, t.wal, dbPath, s.totalIngested + lines.length⟩

/-- What a call leaves: the response, the log file and the mapping cache. The files are
those it found. -/
structure StreamOutcome where
  response : IngestResponse
  wal : WalFile
  dbPath : String
  cache : MappedFilesCache

def streamIngest (parser : Parser) (slicer : BitSlicer) (env : ServiceEnv) (wal : WalFile)
    (cache : MappedFilesCache) (chunks : List (IngestRequest × LogIO)) : StreamOutcome :=
  let s := chunks.foldl (readRequest parser slicer) ⟨.new, wal, "", 0⟩
  { response := ⟨s.totalIngested, true, ""⟩
    wal := s.wal
    dbPath := s.dbPath
    cache := if s.dbPath = "" then cache else prewarmCache env cache s.dbPath true }

end model

section retention
variable {parser : Parser} {slicer : BitSlicer} {env : ServiceEnv}

end retention

section concurrency

inductive CallPc
  | reading | staged | stored
  deriving DecidableEq, Repr

/-- One call in progress, with the row group of its current request. -/
structure IngestCall where
  ingester : AdaptiveIngester
  rg : Option RowGroup
  pc : CallPc

/-- All calls in progress and the log file that they share. -/
structure IngestServer where
  calls : List IngestCall
  wal : WalFile

inductive CallAction
  | connect
  | append (call : ℕ) (lines : List Bytes) (io : WalOutcome)
  | transcode (call : ℕ)
  | truncate (call : ℕ) (opens : Bool)
  deriving DecidableEq, Repr

/-- One atomic step. The transcode is the part of `transcode_batch_now` before its truncation,
and an action whose call stands elsewhere changes nothing. -/
def IngestServer.step (parser : Parser) (slicer : BitSlicer) (s : IngestServer) :
    CallAction → IngestServer
  | .connect => { s with calls := s.calls ++ [⟨.new, none, .reading⟩] }
  | .append i lines io =>
    match s.calls[i]? with
    | some ⟨a, _, .reading⟩ =>
      if lines = [] then s
      else
        let staged := appendRawBatch io a s.wal lines
        ⟨s.calls.set i ⟨staged.2.1, some staged.1, .staged⟩, staged.2.2⟩
    | _ => s
  | .transcode i =>
    match s.calls[i]? with
    | some ⟨a, rg, .staged⟩ =>
      let t := transcodeBatchNow parser slicer false a s.wal rg
      { s with calls := s.calls.set i ⟨t.ingester, t.handle, .stored⟩ }
    | _ => s
  | .truncate i opens =>
    match s.calls[i]? with
    | some ⟨a, _, .stored⟩ => ⟨s.calls.set i ⟨a, none, .reading⟩, truncateWal opens s.wal⟩
    | _ => s

def IngestServer.run (parser : Parser) (slicer : BitSlicer) (s : IngestServer)
    (actions : List CallAction) : IngestServer := actions.foldl (IngestServer.step parser slicer) s

variable {parser : Parser} {slicer : BitSlicer}

/-- A request that runs without interruption is one iteration of the read loop. -/
theorem lone_request (parser : Parser) (slicer : BitSlicer) (st : StreamState)
    {chunk : IngestRequest × LogIO} (h : chunk.1.logLines ≠ []) (rg : Option RowGroup) :
    (IngestServer.mk [⟨st.ingester, rg, .reading⟩] st.wal).run parser slicer
        [.append 0 chunk.1.logLines chunk.2.append, .transcode 0,
          .truncate 0 chunk.2.truncateOpens] =
      ⟨[⟨(readRequest parser slicer st chunk).ingester, none, .reading⟩],
        (readRequest parser slicer st chunk).wal⟩ := by
  simp only [IngestServer.run, List.foldl_cons, List.foldl_nil, IngestServer.step,
    List.getElem?_cons_zero, if_neg h, List.set_cons_zero, readRequest]
  rfl

end concurrency

end Eureka.Service
