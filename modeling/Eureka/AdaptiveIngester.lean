import Mathlib
import Eureka.Apex
import Eureka.Simdjson
import Eureka.LineFraming
import Eureka.StorageRowGroup

/-! `AdaptiveIngester`: raw batches are logged and staged, and later transcoded into a
columnar row group, which commits the batch and truncates the log. -/
namespace Eureka.Ingest
open WordBytes BitPlanes Apex Simdjson LineFraming Storage

/-- `activeBufferDepth` is a `size_t`. -/
structure AdaptiveIngester where
  fieldToSlotMap : String → Option Byte
  nextHotSlot : Byte
  nextWarmSlot : Byte
  activeBufferDepth : Word

def AdaptiveIngester.new : AdaptiveIngester := ⟨fun _ => none, 0, 0, 0⟩

def getSlotForField (a : AdaptiveIngester) (fieldName : String) : Byte :=
  (a.fieldToSlotMap fieldName).getD 0xff

def assignHotSlot (a : AdaptiveIngester) (field : String) : AdaptiveIngester :=
  if a.fieldToSlotMap field = none then
    { a with
      fieldToSlotMap := Function.update a.fieldToSlotMap field (some a.nextHotSlot)
      nextHotSlot := a.nextHotSlot + 1 }
  else a

def assignWarmSlot (a : AdaptiveIngester) (field : String) : AdaptiveIngester :=
  if a.fieldToSlotMap field = none then
    { a with
      fieldToSlotMap := Function.update a.fieldToSlotMap field (some (32 + a.nextWarmSlot))
      nextWarmSlot := a.nextWarmSlot + 1 }
  else a

/-- The section under `schema_mutex`. -/
def assignSlots (a : AdaptiveIngester) : AdaptiveIngester :=
  assignWarmSlot (assignHotSlot (assignHotSlot a "status") "latency") "trace_id"

structure Slots where
  status : ℕ
  latency : ℕ
  trace : ℕ
  deriving DecidableEq, Repr

def slotsOf (a : AdaptiveIngester) : Slots where
  status := ((a.fieldToSlotMap "status").getD 0).toNat
  latency := ((a.fieldToSlotMap "latency").getD 0).toNat
  trace := ((a.fieldToSlotMap "trace_id").getD 0).toNat

def latencyOrMs (doc : Document) : Word :=
  ((doc.getUint64 "latency").or (doc.getUint64 "latency_ms")).getD 0

def traceOrService (doc : Document) : Option Bytes :=
  (doc.getString "trace_id").or (doc.getString "service")

/-- The row group under construction with the two value buffers of the open block. -/
structure ChunkState where
  rg : RowGroup
  statusBuf : Lanes
  latencyBuf : Lanes

def addTrace (rg : RowGroup) (trace : Option Bytes) : RowGroup :=
  match trace with
  | none => rg
  | some t =>
    { rg with
      stringBloom := rg.stringBloom.add t
      warmDictStrings := rg.warmDictStrings ++ [t] }

def updateZones (slots : Slots) (zones : List ZoneMap) (statusVal latVal : Word) : List ZoneMap :=
  (zones.modify slots.status (·.updateU64 statusVal)).modify slots.latency (·.updateU64 latVal)

/-- Row `i` of a block. Past the last line nothing happens, as after the `break`. -/
def ingestRow (parser : Parser) (slots : Slots) (lines : List Bytes) (block : ℕ)
    (st : ChunkState) (i : ℕ) : ChunkState :=
  match lines[64 * block + i]? with
  | none => st
  | some line =>
    let doc := parser.iterate line
    let statusVal := doc.status
    let latVal := latencyOrMs doc
    let zones := updateZones slots st.rg.zoneMaps statusVal latVal
    { rg := addTrace { st.rg with zoneMaps := zones } (traceOrService doc)
      statusBuf := st.statusBuf.setIfInBounds i statusVal
      latencyBuf := st.latencyBuf.setIfInBounds i latVal }

/-- The direct block write: plane `bit` goes to word `bit * 1024 + block` of each slot. -/
def storePlane (slots : Slots) (statusPlanes latencyPlanes : Lanes) (block : ℕ) (m : Memory)
    (bit : ℕ) : Memory :=
  (m.setWordIn (slots.status * 64 * 8192) (bit * 1024 + block) (statusPlanes.getD bit 0)).setWordIn
    (slots.latency * 64 * 8192) (bit * 1024 + block) (latencyPlanes.getD bit 0)

def markBlock (slots : Slots) (rg : RowGroup) (block : ℕ) : RowGroup :=
  ((rg.setBlockPresence slots.status block).setBlockPresence slots.latency block).setBlockPresence
    slots.trace block

def ingestBlock (parser : Parser) (slicer : BitSlicer) (slots : Slots) (lines : List Bytes)
    (rg : RowGroup) (block : ℕ) : RowGroup :=
  let start : ChunkState :=
    ⟨markBlock slots rg block, Vector.replicate 64 0, Vector.replicate 64 0⟩
  let st := (List.range 64).foldl (ingestRow parser slots lines block) start
  let statusPlanes := slicer.sliceN st.statusBuf
  let latencyPlanes := slicer.sliceN st.latencyBuf
  { st.rg with
    hotDataPlanes := (List.range 64).foldl (storePlane slots statusPlanes latencyPlanes block)
      st.rg.hotDataPlanes }

def chunkFingerprint : Word := 0xABC123987#64

def numBlocksOf (totalLines : ℕ) : ℕ :=
  if 1024 < (totalLines + 63) / 64 then 1024 else (totalLines + 63) / 64

def ingestChunk (parser : Parser) (slicer : BitSlicer) (a : AdaptiveIngester) (lines : List Bytes) :
    RowGroup × AdaptiveIngester :=
  let a := assignSlots a
  let rg := (List.range (numBlocksOf lines.length)).foldl
    (ingestBlock parser slicer (slotsOf a) lines) (RowGroup.new 32 32)
  ({ rg with fingerprintHash := chunkFingerprint }, a)

/-- The log file: `none` while it does not exist. -/
abbrev WalFile := Option Bytes

def newline : Byte := 0x0a#8
def carriageReturn : Byte := 0x0d#8

/-- What the file system does to a log append: the open fails, or the stream accepts some
number of bytes (`none`: all of them). -/
inductive WalOutcome
  | openFails
  | writes (accepted : Option ℕ)
  deriving DecidableEq, Repr

def appendWalEntry (io : WalOutcome) (batch : List Bytes) (wal : WalFile) : Bool × WalFile :=
  match io with
  | .openFails => (false, wal)
  | .writes none => (true, some (wal.getD [] ++ joinLines newline batch))
  | .writes (some k) => (true, some (wal.getD [] ++ (joinLines newline batch).take k))

def truncateWal (opens : Bool) (wal : WalFile) : WalFile := if opens then some [] else wal

/-- `pop_back` of a trailing carriage return. -/
def popCarriageReturn (line : Bytes) : Bytes :=
  if line.getLast? = some carriageReturn then line.dropLast else line

def recoverFromWal (wal : WalFile) : List Bytes :=
  ((splitLines newline (wal.getD [])).filter (· ≠ [])).map popCarriageReturn

def stagedGroup (rawLines : List Bytes) : RowGroup :=
  { RowGroup.new 32 32 with
    rawChunkBuffer := rawLines
    isCompacted := false
    fingerprintHash := chunkFingerprint }

def appendRawBatch (io : WalOutcome) (a : AdaptiveIngester) (wal : WalFile) (rawLines : List Bytes) :
    RowGroup × AdaptiveIngester × WalFile :=
  (stagedGroup rawLines,
    { a with activeBufferDepth := a.activeBufferDepth + BitVec.ofNat 64 rawLines.length },
    (appendWalEntry io rawLines wal).2)

/-- What a transcode leaves: the count it returns, the ingester, the log and the handle. -/
structure Transcoded where
  linesDrained : ℕ
  ingester : AdaptiveIngester
  wal : WalFile
  handle : Option RowGroup

def transcodeBatchNow (parser : Parser) (slicer : BitSlicer) (walOpens : Bool) (a : AdaptiveIngester)
    (wal : WalFile) (handle : Option RowGroup) : Transcoded :=
  match handle with
  | none => ⟨0, a, wal, handle⟩
  | some oldRg =>
    if oldRg.isCompacted then ⟨0, a, wal, handle⟩
    else
      let linesDrained := oldRg.rawChunkBuffer.length
      let chunk := ingestChunk parser slicer a oldRg.rawChunkBuffer
      let depth := chunk.2.activeBufferDepth - BitVec.ofNat 64 linesDrained
      ⟨linesDrained, { chunk.2 with activeBufferDepth := depth }, truncateWal walOpens wal,
        some { chunk.1 with isCompacted := true }⟩

end Eureka.Ingest
