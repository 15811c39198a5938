import Mathlib
import Eureka.Apex
import Eureka.Simdjson
import Eureka.FixedBlocks

/-! `convert_json_to_agb`: the document stream is sliced block by block into the `.agb`
file, with the byte offset of every record in the companion `.agb.idx` file. -/
namespace Eureka.Exporter
open WordBytes BitPlanes Apex Simdjson FixedBlocks

/-- An output stream. `room` is what the device still accepts (`none`: no limit); a short
write takes the bytes that fit and leaves the stream failed. -/
structure OutStream where
  written : Bytes
  room : Option ℕ
  good : Bool
  deriving DecidableEq, Repr

def OutStream.open (room : Option ℕ) : OutStream := ⟨[], room, true⟩

def OutStream.write (o : OutStream) (bs : Bytes) : OutStream :=
  if o.good then
    match o.room with
    | none => { o with written := o.written ++ bs }
    | some k => ⟨o.written ++ bs.take k, some (k - bs.length), decide (bs.length ≤ k)⟩
  else o

/-- The buffers reused from block to block and the outputs so far. A buffer index is
always below 64. -/
structure ExportState where
  statusBuf : Lanes
  latencyBuf : Lanes
  offsetBuf : Lanes
  currentCount : Fin 64
  recordCount : ℕ
  blockCount : ℕ
  outFile : OutStream
  outIdx : OutStream

def lanesBytes (ls : Lanes) : Bytes := encodeWords ls.toList

def ExportState.init (agbRoom idxRoom : Option ℕ) : ExportState where
  statusBuf := Vector.replicate 64 0
  latencyBuf := Vector.replicate 64 0
  offsetBuf := Vector.replicate 64 0
  currentCount := 0
  recordCount := 0
  blockCount := 0
  outFile := .open agbRoom
  outIdx := .open idxRoom

/-- Slice both value buffers and write status planes, latency planes and offsets. -/
def writeBlock (slicer : BitSlicer) (st : ExportState) : ExportState :=
  { st with
    outFile := (st.outFile.write (lanesBytes (slicer.sliceN st.statusBuf))).write
      (lanesBytes (slicer.sliceN st.latencyBuf))
    outIdx := st.outIdx.write (lanesBytes st.offsetBuf)
    blockCount := st.blockCount + 1 }

/-- The offset of a document: zero unless `raw_json()` gave a non-empty view. -/
def docOffset (doc : Document) : Word :=
  match doc.rawJson with
  | some (offset, text) => if text = [] then 0 else offset
  | none => 0

def exportDoc (slicer : BitSlicer) (st : ExportState) (doc : Document) : ExportState :=
  let st' := { st with
    statusBuf := st.statusBuf.set st.currentCount doc.status
    latencyBuf := st.latencyBuf.set st.currentCount doc.latency
    offsetBuf := st.offsetBuf.set st.currentCount (docOffset doc)
    recordCount := st.recordCount + 1 }
  if h : st.currentCount.val + 1 < 64 then
    { st' with currentCount := ⟨st.currentCount.val + 1, h⟩ }
  else
    { writeBlock slicer st' with currentCount := 0 }

/-- One turn of the stream loop; a document that carries an error is skipped. -/
def exportEntry (slicer : BitSlicer) (st : ExportState) (entry : Option Document) : ExportState :=
  match entry with
  | none => st
  | some doc => exportDoc slicer st doc

/-- The partial final block with zero padding. -/
def finishBlock (slicer : BitSlicer) (st : ExportState) : ExportState :=
  if 0 < st.currentCount.val then
    writeBlock slicer { st with
      statusBuf := zeroFrom st.statusBuf st.currentCount
      latencyBuf := zeroFrom st.latencyBuf st.currentCount
      offsetBuf := zeroFrom st.offsetBuf st.currentCount }
  else st

/-- What the call meets outside the process: the mapped input (`none`: mapping failed),
whether each output opens and how much it accepts, and the number of stream entries after
which the document stream throws. -/
structure ExportEnv where
  map : Option Bytes
  agbOpens : Bool
  idxOpens : Bool
  agbRoom : Option ℕ
  idxRoom : Option ℕ
  throwsAfter : Option ℕ

/-- Every call succeeds and the outputs accept everything. -/
def ExportEnv.working (json : Bytes) : ExportEnv := ⟨some json, true, true, none, none, none⟩

/-- Contents of the `.agb` file and of the `.agb.idx` file. -/
structure AgbFiles where
  agb : Option Bytes
  idx : Option Bytes
  deriving DecidableEq, Repr

def ExportState.files (st : ExportState) : AgbFiles :=
  ⟨some st.outFile.written, some st.outIdx.written⟩

def convertJsonToAgb (parser : Parser) (slicer : BitSlicer) (env : ExportEnv)
    (files : AgbFiles) : Bool × AgbFiles :=
  match env.map with
  | none => (false, files)
  | some json =>
    if ¬ env.agbOpens then (false, files)
    else if ¬ env.idxOpens then (false, { files with agb := some [] })
    else
      match parser.iterateMany json with
      | none => (false, ⟨some [], some []⟩)
      | some docs =>
        let init := ExportState.init env.agbRoom env.idxRoom
        match env.throwsAfter with
        | some k => (false, ((docs.take k).foldl (exportEntry slicer) init).files)
        | none => (true, (finishBlock slicer (docs.foldl (exportEntry slicer) init)).files)

end Eureka.Exporter
