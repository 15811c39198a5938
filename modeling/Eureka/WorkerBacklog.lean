import Mathlib
import Eureka.IngestWorkers

/-! The backlog counter under overlapping workers. A transcode tests the compaction flag when
it starts and subtracts when it ends, so two of them can subtract one batch. -/
namespace Eureka.Ingest
open WordBytes Apex Simdjson Storage TransitionRuns

section steps
variable (parser : Parser) (slicer : BitSlicer) (a : AdaptiveIngester) (wal : WalFile)
  {h : Handle} {work : Work} {lines : List Bytes}

end steps

section runs
variable {parser : Parser} {slicer : BitSlicer} {w : World}

end runs

end Eureka.Ingest
