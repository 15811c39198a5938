import Mathlib
import Eureka.ScratchRuns
import Eureka.TransitionRuns

/-! What a call finds under its key. A download writes to the final name, and a file that a broken
download or another URI left there is a hit like any other. -/
namespace Eureka.Scratch
open WordBytes ByteText JavaText WeighedMap TransitionRuns

/-- The complete content of the remote file, where there is one. -/
def source (env : FetchEnv) (uri : JString) : Option Bytes :=
  if isS3 uri then some ((env.workspaceFile (fileName uri)).getD mockFile) else env.stream

/-- The storage with every successful download, and for each key the URI whose download created
its last file. -/
structure FetchLog where
  storage : ScratchStorage
  downloads : List (JString × Bytes)
  origin : JString → Option JString

/-- A download is successful if the target is created and takes the whole content. -/
def successful (env : FetchEnv) (uri : JString) : List (JString × Bytes) :=
  if env.creates ∧ env.breaksAfter = none then (source env uri).toList.map fun c => (uri, c) else []

def FetchLog.step (cfg : ScratchConfig) (r : FetchLog) : ScratchAction → FetchLog
  | .fetch env uri =>
    if Misses r.storage uri then
      { storage := r.storage.step cfg (.fetch env uri)
        downloads := r.downloads ++ successful env uri
        origin :=
          if (download env uri).1.isSome then Function.update r.origin (generateCacheKey uri) (some uri)
          else r.origin }
    else { r with storage := r.storage.step cfg (.fetch env uri) }
  | .restart => { r with storage := r.storage.step cfg .restart }

def FetchLog.empty : FetchLog := ⟨⟨∅, ∅⟩, [], fun _ => none⟩

def logOf (cfg : ScratchConfig) (actions : List ScratchAction) : FetchLog :=
  actions.foldl (FetchLog.step cfg) .empty

variable {cfg : ScratchConfig} {env : FetchEnv} {r : FetchLog} {uri : JString}

section downloads

end downloads

section steps

end steps

section samples

end samples

end Eureka.Scratch
