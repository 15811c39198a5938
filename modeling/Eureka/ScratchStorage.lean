import Mathlib
import Eureka.JavaText
import Eureka.WeighedMap

/-! `ScratchStorageService`: files of a cloud are kept in a scratch directory. A file that exists
is a hit. Sizes are taken from the directory and victims from the access times. -/
namespace Eureka.Scratch
open WordBytes ByteText JavaText WeighedMap

/-- `Character.codePointAt`, unit by unit. -/
def codePoints : JString → List ℕ
  | [] => []
  | [c] => [c.toNat]
  | c :: d :: ds =>
    if isHighSurrogate c ∧ isLowSurrogate d then
      (0x10000 + (c.toNat - 0xd800) * 0x400 + (d.toNat - 0xdc00)) :: codePoints ds
    else c.toNat :: codePoints (d :: ds)

/-- The class `[a-zA-Z0-9.-]`. -/
def isKeyChar (point : ℕ) : Bool :=
  97 ≤ point ∧ point ≤ 122 ∨ 65 ≤ point ∧ point ≤ 90 ∨ 48 ≤ point ∧ point ≤ 57 ∨ point = 46 ∨
    point = 45

def keyUnit (point : ℕ) : JChar := if isKeyChar point then BitVec.ofNat 16 point else 0x5f#16

def generateCacheKey (urlOrUri : JString) : JString :=
  let clean := (codePoints urlOrUri).map keyUnit
  if 100 < clean.length then clean.drop (clean.length - 100) else clean

def startsWith (s start : JString) : Bool := decide (start <+: s)

def isS3 (filePath : JString) : Bool := startsWith filePath (java "s3://")

def isCloud (filePath : JString) : Bool :=
  isS3 filePath ∨ startsWith filePath (java "http://") ∨ startsWith filePath (java "https://")

/-- The text after the last slash. -/
def fileName (uri : JString) : JString := (uri.reverse.takeWhile (· ≠ 0x2f#16)).reverse

def mockFile : Bytes :=
  ascii "\x7b\"status\":200,\"latency\":100\x7d\n\x7b\"status\":500,\"latency\":300\x7d\n"

abbrev AccessTime := Sigma fun _ : JString => ℤ

/-- The order in which a map lists its entries. -/
structure EntryOrder where
  order : List AccessTime → List AccessTime
  perm : ∀ entries, (order entries).Perm entries

/-- `localPath` is the absolute path of a path that is no cloud URI. -/
structure ScratchConfig where
  scratchDirPath : JString
  limitBytes : ℤ
  localPath : JString → JString

/-- The regular files under the directory by their path in it, and the access times by key. -/
structure ScratchStorage where
  files : AList fun _ : JString => Bytes
  accessTimes : AList fun _ : JString => ℤ

/-- What a call meets outside the process. `breaksAfter` is the number of bytes after which
writing the target fails. -/
structure FetchEnv where
  currentTimeMillis : ℤ
  entryOrder : EntryOrder
  deleteFails : JString → Bool
  workspaceFile : JString → Option Bytes
  stream : Option Bytes
  creates : Bool
  breaksAfter : Option ℕ

inductive FetchError
  | illegalArgument
  | ioException
  deriving DecidableEq, Repr

def cacheSize (files : AList fun _ : JString => Bytes) : ℕ := weight List.length files

/-- The loop over the sorted entries. A failure to delete is caught. -/
def evictLoop (env : FetchEnv) (limitBytes : ℤ) :
    List AccessTime → ℤ → ScratchStorage → ScratchStorage
  | [], _, s => s
  | entry :: rest, currentSize, s =>
    match s.files.lookup entry.1 with
    | none => evictLoop env limitBytes rest currentSize s
    | some content =>
      if env.deleteFails entry.1 then evictLoop env limitBytes rest currentSize s
      else
        let s' := ⟨s.files.erase entry.1, s.accessTimes.erase entry.1⟩
        let currentSize' := currentSize - content.length
        if currentSize' < limitBytes then s'
        else evictLoop env limitBytes rest currentSize' s'

def sortedAccess (env : FetchEnv) (s : ScratchStorage) : List AccessTime :=
  (env.entryOrder.order s.accessTimes.entries).insertionSort fun a b => a.2 ≤ b.2

def evictIfNecessary (cfg : ScratchConfig) (env : FetchEnv) (s : ScratchStorage) : ScratchStorage :=
  if (cacheSize s.files : ℤ) < cfg.limitBytes then s
  else evictLoop env cfg.limitBytes (sortedAccess env s) (cacheSize s.files) s

/-- What reaches the target of a copy, if it can be created, and whether all of it does. -/
def copied (env : FetchEnv) (content : Bytes) : Option Bytes × Bool :=
  if ¬ env.creates then (none, false)
  else
    match env.breaksAfter with
    | none => (some content, true)
    | some k => (some (content.take k), false)

/-- `Files.copy` from a local file, or the mock file. Its writer reports no failure once it is
open. -/
def simulateS3Download (env : FetchEnv) (s3Uri : JString) : Option Bytes × Bool :=
  match env.workspaceFile (fileName s3Uri) with
  | some content => copied env content
  | none => ((copied env mockFile).1, env.creates)

def downloadHttpFile (env : FetchEnv) : Option Bytes × Bool :=
  match env.stream with
  | none => (none, false)
  | some content => copied env content

/-- What a download leaves at its target, and whether it returns. -/
def download (env : FetchEnv) (uri : JString) : Option Bytes × Bool :=
  if isS3 uri then simulateS3Download env uri else downloadHttpFile env

def ScratchStorage.store (s : ScratchStorage) (key : JString) : Option Bytes → ScratchStorage
  | none => s
  | some content => { s with files := s.files.insert key content }

/-- The access time is set before the file is looked for. -/
def ScratchStorage.touch (s : ScratchStorage) (key : JString) (time : ℤ) : ScratchStorage :=
  { s with accessTimes := s.accessTimes.insert key time }

def cachedPath (cfg : ScratchConfig) (key : JString) : JString :=
  cfg.scratchDirPath ++ 0x2f#16 :: key

/-- A null path is refused like an empty one. -/
def resolveAndFetch (cfg : ScratchConfig) (env : FetchEnv) (s : ScratchStorage)
    (filePath : JString) : Except FetchError JString × ScratchStorage :=
  if filePath = [] then (.error .illegalArgument, s)
  else if ¬ isCloud filePath then (.ok (cfg.localPath filePath), s)
  else
    let cacheKey := generateCacheKey filePath
    let touched := s.touch cacheKey env.currentTimeMillis
    if cacheKey ∈ touched.files then (.ok (cachedPath cfg cacheKey), touched)
    else
      let evicted := evictIfNecessary cfg env touched
      let (target, returns) := download env filePath
      (if returns then .ok (cachedPath cfg cacheKey) else .error .ioException,
        evicted.store cacheKey target)

end Eureka.Scratch
