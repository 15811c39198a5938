import Mathlib
import Eureka.PinThreads

/-! `ExecuteQuery` on several threads. `cache_mutex_` is held by `PrewarmCache`, by the lookup after
it and at the end of a pin thread; between these sections other calls run and files change. The scan
of a mapping is one step, so a file that changes under a scan is left out. -/
namespace Eureka.Service
open WordBytes Apex Simdjson Dispatcher

section model

/-- Where a call is. `found` is what its lookup has found. -/
inductive QueryPc
  | called
  | warmed
  | found (mapping : Option (String × ℕ))
  | answered (response : QueryResponse)

/-- `moments` records the files and the cache that the call has met at its steps. -/
structure QueryCall where
  request : QueryRequest
  pc : QueryPc
  moments : List (FileSystem × MappedFilesCache)

structure QueryServer where
  files : FileSystem
  pins : PinServer
  calls : List QueryCall

def ServiceEnv.withFiles (env : ServiceEnv) (files : FileSystem) : ServiceEnv :=
  { env with files := files }

/-- `PrewarmCache` with the files as they are. -/
def QueryServer.prewarm (names : PathNames) (s : QueryServer) (raw : String) (pin : Bool) : PinServer :=
  s.pins.step (.prewarm names raw pin ((s.files.read (names.canonical raw)).map List.length)
    (some (names.canonical raw)))

/-- The answer to what the lookup has found. -/
def answerMapping (engine : ApexEngine) (files : FileSystem) (filepath : String) (query : ParsedQuery) :
    Option (String × ℕ) → QueryResponse
  | none => ⟨.internal, 0, 0, "Failed to map binary file: " ++ filepath⟩
  | some (addr, size) => .found (scanAgb engine ((files.read addr).getD []) size query) size

variable (engine : ApexEngine) (parser : Parser) (env : ServiceEnv)

/-- One step of a call: what becomes of the pins and of its place. -/
inductive QueryStep (s : QueryServer) (request : QueryRequest) : QueryPc → PinServer → QueryPc → Prop
  | prewarm {query : ParsedQuery} (parsed : parseQuery request.queryString = some query)
      (agb : isAgb (env.names.canonical request.filePath) = true) :
      QueryStep s request .called
        (s.prewarm env.names (env.names.canonical request.filePath) request.pinMemory) .warmed
  | lookup : QueryStep s request .warmed s.pins
      (.found (mappingOf s.pins.cache (env.names.canonical request.filePath)))
  | scan {mapping : Option (String × ℕ)} {query : ParsedQuery}
      (parsed : parseQuery request.queryString = some query) :
      QueryStep s request (.found mapping) s.pins
        (.answered (answerMapping engine s.files (env.names.canonical request.filePath) query mapping))
  | text {query : ParsedQuery} {response : QueryResponse}
      (parsed : parseQuery request.queryString = some query)
      (text : isAgb (env.names.canonical request.filePath) = false)
      (executes : ExecutesText engine parser (env.withFiles s.files)
        (env.names.canonical request.filePath) query response) :
      QueryStep s request .called s.pins (.answered response)

/-- A query arrives or takes a step, the end of an ingestion prewarms, a pin thread ends, or the
files change. -/
inductive QueryServer.Step (s : QueryServer) : QueryServer → Prop
  | arrive (request : QueryRequest) :
      Step s { s with calls := s.calls ++ [⟨request, .called, []⟩] }
  | advance {i : ℕ} {call : QueryCall} {pins : PinServer} {pc : QueryPc} (at_ : s.calls[i]? = some call)
      (step : QueryStep engine parser env s call.request call.pc pins pc) :
      Step s ⟨s.files, pins,
        s.calls.set i ⟨call.request, pc, call.moments ++ [(s.files, s.pins.cache)]⟩⟩
  | prewarm (raw : String) (pin : Bool) : Step s { s with pins := s.prewarm env.names raw pin }
  | pinned (thread : ℕ) (locked : Bool) : Step s { s with pins := s.pins.step (.finish thread locked) }
  | write (files : FileSystem) : Step s { s with files := files }

/-- A service that has just been started. -/
def QueryServer.start (files : FileSystem) : QueryServer := ⟨files, .start, []⟩

/-- The sequential call gives the response at one of the moments of the call. -/
def Sequential (moments : List (FileSystem × MappedFilesCache)) (request : QueryRequest)
    (response : QueryResponse) : Prop :=
  ∃ moment ∈ moments, ∃ cache',
    ExecuteQuery engine parser (env.withFiles moment.1) moment.2 request response cache'

end model

section linearization
variable {engine : ApexEngine} {parser : Parser} {env : ServiceEnv} {s s' : QueryServer}
  {request : QueryRequest} {cache cache' : MappedFilesCache}

/-- A sequential call at this moment would map nothing. -/
def Unmapped (env : ServiceEnv) (request : QueryRequest) (moment : FileSystem × MappedFilesCache) :
    Prop :=
  mappingOf (prewarmCache (env.withFiles moment.1) moment.2 (env.names.canonical request.filePath)
    request.pinMemory) (env.names.canonical request.filePath) = none

/-- A call that has found nothing, or may still find nothing, has met a moment without a file; a
mapping that it has found is still there. -/
def QueryInv (engine : ApexEngine) (parser : Parser) (env : ServiceEnv) (cache : MappedFilesCache)
    (call : QueryCall) : Prop :=
  match call.pc with
  | .called => True
  | .warmed => isAgb (env.names.canonical call.request.filePath) = true ∧
      (mappingOf cache (env.names.canonical call.request.filePath) = none →
        ∃ moment ∈ call.moments, Unmapped env call.request moment)
  | .found none => isAgb (env.names.canonical call.request.filePath) = true ∧
      ∃ moment ∈ call.moments, Unmapped env call.request moment
  | .found (some mapping) => isAgb (env.names.canonical call.request.filePath) = true ∧
      mappingOf cache (env.names.canonical call.request.filePath) = some mapping
  | .answered response => Sequential engine parser env call.moments call.request response

/-- No mapping is given up or replaced. -/
def Keeps (cache cache' : MappedFilesCache) : Prop :=
  ∀ path mapping, mappingOf cache path = some mapping → mappingOf cache' path = some mapping

lemma step_keeps (pins : PinServer) (action : PinAction) :
    Keeps pins.cache (pins.step action).cache := by
  intro path mapping h
  obtain ⟨m, hm, rfl⟩ := Option.map_eq_some_iff.mp h
  obtain ⟨m', hm', haddr, hsize, -⟩ := step_entryKept pins action path m hm
  rw [mappingOf, hm', Option.map_some, haddr, hsize]

lemma QueryInv.keep {call : QueryCall} (h : QueryInv engine parser env cache call)
    (hkeeps : Keeps cache cache') : QueryInv engine parser env cache' call := by
  obtain ⟨request, pc, moments⟩ := call
  cases pc with
  | called => trivial
  | answered response => exact h
  | warmed =>
    refine ⟨h.1, fun hnone => h.2 ?_⟩
    cases hmapping : mappingOf cache (env.names.canonical request.filePath) with
    | none => rfl
    | some mapping => exact absurd (hnone.symm.trans (hkeeps _ _ hmapping)) (Option.some_ne_none _).symm
  | found mapping =>
    cases mapping with
    | none => exact h
    | some mapping => exact ⟨h.1, hkeeps _ _ h.2⟩

/-- Later moments do no harm. -/
lemma Sequential.append {moments : List (FileSystem × MappedFilesCache)} {response : QueryResponse}
    (h : Sequential engine parser env moments request response)
    (more : List (FileSystem × MappedFilesCache)) :
    Sequential engine parser env (moments ++ more) request response := by
  obtain ⟨moment, hmem, hquery⟩ := h
  exact ⟨moment, List.mem_append_left _ hmem, hquery⟩

lemma prewarm_cache (env : ServiceEnv) (s : QueryServer) (raw : String) (pin : Bool) :
    (s.prewarm env.names raw pin).cache =
      prewarmCache (env.withFiles s.files) s.pins.cache raw pin :=
  prewarmPins_cache (env.withFiles s.files) s.pins raw pin

lemma prewarmCache_keeps (env : ServiceEnv) (files : FileSystem) (cache : MappedFilesCache)
    (raw : String) (pin : Bool) : Keeps cache (prewarmCache (env.withFiles files) cache raw pin) := by
  have hkeeps := step_keeps ⟨cache, []⟩ (.prewarm env.names raw pin
    ((files.read (env.names.canonical raw)).map List.length) (some (env.names.canonical raw)))
  have hcache := prewarm_cache env ⟨files, ⟨cache, []⟩, []⟩ raw pin
  rw [← hcache]
  exact hkeeps

/-- A sequential call answers what its prewarmed cache maps. -/
lemma sequential_of_mapping {moments : List (FileSystem × MappedFilesCache)}
    {moment : FileSystem × MappedFilesCache} (hmem : moment ∈ moments) {query : ParsedQuery}
    (hparse : parseQuery request.queryString = some query)
    (hagb : isAgb (env.names.canonical request.filePath) = true) {mapping : Option (String × ℕ)}
    (hmapping : mappingOf (prewarmCache (env.withFiles moment.1) moment.2
      (env.names.canonical request.filePath) request.pinMemory)
        (env.names.canonical request.filePath) = mapping) :
    Sequential engine parser env moments request
      (answerMapping engine moment.1 (env.names.canonical request.filePath) query mapping) := by
  refine ⟨moment, hmem, prewarmCache (env.withFiles moment.1) moment.2
    (env.names.canonical request.filePath) request.pinMemory, ?_⟩
  rw [ExecuteQuery, hparse]
  have hname : (env.withFiles moment.1).names = env.names := rfl
  simp only [hname, hagb, if_true]
  refine ⟨trivial, ?_⟩
  rw [← hmapping, executeAgb, mappingOf]
  cases prewarmCache (env.withFiles moment.1) moment.2 (env.names.canonical request.filePath)
    request.pinMemory (env.names.canonical request.filePath) <;> rfl

/-- A step of a call keeps what holds of it, with the moment of the step. -/
lemma queryStep_inv {pc pc' : QueryPc} {pins : PinServer} {moments : List (FileSystem × MappedFilesCache)}
    (hinv : QueryInv engine parser env s.pins.cache ⟨request, pc, moments⟩)
    (hstep : QueryStep engine parser env s request pc pins pc') :
    QueryInv engine parser env pins.cache ⟨request, pc', moments ++ [(s.files, s.pins.cache)]⟩ ∧
      Keeps s.pins.cache pins.cache := by
  have hlast : (s.files, s.pins.cache) ∈ moments ++ [(s.files, s.pins.cache)] :=
    List.mem_append_right _ (List.mem_singleton.mpr rfl)
  cases hstep with
  | prewarm parsed agb =>
    refine ⟨⟨agb, fun hnone => ⟨_, hlast, ?_⟩⟩, step_keeps _ _⟩
    rwa [prewarm_cache] at hnone
  | lookup =>
    refine ⟨?_, fun _ _ h => h⟩
    obtain ⟨hagb, hearlier⟩ := hinv
    cases hmapping : mappingOf s.pins.cache (env.names.canonical request.filePath) with
    | none =>
      obtain ⟨moment, hmem, hunmapped⟩ := hearlier hmapping
      exact ⟨hagb, moment, List.mem_append_left _ hmem, hunmapped⟩
    | some mapping => exact ⟨hagb, hmapping⟩
  | scan parsed =>
    refine ⟨?_, fun _ _ h => h⟩
    rename_i mapping query
    cases mapping with
    | none =>
      -- the failure is that of the moment before the lookup; it reads no file
      obtain ⟨hagb, moment, hmem, hunmapped⟩ := hinv
      exact (sequential_of_mapping hmem parsed hagb hunmapped).append _
    | some mapping =>
      obtain ⟨hagb, hmapping⟩ := hinv
      exact sequential_of_mapping hlast parsed hagb (prewarmCache_keeps env _ _ _ _ _ _ hmapping)
  | text parsed text executes =>
    refine ⟨⟨_, hlast, s.pins.cache, ?_⟩, fun _ _ h => h⟩
    rw [ExecuteQuery, parsed]
    have hname : (env.withFiles s.files).names = env.names := rfl
    simp only [hname, text, Bool.false_eq_true, if_false]
    exact ⟨trivial, executes⟩

/-- A step of the service keeps what holds of every call. -/
lemma step_calls (hinv : ∀ call ∈ s.calls, QueryInv engine parser env s.pins.cache call)
    (hstep : QueryServer.Step engine parser env s s') :
    ∀ call ∈ s'.calls, QueryInv engine parser env s'.pins.cache call := by
  cases hstep with
  | arrive request =>
    intro call hcall
    rcases List.mem_append.mp hcall with hold | hnew
    · exact hinv call hold
    · obtain rfl := List.mem_singleton.mp hnew
      trivial
  | advance at_ step =>
    rename_i i call pins pc
    obtain ⟨request, pc₀, moments⟩ := call
    obtain ⟨hcall, hkeeps⟩ := queryStep_inv (hinv _ (List.mem_of_getElem? at_)) step
    intro call' hcall'
    rcases List.mem_or_eq_of_mem_set hcall' with hold | rfl
    · exact (hinv call' hold).keep hkeeps
    · exact hcall
  | prewarm raw pin => exact fun call hcall => (hinv call hcall).keep (step_keeps _ _)
  | pinned thread locked => exact fun call hcall => (hinv call hcall).keep (step_keeps _ _)
  | write files => exact hinv

/-- Queries are linearizable: in every run every response of a call is one that the sequential call
gives on the files and the cache of one of the moments between its first and its last step. -/
theorem queries_linearizable (files : FileSystem)
    (hrun : Relation.ReflTransGen (QueryServer.Step engine parser env) (.start files) s) :
    ∀ call ∈ s.calls, ∀ response, call.pc = .answered response →
      Sequential engine parser env call.moments call.request response := by
  have hinv : ∀ call ∈ s.calls, QueryInv engine parser env s.pins.cache call := by
    induction hrun with
    | refl => exact List.forall_mem_nil _
    | tail _ hstep ih => exact step_calls ih hstep
  intro call hcall response hanswered
  obtain ⟨request, pc, moments⟩ := call
  obtain rfl : pc = .answered response := hanswered
  exact hinv _ hcall

end linearization

section samples

/-- A query finds no file; the file is written, and prewarmed by another call, before the lookup. -/
theorem queries_linearizable_sample :
    ∃ (s : QueryServer) (call : QueryCall) (response : QueryResponse),
      Relation.ReflTransGen (QueryServer.Step .reference (.ofStream []) sampleService)
        (.start ⟨fun _ => none, rfl⟩) s ∧ call ∈ s.calls ∧ call.pc = .answered response ∧
      Sequential .reference (.ofStream []) sampleService call.moments call.request response := by
  have hparse : parseQuery agbQuery.queryString = some ⟨.bitSlicedNumericalLogic, [], 200, 100⟩ := by
    decide +kernel
  have harrive : Relation.ReflTransGen (QueryServer.Step .reference (.ofStream []) sampleService)
      (.start ⟨fun _ => none, rfl⟩) _ := .tail .refl (.arrive agbQuery)
  have hprewarm := harrive.tail (.advance (i := 0) rfl (.prewarm hparse rfl))
  have hwrite := (hprewarm.tail (.write sampleFiles)).tail (.prewarm "app.agb" false)
  have hlookup := hwrite.tail (.advance (i := 0) rfl .lookup)
  have hscan := hlookup.tail (.advance (i := 0) rfl (.scan hparse))
  exact ⟨_, _, _, hscan, List.mem_singleton.mpr rfl, rfl,
    queries_linearizable _ hscan _ (List.mem_singleton.mpr rfl) _ rfl⟩

end samples

end Eureka.Service
