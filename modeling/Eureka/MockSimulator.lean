import Mathlib
import Eureka.MatchingEvents
import Eureka.TransitionRuns

/-! `MockIngestionSimulator`: the calls that start and stop it, and the task that a scheduler runs
in between, one run at a time and beside those calls. -/
namespace Eureka.Gateway
open WordBytes JavaText LogQL TransitionRuns

/-- What the random generator and the clock give for one log. -/
structure MockDraws where
  rand : Fin 100
  latency : Fin 80
  peak : Fin 400
  currentTimeMillis : Word

def mockStatus (d : MockDraws) : ℕ :=
  if 80 ≤ d.rand.val ∧ d.rand.val < 90 then 404 else if 90 ≤ d.rand.val then 500 else 200

def mockLatency (d : MockDraws) : ℕ :=
  if mockStatus d = 500 then d.peak.val + 150 else d.latency.val + 10

def mockSeverity (d : MockDraws) : ℕ :=
  if mockStatus d = 500 then 3 else if mockStatus d = 404 then 2 else 1

def generateMockLog (d : MockDraws) : JString :=
  java "\x7b\"status\":" ++ number (mockStatus d) ++ java ",\"latency\":" ++ number (mockLatency d) ++
    java ",\"severity\":" ++ number (mockSeverity d) ++ java ",\"timestamp\":" ++
    integerText d.currentTimeMillis.toInt ++ java "\x7d"

/-- The logs of one run of the task. -/
def mockLogs (batchSize : ℕ) (draws : ℕ → MockDraws) : List JString :=
  (List.range batchSize).map fun i => generateMockLog (draws i)

/-- The size of the batches of 200 ms; the product is an `int`. -/
def batchSizeOf (ratePerSecond : BitVec 32) : ℕ :=
  let batchSize := (ratePerSecond * 200#32).sdiv 1000#32
  if batchSize.slt 1#32 then 1 else batchSize.toNat

/-- A task that the scheduler still repeats. -/
structure ScheduledTask where
  id : ℕ
  batchSize : ℕ
  deriving DecidableEq, Repr

/-- A run of the task: its logs, and whether they are broadcast. -/
structure Tick where
  logs : List JString
  announced : Bool

/-- `generated` and `ingested` record the batches, the latter with the path of their database. -/
structure MockIngestionSimulator where
  running : Bool
  ratePerSecond : BitVec 32
  databasePath : JString
  task : Option ℕ
  scheduled : List ScheduledTask
  nextTask : ℕ
  isShutdown : Bool
  tick : Option Tick
  totalSimulated : Word
  generated : List (List JString)
  ingested : List (JString × List JString)

namespace MockIngestionSimulator

def new : MockIngestionSimulator where
  running := false
  ratePerSecond := 5000
  databasePath := java "live_stream.agb"
  task := none
  scheduled := []
  nextTask := 0
  isShutdown := false
  tick := none
  totalSimulated := 0
  generated := []
  ingested := []

/-- A cancelled task is not run again; a run of it that has begun goes on. -/
def cancel (s : MockIngestionSimulator) : MockIngestionSimulator :=
  { s with scheduled := s.scheduled.filter fun t => s.task ≠ some t.id }

def stop (s : MockIngestionSimulator) : MockIngestionSimulator :=
  if s.running then { s.cancel with running := false } else s

/-- A scheduler that is shut down throws, and the fields stay as they were set before. -/
def start (s : MockIngestionSimulator) (ratePerSecond : BitVec 32) (databasePath : JString) :
    MockIngestionSimulator :=
  let s := if s.running then s.stop else s
  let s := { s with ratePerSecond := ratePerSecond, databasePath := databasePath, running := true }
  if s.isShutdown then s
  else
    { s with
      task := some s.nextTask
      scheduled := s.scheduled ++ [⟨s.nextTask, batchSizeOf ratePerSecond⟩]
      nextTask := s.nextTask + 1 }

/-- `cleanup` after its `stop`, which other calls can follow: the scheduler is shut down, and with it
what it repeats. -/
def shutdown (s : MockIngestionSimulator) : MockIngestionSimulator :=
  { s with isShutdown := true, scheduled := [] }

/-- `generateAndIngest` up to the broadcast, for a task that is due. -/
def generate (s : MockIngestionSimulator) (t : ScheduledTask) (draws : ℕ → MockDraws) :
    MockIngestionSimulator :=
  if t ∈ s.scheduled ∧ s.tick.isNone then
    { s with
      tick := some ⟨mockLogs t.batchSize draws, false⟩
      generated := s.generated ++ [mockLogs t.batchSize draws] }
  else s

/-- An exception of the broadcast ends the run. -/
def broadcast (readMap : ReadMap) (s : MockIngestionSimulator) (now : Word) (b : Broadcaster) :
    MockIngestionSimulator :=
  match s.tick with
  | some ⟨logs, false⟩ =>
    match (broadcastLogs readMap now b logs).2 with
    | some _ => { s with tick := none }
    | none => { s with tick := some ⟨logs, true⟩ }
  | _ => s

/-- The path is the one that is set when the run gets here. A failed ingestion is counted too. -/
def ingest (s : MockIngestionSimulator) : MockIngestionSimulator :=
  match s.tick with
  | some ⟨logs, true⟩ =>
    { s with
      tick := none
      totalSimulated := s.totalSimulated + BitVec.ofNat 64 logs.length
      ingested := s.ingested ++ [(s.databasePath, logs)] }
  | _ => s

end MockIngestionSimulator

/-- The calls, and the steps of the task. The broadcaster is the one that the step meets. -/
inductive SimulatorAction
  | start (ratePerSecond : BitVec 32) (databasePath : JString)
  | stop
  | shutdown
  | generate (t : ScheduledTask) (draws : ℕ → MockDraws)
  | broadcast (now : Word) (b : Broadcaster)
  | ingest

open MockIngestionSimulator

def simulate (readMap : ReadMap) (s : MockIngestionSimulator) : SimulatorAction → MockIngestionSimulator
  | .start ratePerSecond databasePath => s.start ratePerSecond databasePath
  | .stop => s.stop
  | .shutdown => s.shutdown
  | .generate t draws => s.generate t draws
  | .broadcast now b => s.broadcast readMap now b
  | .ingest => s.ingest

section invariant
variable {readMap : ReadMap} {s : MockIngestionSimulator}

/-- What is scheduled while the fields say that the simulator runs. -/
inductive Scheduled (s : MockIngestionSimulator) : Prop
  | nothing (h : s.scheduled = []) (hoff : s.running = true → s.isShutdown = true)
  | one (t : ScheduledTask) (h : s.scheduled = [t]) (htask : s.task = some t.id)
      (hsize : t.batchSize = batchSizeOf s.ratePerSecond) (hon : s.running = true)
      (hopen : s.isShutdown = false)

/-- The simulator at rest and at work: at most one task is repeated, that of the last start and of
the size of its rate, and there is one whenever the simulator runs and its scheduler is open; the
total is that of the ingested batches. -/
structure Consistent (s : MockIngestionSimulator) : Prop where
  scheduled : Scheduled s
  total : s.totalSimulated = BitVec.ofNat 64 (s.ingested.map fun batch => batch.2.length).sum

lemma consistent_new : Consistent new := ⟨.nothing rfl fun h => absurd h Bool.false_ne_true, rfl⟩

/-- A stop cancels the one task. -/
lemma Scheduled.stop (h : Scheduled s) : s.stop.scheduled = [] ∧ s.stop.running = false := by
  rw [MockIngestionSimulator.stop]
  cases h with
  | nothing h hoff =>
    cases hrunning : s.running with
    | false => exact ⟨h, hrunning⟩
    | true =>
      rw [if_pos rfl]
      refine ⟨?_, rfl⟩
      change s.scheduled.filter _ = []
      rw [h]
      rfl
  | one t h htask hsize hon hopen =>
    rw [if_pos hon]
    refine ⟨?_, rfl⟩
    change s.scheduled.filter _ = []
    simp [h, htask]

/-- A stop leaves the batches and the run that has begun. -/
lemma stop_frame (s : MockIngestionSimulator) : s.stop.tick = s.tick ∧
    s.stop.totalSimulated = s.totalSimulated ∧ s.stop.generated = s.generated ∧
    s.stop.ingested = s.ingested ∧ s.stop.isShutdown = s.isShutdown := by
  rw [MockIngestionSimulator.stop]
  split_ifs
  · exact ⟨rfl, rfl, rfl, rfl, rfl⟩
  · exact ⟨rfl, rfl, rfl, rfl, rfl⟩

lemma Consistent.stop (h : Consistent s) : Consistent s.stop := by
  obtain ⟨hscheduled, hrunning⟩ := h.scheduled.stop
  obtain ⟨-, htotal, -, hingested, -⟩ := stop_frame s
  refine ⟨.nothing hscheduled fun hon => ?_, ?_⟩
  · exact absurd (hrunning.symm.trans hon) Bool.false_ne_true
  · rw [htotal, hingested]
    exact h.total

lemma Consistent.start (h : Consistent s) (ratePerSecond : BitVec 32) (databasePath : JString) :
    Consistent (s.start ratePerSecond databasePath) := by
  have hstopped : ∃ s', (if s.running then s.stop else s) = s' ∧ Consistent s' ∧ s'.scheduled = [] := by
    cases hrunning : s.running with
    | true => exact ⟨s.stop, rfl, h.stop, h.scheduled.stop.1⟩
    | false =>
      refine ⟨s, rfl, h, ?_⟩
      cases h.scheduled with
      | nothing h _ => exact h
      | one t _ _ _ hon _ => exact absurd (hrunning.symm.trans hon) Bool.false_ne_true
  obtain ⟨s', hs', hconsistent, hscheduled⟩ := hstopped
  rw [MockIngestionSimulator.start, hs']
  simp only
  split_ifs with hshut
  · exact ⟨.nothing hscheduled fun _ => hshut, hconsistent.total⟩
  · refine ⟨.one ⟨s'.nextTask, batchSizeOf ratePerSecond⟩ ?_ rfl rfl rfl ?_, hconsistent.total⟩
    · change s'.scheduled ++ _ = _
      rw [hscheduled]
      rfl
    · exact Bool.eq_false_of_not_eq_true hshut

lemma Consistent.shutdown (h : Consistent s) : Consistent s.shutdown :=
  ⟨.nothing rfl fun _ => rfl, h.total⟩

/-- A step of the task leaves the fields that the calls set. -/
lemma Consistent.work (h : Consistent s) {s' : MockIngestionSimulator}
    (hframe : s' = { s with
      tick := s'.tick, totalSimulated := s'.totalSimulated, generated := s'.generated,
      ingested := s'.ingested })
    (htotal : s'.totalSimulated = BitVec.ofNat 64 (s'.ingested.map fun batch => batch.2.length).sum) :
    Consistent s' := by
  refine ⟨?_, htotal⟩
  rw [hframe]
  cases h.scheduled with
  | nothing h hoff => exact .nothing h hoff
  | one t h htask hsize hon hopen => exact .one t h htask hsize hon hopen

lemma Consistent.step (h : Consistent s) (readMap : ReadMap) (action : SimulatorAction) :
    Consistent (simulate readMap s action) := by
  cases action with
  | start ratePerSecond databasePath => exact h.start ratePerSecond databasePath
  | stop => exact h.stop
  | shutdown => exact h.shutdown
  | generate t draws =>
    rw [simulate, generate]
    split_ifs
    · exact h.work rfl h.total
    · exact h
  | broadcast now b =>
    rw [simulate, MockIngestionSimulator.broadcast]
    split
    · split
      · exact h.work rfl h.total
      · exact h.work rfl h.total
    · exact h
  | ingest =>
    rw [simulate, MockIngestionSimulator.ingest]
    split
    · refine h.work rfl ?_
      simp only [List.map_append, List.map_singleton, List.sum_append, List.sum_singleton, h.total]
      rw [BitVec.ofNat_add]
    · exact h

lemma consistent_run (readMap : ReadMap) (actions : List SimulatorAction) :
    Consistent (actions.foldl (simulate readMap) new) := by
  apply foldl_invariant (fun s action (h : Consistent s) (_ : True) => h.step readMap action)
  · exact consistent_new
  · exact fun _ _ => trivial

end invariant

section rate

end rate

section runs

end runs

section batches
variable {readMap : ReadMap} {s : MockIngestionSimulator}

def SimulatorAction.Starts : SimulatorAction → Prop
  | .start _ _ => True
  | _ => False

/-- What a stopped simulator still does: nothing is scheduled, and the run that had begun is in
progress, over, or ingested under some path. -/
structure WindsDown (tick : Option Tick) (ingested : List (JString × List JString))
    (s : MockIngestionSimulator) : Prop where
  scheduled : s.scheduled = []
  batches : (s.ingested = ingested ∧
      (s.tick = none ∨ ∃ t ∈ tick, ∃ announced, s.tick = some ⟨t.logs, announced⟩)) ∨
    s.tick = none ∧ ∃ t ∈ tick, ∃ path, s.ingested = ingested ++ [(path, t.logs)]

lemma WindsDown.step {tick : Option Tick} {ingested : List (JString × List JString)}
    (h : WindsDown tick ingested s) (readMap : ReadMap) {action : SimulatorAction}
    (hstart : ¬ action.Starts) : WindsDown tick ingested (simulate readMap s action) := by
  have hstopped : WindsDown tick ingested s.stop := by
    obtain ⟨htick, -, -, hingested, -⟩ := stop_frame s
    refine ⟨?_, by rw [htick, hingested]; exact h.batches⟩
    rw [MockIngestionSimulator.stop]
    split_ifs
    · change s.scheduled.filter _ = []
      rw [h.scheduled]
      rfl
    · exact h.scheduled
  cases action with
  | start => exact absurd trivial hstart
  | stop => exact hstopped
  | shutdown => exact ⟨rfl, h.batches⟩
  | generate t draws =>
    have hnone : t ∉ s.scheduled := by
      rw [h.scheduled]
      exact List.not_mem_nil
    rw [simulate, generate, if_neg fun hdue => hnone hdue.1]
    exact h
  | broadcast now b =>
    rw [simulate, MockIngestionSimulator.broadcast]
    split
    · rename_i logs htick
      have hold : s.ingested = ingested ∧ ∃ t ∈ tick, ∃ announced, some (Tick.mk logs false) =
          some ⟨t.logs, announced⟩ := by
        rcases h.batches with ⟨hsame, hnone | hbegun⟩ | ⟨hnone, -⟩
        · exact absurd (htick.symm.trans hnone) (Option.some_ne_none _)
        · rw [htick] at hbegun
          exact ⟨hsame, hbegun⟩
        · exact absurd (htick.symm.trans hnone) (Option.some_ne_none _)
      obtain ⟨hsame, t, ht, announced, heq⟩ := hold
      obtain ⟨rfl, -⟩ := Tick.mk.inj (Option.some.inj heq)
      split
      · exact ⟨h.scheduled, Or.inl ⟨hsame, Or.inl rfl⟩⟩
      · exact ⟨h.scheduled, Or.inl ⟨hsame, Or.inr ⟨t, ht, true, rfl⟩⟩⟩
    · exact h
  | ingest =>
    rw [simulate, MockIngestionSimulator.ingest]
    split
    · rename_i logs htick
      rcases h.batches with ⟨hsame, hnone | ⟨t, ht, announced, heq⟩⟩ | ⟨hnone, -⟩
      · exact absurd (htick.symm.trans hnone) (Option.some_ne_none _)
      · obtain ⟨rfl, -⟩ := Tick.mk.inj (Option.some.inj (htick.symm.trans heq))
        refine ⟨h.scheduled, Or.inr ⟨rfl, t, ht, s.databasePath, ?_⟩⟩
        change s.ingested ++ _ = _
        rw [hsame]
      · exact absurd (htick.symm.trans hnone) (Option.some_ne_none _)
    · exact h

/-- After a stop, until the next start, at most the batch of the run that had begun is ingested. -/
theorem stopped_ingests_at_most_one (readMap : ReadMap) (before after : List SimulatorAction)
    (hafter : ∀ action ∈ after, ¬ action.Starts) :
    let s := before.foldl (simulate readMap) new
    let s' := after.foldl (simulate readMap) s.stop
    s'.ingested = s.ingested ∨ ∃ t ∈ s.tick, ∃ path, s'.ingested = s.ingested ++ [(path, t.logs)] := by
  intro s s'
  have hs : Consistent s := consistent_run readMap before
  obtain ⟨htick, -, -, hingested, -⟩ := stop_frame s
  have hstop : WindsDown s.tick s.ingested s.stop := by
    refine ⟨hs.scheduled.stop.1, Or.inl ⟨hingested, ?_⟩⟩
    rw [htick]
    cases s.tick with
    | none => exact Or.inl rfl
    | some t => exact Or.inr ⟨t, rfl, t.announced, rfl⟩
  have hrun := foldl_invariant
    (fun u action (h : WindsDown s.tick s.ingested u) (hok : ¬ action.Starts) => h.step readMap hok)
    hstop hafter
  rcases hrun.batches with ⟨hsame, -⟩ | ⟨-, hone⟩
  · exact Or.inl hsame
  · exact Or.inr hone

/-- Where a mock log is read at all, it is an object without the three labels. -/
def ReadsMockLogs (readMap : ReadMap) : Prop :=
  ∀ d doc, readMap (generateMockLog d) = some doc →
    ∃ log, doc = some log ∧ ∀ field ∈ ["job", "level", "host"], log.get field = none

/-- No live tail can throw at a mock log. -/
lemma batchSafe_mockLogs (hread : ReadsMockLogs readMap) (b : Broadcaster) (batchSize : ℕ)
    (draws : ℕ → MockDraws) : BatchSafe readMap b (mockLogs batchSize draws) := by
  intro session _ _ line hline
  obtain ⟨i, -, rfl⟩ := List.mem_map.mp hline
  have hplain : ∃ log, (parseEntry readMap (generateMockLog (draws i))).map = some log ∧
      ∀ field ∈ ["job", "level", "host"], log.get field = none := by
    rw [parseEntry]
    cases hdoc : readMap (generateMockLog (draws i)) with
    | none => exact ⟨fallbackMap, rfl, fun _ _ => rfl⟩
    | some doc =>
      obtain ⟨log, rfl, hlabels⟩ := hread _ doc hdoc
      exact ⟨log, rfl, hlabels⟩
  obtain ⟨log, hlog, hlabels⟩ := hplain
  refine ⟨log, hlog, fun _ field hfield value hvalue => ?_⟩
  rw [hlabels field hfield] at hvalue
  exact absurd hvalue.symm (Option.some_ne_none value)

/-- Every batch that was generated is ingested or is that of the run in progress. -/
structure AllIngested (s : MockIngestionSimulator) : Prop where
  generated : s.generated = s.ingested.map Prod.snd ++ (s.tick.map Tick.logs).toList
  mock : ∀ t ∈ s.tick, ∃ batchSize draws, t.logs = mockLogs batchSize draws

lemma AllIngested.step (hread : ReadsMockLogs readMap) (h : AllIngested s) (action : SimulatorAction) :
    AllIngested (simulate readMap s action) := by
  have hframe : ∀ s' : MockIngestionSimulator, s'.generated = s.generated → s'.ingested = s.ingested →
      s'.tick = s.tick → AllIngested s' := by
    intro s' hgenerated hingested htick
    refine ⟨?_, ?_⟩
    · rw [hgenerated, hingested, htick]
      exact h.generated
    · rw [htick]
      exact h.mock
  obtain ⟨htick, -, hgenerated, hingested, -⟩ := stop_frame s
  cases action with
  | start ratePerSecond databasePath =>
    rw [simulate, MockIngestionSimulator.start]
    cases s.running with
    | true =>
      simp only [if_true]
      split_ifs
      · exact hframe _ hgenerated hingested htick
      · exact hframe _ hgenerated hingested htick
    | false =>
      simp only [Bool.false_eq_true, if_false]
      split_ifs
      · exact hframe _ rfl rfl rfl
      · exact hframe _ rfl rfl rfl
  | stop => exact hframe _ hgenerated hingested htick
  | shutdown => exact hframe _ rfl rfl rfl
  | generate t draws =>
    rw [simulate, generate]
    split_ifs with hdue
    · have hidle : s.tick = none := Option.isNone_iff_eq_none.mp hdue.2
      refine ⟨?_, ?_⟩
      · have hold := h.generated
        rw [hidle, Option.map_none, Option.toList_none, List.append_nil] at hold
        simp only [hold, Option.map_some, Option.toList_some]
      · rintro _ ⟨⟩
        exact ⟨t.batchSize, draws, rfl⟩
    · exact h
  | broadcast now b =>
    rw [simulate, MockIngestionSimulator.broadcast]
    split
    · rename_i logs hbegun
      obtain ⟨batchSize, draws, hlogs⟩ := h.mock _ hbegun
      have hreturns : (broadcastLogs readMap now b logs).2 = none := by
        rw [broadcastLogs_returns]
        exact (show logs = _ from hlogs) ▸ batchSafe_mockLogs hread b batchSize draws
      rw [hreturns]
      refine ⟨?_, ?_⟩
      · rw [h.generated, hbegun]
        rfl
      · rintro _ ⟨⟩
        exact ⟨batchSize, draws, hlogs⟩
    · exact h
  | ingest =>
    rw [simulate, MockIngestionSimulator.ingest]
    split
    · rename_i logs hbegun
      refine ⟨?_, fun t ht => absurd ht.symm (Option.some_ne_none t)⟩
      rw [h.generated, hbegun]
      simp
    · exact h

end batches

section samples

def quietDraws : MockDraws where
  rand := ⟨0, by decide⟩
  latency := ⟨0, by decide⟩
  peak := ⟨0, by decide⟩
  currentTimeMillis := 0#64

/-- A start, a run of its task that is stopped after the broadcast, and a run that comes too late. -/
theorem stopped_ingests_at_most_one_sample :
    let s := [SimulatorAction.start 5 (java "a"), .generate ⟨0, 1⟩ fun _ => quietDraws,
      .broadcast 0 ⟨[], []⟩].foldl (simulate fun _ => none) new
    let s' := [SimulatorAction.ingest, .generate ⟨0, 1⟩ fun _ => quietDraws, .ingest].foldl
      (simulate fun _ => none) s.stop
    s'.ingested = s.ingested ∨ ∃ t ∈ s.tick, ∃ path, s'.ingested = s.ingested ++ [(path, t.logs)] :=
  stopped_ingests_at_most_one (fun _ => none) _ _ (by simp [SimulatorAction.Starts])

end samples

end Eureka.Gateway
