import Mathlib
import Eureka.PipelineInvariant
import Eureka.TransitionRuns

/-! A query run cannot block and cannot go on forever, so it returns; what it returns is the
number of matching records that were sent. -/
namespace Eureka.Pipeline
open WordBytes BitPlanes Apex Simdjson RingQueue TransitionRuns

variable {engine : ApexEngine} {s l : Word} {all : List LogRecord} {t t' : System}

def ProducerPc.work : ProducerPc → ℕ
  | .parsing docs => 4 * docs.length + 10
  | .pushing docs => 4 * docs.length + 13
  | .pushingLast => 9
  | .signalling => 6
  | .joining => 5
  | .returned _ => 0

def ConsumerPc.work : ConsumerPc → ℕ
  | .waiting => 3
  | .evaluating _ => 4
  | .publishing => 2
  | .exited => 0

/-- A queued chunk stands for two steps of the worker. -/
def System.work (t : System) : ℕ :=
  t.producer.pc.work + (2 * t.ingester.ring.size + t.consumer.pc.work)

lemma work_stepProducer (h : ProducerStep t t') : t'.work < t.work := by
  cases h with
  | skip hpc => simp [System.work, ProducerPc.work, hpc]
  | fill hpc =>
    simp only [System.work, ProducerPc.work, hpc, List.length_cons]
    omega
  | complete hpc =>
    simp only [System.work, ProducerPc.work, hpc, List.length_cons]
    omega
  | stop hpc => simp [System.work, ProducerPc.work, hpc]
  | pad hpc => simp [System.work, ProducerPc.work, hpc]
  | push hpc =>
    simp only [System.work, System.push, Ring.push, ProducerPc.work, hpc]
    omega
  | pushLast hpc =>
    simp only [System.work, System.push, Ring.push, ProducerPc.work, hpc]
    omega
  | signal hpc => simp [System.work, ProducerPc.work, hpc]
  | join hpc => simp [System.work, ProducerPc.work, hpc]

lemma work_stepConsumer (h : ConsumerStep engine t t') : t'.work < t.work := by
  cases h with
  | drain hpc => simp [System.work, ConsumerPc.work, hpc]
  | pop hpc hsome =>
    simp only [System.work, Ring.pop, ConsumerPc.work, hpc]
    omega
  | evaluate hpc => simp [System.work, ConsumerPc.work, hpc]
  | publish hpc => simp [System.work, ConsumerPc.work, hpc]

theorem work_step (engine : ApexEngine) (t t' : System) (h : Step engine t t') :
    t'.work < t.work := by
  rcases h with hp | hc
  · exact work_stepProducer (producerStep_of_eq hp)
  · exact work_stepConsumer (consumerStep_of_eq hc)

/-- The worker can step unless it waits for a chunk or has exited. -/
lemma Invariant.consumer_steps (h : Invariant s l all t)
    (hwake : 0 < t.ingester.ring.size ∨ t.ingester.ingestComplete = true)
    (hpc : t.consumer.pc ≠ .exited) : ∃ t', stepConsumer engine t = some t' := by
  cases hc : t.consumer.pc with
  | waiting =>
    simp only [stepConsumer, hc, if_pos hwake]
    split_ifs with hdone
    · exact ⟨_, rfl⟩
    · obtain ⟨chunk, hfront, -⟩ := Ring.contents_pop h.ring (size_pos_of_wake hwake hdone)
      rw [hfront]
      exact ⟨_, rfl⟩
  | evaluating chunk =>
    simp only [stepConsumer, hc]
    exact ⟨_, rfl⟩
  | publishing =>
    simp only [stepConsumer, hc]
    exact ⟨_, rfl⟩
  | exited => exact absurd hc hpc

/-- A push waits only for a worker that can step. -/
lemma Invariant.push_or_pop (h : Invariant s l all t) (hopen : ¬ t.producer.pc.finished)
    (hfull : ¬ t.ingester.ring.size < kQueueCapacity) :
    ∃ t', stepConsumer engine t = some t' := by
  have hsome : 0 < t.ingester.ring.size := by
    have hcap : kQueueCapacity = 16 := rfl
    omega
  exact h.consumer_steps (Or.inl hsome) fun he => h.notDrained hopen (Or.inr he)

lemma step_of_producer (engine : ApexEngine) (h : ∃ t', stepProducer t = some t') :
    ∃ t', Step engine t t' := h.imp fun _ => Or.inl

lemma step_of_consumer (h : ∃ t', stepConsumer engine t = some t') : ∃ t', Step engine t t' :=
  h.imp fun _ => Or.inr

/-- Parsing never waits. -/
lemma stepProducer_parsing {docs : List (Option Document)} (hpc : t.producer.pc = .parsing docs) :
    ∃ t', stepProducer t = some t' := by
  cases docs with
  | nil =>
    simp only [stepProducer, hpc]
    split_ifs <;> exact ⟨_, rfl⟩
  | cons entry docs =>
    cases entry with
    | none =>
      simp only [stepProducer, hpc]
      exact ⟨_, rfl⟩
    | some doc =>
      simp only [stepProducer, hpc]
      split_ifs <;> exact ⟨_, rfl⟩

/-- A push waits for room, which the consumer makes. -/
lemma Invariant.push_progress (engine : ApexEngine) (h : Invariant s l all t)
    (hopen : ¬ t.producer.pc.finished)
    (hpush : t.ingester.ring.size < kQueueCapacity → ∃ t', stepProducer t = some t') :
    ∃ t', Step engine t t' := by
  by_cases hroom : t.ingester.ring.size < kQueueCapacity
  · exact step_of_producer engine (hpush hroom)
  · exact step_of_consumer (h.push_or_pop hopen hroom)

/-- Some thread can step until the query has returned. -/
theorem Invariant.progress (engine : ApexEngine) (h : Invariant s l all t)
    (hpc : ∀ r, t.producer.pc ≠ .returned r) : ∃ t', Step engine t t' := by
  cases hc : t.producer.pc with
  | parsing docs => exact step_of_producer engine (stepProducer_parsing hc)
  | pushing docs =>
    have hopen : ¬ t.producer.pc.finished := by rw [hc]; exact id
    refine h.push_progress engine hopen fun hroom => ?_
    simp only [stepProducer, hc, if_pos hroom]
    exact ⟨_, rfl⟩
  | pushingLast =>
    have hopen : ¬ t.producer.pc.finished := by rw [hc]; exact id
    refine h.push_progress engine hopen fun hroom => ?_
    simp only [stepProducer, hc, if_pos hroom]
    exact ⟨_, rfl⟩
  | signalling =>
    refine step_of_producer engine ?_
    simp only [stepProducer, hc]
    exact ⟨_, rfl⟩
  | joining =>
    by_cases hexit : t.consumer.pc = .exited
    · refine step_of_producer engine ?_
      simp only [stepProducer, hc, if_pos hexit]
      exact ⟨_, rfl⟩
    · exact step_of_consumer (h.consumer_steps (Or.inr (h.signalled hc)) hexit)
  | returned r => exact absurd hc (hpc r)

/-- Every run can be continued to a return. -/
theorem Invariant.reaches_return (engine : ApexEngine) (h : Invariant s l all t) :
    ∃ t', Run engine t t' ∧ t'.producer.pc = .returned (all.countP (satisfies s l)) := by
  obtain ⟨t', hrun, hstuck⟩ := exists_stuck (work_step engine) t
  have hinv := h.run hrun
  refine ⟨t', hrun, ?_⟩
  by_contra hne
  obtain ⟨u, hu⟩ := hinv.progress engine fun r hr => hne (hinv.result r hr ▸ hr)
  exact hstuck u hu

/-- `run_query` returns `r` in some interleaving. -/
def Returns (engine : ApexEngine) (parser : Parser) (env : IngestEnv) (prev : Ingester)
    (s l : Word) (r : ℕ) : Prop :=
  ∃ t, Run engine (.start parser env prev s l) t ∧ t.producer.pc = .returned r

theorem returns_iff (engine : ApexEngine) (parser : Parser) (env : IngestEnv) (prev : Ingester)
    (s l : Word) (r : ℕ) : Returns engine parser env prev s l r ↔
      r = (sentRecords parser env prev).countP (satisfies s l) := by
  have hstart := invariant_start parser env prev s l
  constructor
  · rintro ⟨t, hrun, hr⟩
    exact (hstart.run hrun).result r hr
  · rintro rfl
    exact hstart.reaches_return engine

lemma sentRecords_of_ends {parser : Parser} {env : IngestEnv} (hend : env.throwsAfter = none)
    (prev : Ingester) : sentRecords parser env prev = parsedRecords parser env prev := by
  have hfalse : (stream parser env prev).2 = false := by
    unfold stream
    split_ifs
    · rfl
    · split
      · rfl
      · simp [streamed, hend]
  rw [sentRecords, hfalse]
  rfl

/-- Every interleaving of a query whose document stream ends without an exception: in each
state the queue holds what was produced and not yet consumed, in order; the run can go on to
a return; and whatever it returns is the number of matching records. -/
theorem run_query_exact {parser : Parser} {env : IngestEnv} (hend : env.throwsAfter = none)
    (prev : Ingester) {t : System} (hrun : Run engine (.start parser env prev s l) t) :
    t.ingester.ring.size ≤ kQueueCapacity ∧
    t.ingester.ring.head = (t.ingester.ring.tail + t.ingester.ring.size) % kQueueCapacity ∧
    t.history.consumed ++ t.ingester.ring.contents = t.history.produced ∧
    (∃ t' r, Run engine t t' ∧ t'.producer.pc = .returned r) ∧
    ∀ r, t.producer.pc = .returned r →
      r = (parsedRecords parser env prev).countP (satisfies s l) := by
  have h := (invariant_start parser env prev s l).run hrun
  rw [sentRecords_of_ends hend] at h
  obtain ⟨t', hrun', hret⟩ := h.reaches_return engine
  exact ⟨h.ring.size_le, h.ring.head_eq, h.fifo, ⟨t', _, hrun', hret⟩, h.result⟩

/-- The query asks for status 500 and latency over 100; the chunk starts with garbage. -/
theorem run_query_exact_sample :
    ∃ t, Run .reference (.start (.ofStream sampleStream)
      ⟨fun _ => some sampleFile, none, ⟨.replicate 64 7, .replicate 64 7, 9⟩⟩
      { Ingester.new with filepath := "app.log" } 500 100) t ∧ t.producer.pc = .returned 1 := by
  obtain ⟨t, hrun, hret⟩ := (invariant_start (.ofStream sampleStream)
    ⟨fun _ => some sampleFile, none, ⟨.replicate 64 7, .replicate 64 7, 9⟩⟩
    { Ingester.new with filepath := "app.log" } 500 100).reaches_return .reference
  obtain ⟨-, -, -, -, hcount⟩ := run_query_exact rfl _ hrun
  refine ⟨t, hrun, hret.trans (congrArg _ ((hcount _ hret).trans ?_))⟩
  decide

end Eureka.Pipeline
