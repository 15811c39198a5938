import Mathlib
import Eureka.PipelineProgress
import Eureka.WaitNotify

/-! The two threads of a query with `queue_mutex_` and the two condition variables spelled
out. The critical sections of the coarser interleaving become lock, wait, notify and unlock. -/
namespace Eureka.Pipeline
open WordBytes Apex Simdjson RingQueue WaitNotify

inductive Thread
  | producer
  | consumer
  deriving DecidableEq, Repr

def Thread.other : Thread → Thread
  | .producer => .consumer
  | .consumer => .producer

def stepThread (engine : ApexEngine) (t : System) : Thread → Option System
  | .producer => stepProducer t
  | .consumer => stepConsumer engine t

/-- The blocks that take `queue_mutex_`: the two pushes, the signal of completion, the pop. -/
def inSection (t : System) : Thread → Bool
  | .producer =>
    match t.producer.pc with
    | .pushing _ | .pushingLast | .signalling => true
    | _ => false
  | .consumer => t.consumer.pc = .waiting

/-- The predicates of the waits. The signal of completion does not wait. -/
def ready (t : System) : Thread → Bool
  | .producer =>
    match t.producer.pc with
    | .signalling => true
    | _ => t.ingester.ring.size < kQueueCapacity
  | .consumer => 0 < t.ingester.ring.size ∨ t.ingester.ingestComplete

/-- The worker leaves its loop without a notification. -/
def notifies (t : System) : Thread → Bool
  | .producer => true
  | .consumer => ¬ (t.ingester.ring.size = 0 ∧ t.ingester.ingestComplete)

def queueProtocol (engine : ApexEngine) : Protocol System Thread where
  step th t := stepThread engine t th
  inSection := inSection
  ready := ready
  notifies := notifies
  peer := Thread.other

/-- With the records accounted for, and no return before the worker is done. -/
structure JoinedInvariant (s l : Word) (all : List LogRecord) (t : System) : Prop where
  base : Invariant s l all t
  joined : ∀ r, t.producer.pc = .returned r → t.consumer.pc = .exited

variable {engine : ApexEngine} {s l : Word} {all : List LogRecord} {t t' : System}

lemma step_of_stepThread {th : Thread} (h : stepThread engine t th = some t') :
    Step engine t t' := by
  cases th with
  | producer => exact Or.inl h
  | consumer => exact Or.inr h

lemma thread_eq_other {th th' : Thread} (h : th' ≠ th) : th' = th.other := by
  cases th <;> cases th' <;> first | rfl | exact absurd rfl h

/-- A step of the parsing thread does not move the worker. -/
lemma consumer_of_producerStep (h : ProducerStep t t') : t'.consumer = t.consumer := by
  cases h <;> rfl

lemma producer_of_consumerStep (h : ConsumerStep engine t t') : t'.producer = t.producer := by
  cases h <;> rfl

/-- Only a section of the parsing thread puts chunks into the queue or completes. -/
lemma ready_consumer_of_producerStep (h : ProducerStep t t') :
    ready t' .consumer = ready t .consumer ∨ inSection t .producer = true := by
  cases h with
  | push hpc | pushLast hpc | signal hpc => exact Or.inr (by simp [inSection, hpc])
  | skip | fill | complete | stop | pad | join => exact Or.inl rfl

lemma ready_producer_congr (hpc : t'.producer.pc = t.producer.pc)
    (hring : t'.ingester.ring = t.ingester.ring) : ready t' .producer = ready t .producer := by
  simp only [ready, hpc, hring]

/-- Only a pop makes room in the queue. -/
lemma ready_producer_of_consumerStep (h : ConsumerStep engine t t') :
    ready t' .producer = ready t .producer ∨
      inSection t .consumer = true ∧ notifies t .consumer = true := by
  cases h with
  | pop hpc hsome hfront =>
    refine Or.inr ⟨by simp [inSection, hpc], ?_⟩
    have hne : t.ingester.ring.size ≠ 0 := hsome.ne'
    simp [notifies, hne]
  | drain | evaluate | publish => exact Or.inl (ready_producer_congr rfl rfl)

lemma JoinedInvariant.step (h : JoinedInvariant s l all t) {th : Thread}
    (hstep : stepThread engine t th = some t') : JoinedInvariant s l all t' := by
  refine ⟨?_, fun r hr => ?_⟩
  · exact h.base.run (.single (step_of_stepThread hstep))
  · cases th with
    | producer =>
      have hproducer := producerStep_of_eq hstep
      rw [consumer_of_producerStep hproducer]
      cases hproducer with
      | join hpc hexit => exact hexit
      | skip | fill | complete | stop | pad | push | pushLast | signal => exact absurd hr (by simp)
    | consumer =>
      have hconsumer := consumerStep_of_eq hstep
      rw [producer_of_consumerStep hconsumer] at hr
      have hexit := h.joined r hr
      cases hconsumer with
      | drain hpc | pop hpc | evaluate hpc | publish hpc =>
        exact absurd (hpc.symm.trans hexit) (by simp)

lemma JoinedInvariant.enters (h : JoinedInvariant s l all t) {th : Thread}
    (hsection : inSection t th = true) (hready : ready t th = true) :
    (stepThread engine t th).isSome = true := by
  cases th with
  | producer =>
    cases hpc : t.producer.pc with
    | pushing docs =>
      have hroom : t.ingester.ring.size < kQueueCapacity := by simpa [ready, hpc] using hready
      simp [stepThread, stepProducer, hpc, hroom]
    | pushingLast =>
      have hroom : t.ingester.ring.size < kQueueCapacity := by simpa [ready, hpc] using hready
      simp [stepThread, stepProducer, hpc, hroom]
    | signalling => simp [stepThread, stepProducer, hpc]
    | parsing | joining | returned => exact absurd hsection (by simp [inSection, hpc])
  | consumer =>
    have hpc : t.consumer.pc = .waiting := by simpa [inSection] using hsection
    have hwake : 0 < t.ingester.ring.size ∨ t.ingester.ingestComplete = true := by
      simpa [ready] using hready
    exact Option.isSome_iff_exists.mpr (h.base.consumer_steps hwake (by simp [hpc]))

lemma ready_others {th th' : Thread} (hstep : stepThread engine t th = some t') (hne : th' ≠ th)
    (hready : ready t' th' = true) :
    ready t th' = true ∨ inSection t th = true ∧ notifies t th = true ∧ th.other = th' := by
  obtain rfl := thread_eq_other hne
  cases th with
  | producer =>
    rcases ready_consumer_of_producerStep (producerStep_of_eq hstep) with hsame | hsection
    · exact Or.inl (hsame.symm.trans hready)
    · exact Or.inr ⟨hsection, rfl, rfl⟩
  | consumer =>
    rcases ready_producer_of_consumerStep (consumerStep_of_eq hstep) with hsame | hpop
    · exact Or.inl (hsame.symm.trans hready)
    · exact Or.inr ⟨hpop.1, hpop.2, rfl⟩

section runs
variable {parser : Parser} {env : IngestEnv} {prev : Ingester} {m : Monitor System Thread}

/-- The finer interleaving is one of the coarser. -/
theorem run_of_moves
    (hrun : Relation.ReflTransGen (Move (queueProtocol engine)) (Monitor.start t) m) :
    Run engine t m.system := by
  induction hrun with
  | refl => exact .refl
  | tail _ hmove ih =>
    rcases hmove.refines with hsame | ⟨th, hstep⟩
    · rwa [hsame]
    · exact ih.tail (step_of_stepThread hstep)

end runs

section samples

end samples

end Eureka.Pipeline
