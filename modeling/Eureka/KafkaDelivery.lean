import Mathlib
import Eureka.KafkaConsumer

/-! What becomes of a batch that `flushBuffer` has taken out of the buffer. The engine can reject
it, fail or stay silent; the response is dropped and nothing is put back. -/
namespace Eureka.QueryService
open TransitionRuns

structure IngestResponse where
  totalIngested : BitVec 64
  success : Bool
  errorMessage : String
  deriving DecidableEq, Repr

/-- A call of the response observer. -/
inductive StreamEvent
  | onNext (value : IngestResponse)
  | onError
  | onCompleted
  deriving DecidableEq, Repr

/-- What one call of `streamIngest` meets: an exception out of the stub or of the wait for the
latch, and what the observer is told before the wait ends. -/
structure StreamCall where
  thrown : Option String
  events : List StreamEvent
  deriving DecidableEq, Repr

/-- `result[0]` after some calls of the observer. -/
def observe (result : Option IngestResponse) : StreamEvent → Option IngestResponse
  | .onNext value => some value
  | .onError => result
  | .onCompleted => result

/-- `none` is the `null` that is returned when no response came in time. -/
def streamIngest (call : StreamCall) : Except String (Option IngestResponse) :=
  match call.thrown with
  | some message => .error message
  | none => .ok (call.events.foldl observe none)

/-- `ingestLogLines`: exceptions become a response, and a `null` passes. -/
def ingestLogLines (resolveAndFetch : Except String String) (stream : String → StreamCall) :
    Option IngestResponse :=
  match resolveAndFetch.bind fun resolvedPath => streamIngest (stream resolvedPath) with
  | .ok response => response
  | .error message => some ⟨0, false, "Ingestion target staging failed: " ++ message⟩

/-- What the two calls of a flush meet. A broadcast that throws is caught after the clear, and the
ingestion is not tried. -/
structure Delivery where
  broadcastLogs : Except String Unit
  resolveAndFetch : Except String String
  stream : String → StreamCall

/-- The response that the flush gets and drops. -/
def Delivery.response (d : Delivery) : Except String (Option IngestResponse) :=
  d.broadcastLogs.map fun _ => ingestLogLines d.resolveAndFetch d.stream

/-- The engine took the batch with `success = true`. -/
def Delivery.Acknowledged (d : Delivery) : Prop :=
  ∃ response, d.response = .ok (some response) ∧ response.success = true

instance (d : Delivery) : Decidable d.Acknowledged :=
  match h : d.response with
  | .ok (some response) =>
    decidable_of_iff (response.success = true) (by simp [Delivery.Acknowledged, h])
  | .ok none => isFalse (by simp [Delivery.Acknowledged, h])
  | .error _ => isFalse (by simp [Delivery.Acknowledged, h])

/-- Rejection, failure and silence are the ways to miss an acknowledgment. -/
theorem acknowledged_iff (d : Delivery) : d.Acknowledged ↔ d.broadcastLogs = .ok () ∧
    ∃ path, d.resolveAndFetch = .ok path ∧ (d.stream path).thrown = none ∧
      ∃ response, (d.stream path).events.foldl observe none = some response ∧
        response.success = true := by
  obtain ⟨broadcast, staged, stream⟩ := d
  cases broadcast with
  | error message => simp [Delivery.Acknowledged, Delivery.response, Except.map]
  | ok =>
    cases staged with
    | error message =>
      simp [Delivery.Acknowledged, Delivery.response, Except.map, ingestLogLines, Except.bind]
    | ok path =>
      cases hthrown : (stream path).thrown <;>
        simp [Delivery.Acknowledged, Delivery.response, Except.map, ingestLogLines, Except.bind,
          streamIngest, hthrown]

section machine
variable {R : Type*}

/-- The manager with the records of the batches that were acknowledged. -/
structure Ingestion (R : Type*) where
  manager : KafkaConsumerManager R
  acknowledged : List R

def Ingestion.start : Ingestion R := ⟨.start, []⟩

/-- The batch of a thread between its clear and the end of the delivery. -/
def Pc.batch : Pc R → List R
  | .flushing (.delivering batchToFlush) => batchToFlush
  | _ => []

def inFlight (s : KafkaConsumerManager R) : List R :=
  (s.pc .listener).batch ++ ((s.pc .scheduler).batch ++ (s.pc .shutdown).batch)

/-- The batch whose delivery the action ends. -/
def endedBatch (s : KafkaConsumerManager R) : Action R → List R
  | .flush t => (s.pc t).batch
  | _ => []

/-- A step of the manager, which does not look at what the delivery returned. -/
def stepWith (batchSize : ℕ) (s : Ingestion R) (c : Action R × Delivery) : Ingestion R where
  manager := step batchSize s.manager c.1
  acknowledged :=
    if c.2.Acknowledged then s.acknowledged ++ endedBatch s.manager c.1 else s.acknowledged

def runWith (batchSize : ℕ) (steps : List (Action R × Delivery)) : Ingestion R :=
  steps.foldl (stepWith batchSize) .start

/-- The consumed records that are not acknowledged are in delivery or still in the buffer, in
order. -/
def Kept (s : Ingestion R) : Prop :=
  s.acknowledged ++ (inFlight s.manager ++ s.manager.buffer) = s.manager.consumed

/-- No addition is cleared away, and a delivery that ends here ends acknowledged. -/
def Delivered (s : Ingestion R) (c : Action R × Delivery) : Prop :=
  ClearSafe s.manager c.1 ∧ (endedBatch s.manager c.1 ≠ [] → c.2.Acknowledged)

end machine

section handover
variable {R : Type*} {s s' : KafkaConsumerManager R}

lemma Exclusive.others (h : Exclusive s) {t : Worker} (hlock : s.lock = some t) :
    ∀ u, u ≠ t → (s.pc u).batch = [] := by
  intro u hu
  cases hpc : s.pc u with
  | idle | testing => rfl
  | flushing p =>
    cases p with
    | waiting | entered | copying | clearing => rfl
    | delivering batch =>
      exact absurd (Option.some.inj ((h.holder u _ hpc (by simp)).symm.trans hlock)) hu

lemma inFlight_of_others {t : Worker} (h : ∀ u, u ≠ t → (s.pc u).batch = []) :
    inFlight s = (s.pc t).batch := by
  cases t with
  | listener => rw [inFlight, h .scheduler (by simp), h .shutdown (by simp)]; simp
  | scheduler => rw [inFlight, h .listener (by simp), h .shutdown (by simp)]; simp
  | shutdown => rw [inFlight, h .listener (by simp), h .scheduler (by simp)]; simp

/-- Before and after a step of the holder, no other thread has a batch. -/
lemma Exclusive.inFlight_moved (h : Exclusive s) {t : Worker} (hlock : s.lock = some t)
    (hpc : ∀ u, u ≠ t → s'.pc u = s.pc u) :
    inFlight s = (s.pc t).batch ∧ inFlight s' = (s'.pc t).batch := by
  have hother := h.others hlock
  exact ⟨inFlight_of_others hother,
    inFlight_of_others fun u hu => (congrArg Pc.batch (hpc u hu)).trans (hother u hu)⟩

lemma inFlight_congr (h : ∀ u, (s'.pc u).batch = (s.pc u).batch) : inFlight s' = inFlight s := by
  rw [inFlight, inFlight, h, h, h]

lemma batch_goto {t : Worker} {p : Pc R} (h : p.batch = (s.pc t).batch) (u : Worker) :
    ((s.goto t p).pc u).batch = (s.pc u).batch := by
  by_cases hu : u = t
  · rw [hu, KafkaConsumerManager.goto_self, h]
  · rw [s.goto_of_ne hu]

/-- Where a step leaves the records. -/
inductive Handover (s s' : KafkaConsumerManager R) (a : Action R) : Prop
  | none (added : List R) (hflight : inFlight s' = inFlight s)
      (hbuffer : s'.buffer = s.buffer ++ added) (hconsumed : s'.consumed = s.consumed ++ added)
      (hended : endedBatch s a = []) (hsafe : ClearSafe s a)
  | clear (batch : List R) (hbefore : inFlight s = []) (hafter : inFlight s' = batch)
      (hbuffer : s'.buffer = []) (hconsumed : s'.consumed = s.consumed)
      (hended : endedBatch s a = []) (hcopied : batch <+: s.buffer)
      (hsafe : ClearSafe s a ↔ batch = s.buffer)
  | deliver (batch : List R) (hbefore : inFlight s = batch) (hafter : inFlight s' = [])
      (hbuffer : s'.buffer = s.buffer) (hconsumed : s'.consumed = s.consumed)
      (hended : endedBatch s a = batch) (hsafe : ClearSafe s a)

/-- A thread that moves within the flush without a batch. -/
lemma handover_within {t : Worker} {p : Pc R} (hpc : s.pc t = p) (hbatch : p.batch = [])
    (hclear : ∀ b, p ≠ .flushing (.clearing b)) (hflight : inFlight s' = inFlight s)
    (hbuffer : s'.buffer = s.buffer) (hconsumed : s'.consumed = s.consumed) :
    Handover s s' (.flush t) := by
  refine .none [] hflight (by simpa using hbuffer) (by simpa using hconsumed) ?_
    (clearSafe_of_ne hpc hclear)
  rw [endedBatch, hpc, hbatch]

lemma batch_of_waits {p : Pc R} (h : ∀ q, p = .flushing q → q = .waiting) : p.batch = [] := by
  cases p with
  | idle | testing => rfl
  | flushing q => rw [h q rfl]; rfl

lemma endedBatch_of_waits {a : Action R}
    (h : ∀ t p, a = .flush t → s.pc t = .flushing p → p = .waiting) : endedBatch s a = [] := by
  cases a with
  | flush t => exact batch_of_waits fun q hq => h t q rfl hq
  | add | sizeTest | checkFlush | timeTest | stopContainer => rfl

lemma Exclusive.handover_clear (h : Exclusive s) {t : Worker} {batch : List R}
    (hpc : s.pc t = .flushing (.clearing batch)) (flushed : List (List R)) :
    Handover s { s.goto t (.flushing (.delivering batch)) with
      buffer := []
      flushed := flushed } (.flush t) := by
  have hlock := h.holder t _ hpc (by simp)
  obtain ⟨hbefore, hafter⟩ := h.inFlight_moved hlock fun u hu => s.goto_of_ne hu _
  rw [hpc] at hbefore
  rw [KafkaConsumerManager.goto_self] at hafter
  refine .clear batch hbefore hafter rfl rfl ?_ (h.copied t batch hpc) ?_
  · rw [endedBatch, hpc]
    rfl
  · constructor
    · exact fun hsafe => (hsafe batch hpc).symm
    · intro heq b hb
      rw [← heq]
      exact FlushPc.clearing.inj (Pc.flushing.inj (hpc.symm.trans hb))

lemma Exclusive.handover_deliver (h : Exclusive s) {t : Worker} {batch : List R}
    (hpc : s.pc t = .flushing (.delivering batch)) : Handover s (s.release t) (.flush t) := by
  have hlock := h.holder t _ hpc (by simp)
  have hidle : (s.release t).pc t = .idle := s.goto_self t .idle
  have hmoved : ∀ u, u ≠ t → (s.release t).pc u = s.pc u := fun u hu => s.goto_of_ne hu .idle
  obtain ⟨hbefore, hafter⟩ := h.inFlight_moved hlock hmoved
  rw [hpc] at hbefore
  rw [hidle] at hafter
  refine .deliver batch hbefore hafter rfl rfl ?_ (clearSafe_of_ne hpc (by simp))
  rw [endedBatch, hpc]
  rfl

/-- One case for each way to touch the records; only the holder clears and delivers. -/
lemma Transition.handover {a : Action R} (ht : Transition s a s') (h : Exclusive s) :
    Handover s s' a := by
  cases ht with
  | stay hwaits =>
    exact .none [] rfl (by simp) (by simp) (endedBatch_of_waits hwaits) (clearSafe_of_waits hwaits)
  | add value hpc =>
    have hbatch : (Pc.testing : Pc R).batch = (s.pc .listener).batch := by rw [hpc]; rfl
    exact .none [value] (inFlight_congr (batch_goto hbatch)) rfl rfl rfl trivial
  | test t p ha hpc hp =>
    have hwaits : ∀ u q, a = .flush u → s.pc u = .flushing q → q = .waiting :=
      fun u _ hu => absurd hu (ha u)
    have hbatch : p.batch = (s.pc t).batch := by
      rw [batch_of_waits hp, batch_of_waits fun q hq => absurd hq (hpc q)]
    exact .none [] (inFlight_congr (batch_goto hbatch)) (List.append_nil _).symm
      (List.append_nil _).symm (endedBatch_of_waits hwaits) (clearSafe_of_waits hwaits)
  | enter t hpc | leave t hpc | begin t hpc | copy t hpc =>
    refine handover_within hpc rfl (by simp) (inFlight_congr (batch_goto ?_)) rfl rfl
    rw [hpc]
    rfl
  | clear t batch hpc => exact h.handover_clear hpc _
  | deliver t batch hpc => exact h.handover_deliver hpc

end handover

section delivery
variable {R : Type*} {batchSize : ℕ} {s : Ingestion R}

theorem kept_step (h : Exclusive s.manager) (hkept : Kept s) (c : Action R × Delivery) :
    Kept (stepWith batchSize s c) ↔ Delivered s c := by
  have hkept' := hkept
  rw [Kept] at hkept
  rw [Kept, stepWith, Delivered]
  cases (transition_step batchSize s.manager c.1).handover h with
  | none added hflight hbuffer hconsumed hended hsafe =>
    refine iff_of_true ?_ ⟨hsafe, fun hne => absurd hended hne⟩
    simp only [hflight, hbuffer, hconsumed, hended, List.append_nil, ite_self, ← hkept,
      List.append_assoc]
  | clear batch hbefore hafter hbuffer hconsumed hended _ hsafe =>
    rw [hsafe]
    simp only [hafter, hbuffer, hconsumed, hended, List.append_nil, ite_self, ← hkept, hbefore,
      List.nil_append, List.append_cancel_left_eq, ne_eq, not_true_eq_false, false_implies, and_true]
  | deliver batch hbefore hafter hbuffer hconsumed hended hsafe =>
    simp only [hended, hafter, hbuffer, hconsumed, List.nil_append, ← hkept, hbefore]
    split_ifs with hack
    · exact iff_of_true (List.append_assoc ..) ⟨hsafe, fun _ => hack⟩
    · rw [List.append_cancel_left_eq, List.self_eq_append_left]
      exact ⟨fun hnil => ⟨hsafe, fun hne => absurd hnil hne⟩, fun h => not_not.mp fun hne => hack (h.2 hne)⟩

/-- How many consumed records are not acknowledged, in delivery or in the buffer. -/
def missing (s : Ingestion R) : ℕ :=
  s.manager.consumed.length -
    (s.acknowledged.length + (inFlight s.manager).length + s.manager.buffer.length)

/-- No step puts a record back. -/
theorem missing_step (h : Exclusive s.manager) (c : Action R × Delivery) :
    missing s ≤ missing (stepWith batchSize s c) := by
  rw [missing, missing, stepWith]
  cases (transition_step batchSize s.manager c.1).handover h with
  | none added hflight hbuffer hconsumed hended _ =>
    simp only [hflight, hbuffer, hconsumed, hended, List.append_nil, ite_self, List.length_append]
    omega
  | clear batch hbefore hafter hbuffer hconsumed hended hcopied _ =>
    have hle := hcopied.length_le
    simp only [hafter, hbuffer, hconsumed, hended, List.append_nil, ite_self, hbefore,
      List.length_nil]
    omega
  | deliver batch hbefore hafter hbuffer hconsumed hended _ =>
    simp only [hended, hafter, hbuffer, hconsumed, hbefore, List.length_nil]
    split_ifs
    · rw [List.length_append]
      omega
    · omega

end delivery

section runs
variable {R : Type*}

lemma exclusive_runWith (batchSize : ℕ) (steps : List (Action R × Delivery)) :
    Exclusive (runWith batchSize steps).manager := by
  induction steps using List.reverseRecOn with
  | nil => exact exclusive_run batchSize []
  | append_singleton steps c ih =>
    rw [runWith, List.foldl_append]
    exact exclusive_step ih c.1

/-- What is missing after a part of a run is still missing at its end. -/
theorem missing_mono (batchSize : ℕ) (steps later : List (Action R × Delivery)) :
    missing (runWith batchSize steps) ≤ missing (runWith batchSize (steps ++ later)) := by
  induction later using List.reverseRecOn with
  | nil => rw [List.append_nil]
  | append_singleton later c ih =>
    have hlast : runWith batchSize (steps ++ (later ++ [c])) =
        stepWith batchSize (runWith batchSize (steps ++ later)) c := by
      rw [← List.append_assoc, runWith, List.foldl_append]
      rfl
    rw [hlast]
    exact ih.trans (missing_step (exclusive_runWith batchSize _) c)

/-- The records that the engine has not acknowledged are kept in every state of a run exactly if
every delivery of the run is acknowledged and no clear finds an addition. -/
theorem kept_throughout_iff (batchSize : ℕ) (steps : List (Action R × Delivery)) :
    (∀ k ≤ steps.length, Kept (runWith batchSize (steps.take k))) ↔
      ∀ k (hk : k < steps.length), Delivered (runWith batchSize (steps.take k)) steps[k] := by
  have hstep : ∀ (s : Ingestion R) (c : Action R × Delivery), Exclusive s.manager → True → Kept s →
      (Kept (stepWith batchSize s c) ↔ Delivered s c) := fun _ c h _ hkept => kept_step h hkept c
  have hstart : Kept (.start : Ingestion R) := rfl
  exact good_throughout_iff (fun _ c h _ => exclusive_step h c.1) hstep
    (exclusive_runWith batchSize []) hstart fun _ _ => trivial

end runs

section samples

/-- A local path, and a stream with these calls of the observer. -/
def deliveryOf (thrown : Option String) (events : List StreamEvent) : Delivery :=
  ⟨.ok (), .ok "/scratch/logs.agb", fun _ => ⟨thrown, events⟩⟩

def rejected : Delivery :=
  deliveryOf none [.onNext ⟨0, false, "Failed to open file"⟩, .onCompleted]

def timedOut : Delivery := deliveryOf none []

def broken : Delivery := deliveryOf (some "UNAVAILABLE") []

/-- One record fills a batch; its delivery ends in the last step. -/
def oneBatch (d : Delivery) : List (Action ℕ × Delivery) :=
  [(.add 1, d), (.sizeTest, d), (.flush .listener, d), (.flush .listener, d), (.flush .listener, d),
    (.flush .listener, d), (.flush .listener, d)]

/-- After a delivery without an acknowledgment the record is nowhere. -/
lemma oneBatch_dropped {d : Delivery} (hd : ¬ d.Acknowledged) :
    (runWith 1 (oneBatch d)).manager.consumed = [1] ∧ (runWith 1 (oneBatch d)).acknowledged = [] ∧
      inFlight (runWith 1 (oneBatch d)).manager = [] ∧
      (runWith 1 (oneBatch d)).manager.buffer = [] ∧ ¬ Kept (runWith 1 (oneBatch d)) := by
  have hack : (runWith 1 (oneBatch d)).acknowledged = [] := by
    simp [runWith, oneBatch, stepWith, Ingestion.start, hd]
  refine ⟨rfl, hack, rfl, rfl, fun h => ?_⟩
  rw [Kept, hack] at h
  have hlen : 0 = 1 := congrArg List.length h
  omega

end samples

/-- Whether the engine rejects the batch, stays silent or fails, the record is gone. -/
theorem failed_batch_dropped :
    rejected.response.toOption = some (some ⟨0, false, "Failed to open file"⟩) ∧
    timedOut.response.toOption = some none ∧
    broken.response.toOption =
      some (some ⟨0, false, "Ingestion target staging failed: UNAVAILABLE"⟩) ∧
    ∀ d ∈ [rejected, timedOut, broken], (runWith 1 (oneBatch d)).manager.consumed = [1] ∧
      (runWith 1 (oneBatch d)).acknowledged = [] ∧ inFlight (runWith 1 (oneBatch d)).manager = [] ∧
      (runWith 1 (oneBatch d)).manager.buffer = [] ∧ ¬ Kept (runWith 1 (oneBatch d)) := by
  refine ⟨rfl, rfl, rfl, fun d hd => oneBatch_dropped ?_⟩
  revert d
  decide

end Eureka.QueryService
