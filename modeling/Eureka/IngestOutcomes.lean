import Mathlib
import Eureka.KafkaDelivery
import Eureka.LiveTail

/-! `AarchGateGrpcClient.streamIngest` step by step. The observer writes a one-element array and
opens a latch; the client sends its batches, waits for the latch or the timeout, and reads the
array. What it reads goes to `ingestLogLines` and to the answer of `pushLogs`. -/
namespace Eureka.QueryService
open TransitionRuns
open Gateway (JavaException PushResponse pushLogs broadcastLogs ReadMap Broadcaster)

section client
variable {L : Type*}

/-- Where the client is. `sending` holds the batches that are still to be sent. -/
inductive ClientPc (L : Type*)
  | opening
  | sending (rest : List (List L))
  | awaiting
  | reading
  | returned (outcome : Except String (Option IngestResponse))

/-- `sent`, `events` and `thrown` record the requests, the calls of the observer before the array
is read, and the exception that leaves the method. -/
structure StreamClient (L : Type*) where
  pc : ClientPc L
  result : Option IngestResponse
  latchOpen : Bool
  sent : List (List L)
  events : List StreamEvent
  thrown : Option String

/-- `proceed` is the next statement of the client, with the exception that it throws; `expire` is
the end of the 30 seconds. -/
inductive ClientAction
  | proceed (exception : Option String)
  | expire
  | deliver (event : StreamEvent)

def batchSize : ℕ := 1000

/-- The sublists of the loop. -/
def batchesFrom : ℕ → List L → List (List L)
  | 0, _ => []
  | n + 1, lines =>
    if lines = [] then [] else lines.take batchSize :: batchesFrom n (lines.drop batchSize)

def batches (logLines : List L) : List (List L) := batchesFrom logLines.length logLines

def StreamClient.start : StreamClient L := ⟨.opening, none, false, [], [], none⟩

def StreamClient.fail (s : StreamClient L) (message : String) : StreamClient L :=
  { s with pc := .returned (.error message), thrown := some message }

def StreamEvent.countsDown : StreamEvent → Bool
  | .onNext _ => false
  | .onError => true
  | .onCompleted => true

def ClientPc.isReturned : ClientPc L → Bool
  | .returned _ => true
  | _ => false

def StreamClient.deliver (s : StreamClient L) (event : StreamEvent) : StreamClient L :=
  { s with
    result := observe s.result event
    latchOpen := s.latchOpen || event.countsDown
    events := if s.pc.isReturned then s.events else s.events ++ [event] }

/-- The result of the wait is not looked at, and reading the array cannot throw. -/
def StreamClient.proceed (logLines : List L) (s : StreamClient L) (exception : Option String) :
    StreamClient L :=
  match s.pc, exception with
  | .opening, none => { s with pc := .sending (batches logLines) }
  | .sending (batch :: rest), none => { s with pc := .sending rest, sent := s.sent ++ [batch] }
  | .sending [], none => { s with pc := .awaiting }
  | .awaiting, none => if s.latchOpen then { s with pc := .reading } else s
  | .reading, _ => { s with pc := .returned (.ok s.result) }
  | .returned _, _ => s
  | _, some message => s.fail message

/-- One step. The timeout counts only for a client that waits. -/
def StreamClient.step (logLines : List L) (s : StreamClient L) : ClientAction → StreamClient L
  | .proceed exception => s.proceed logLines exception
  | .expire => match s.pc with
    | .awaiting => { s with pc := .reading }
    | _ => s
  | .deliver event => s.deliver event

def runClient (logLines : List L) (actions : List ClientAction) : StreamClient L :=
  actions.foldl (.step logLines) .start

/-- What the call meets, as one value. -/
def StreamClient.call (s : StreamClient L) : StreamCall := ⟨s.thrown, s.events⟩

/-- The requests that are sent and those that are still to be sent. -/
def ClientPc.rest (logLines : List L) : ClientPc L → List (List L)
  | .opening => batches logLines
  | .sending rest => rest
  | _ => []

/-- Before the end the array holds the last response; at the end the outcome is that of the call.
Nothing is sent twice or left out before the wait. -/
structure ClientInv (logLines : List L) (s : StreamClient L) : Prop where
  running : s.pc.isReturned = false →
    s.thrown = none ∧ s.result = s.events.foldl observe none
  returned : ∀ outcome, s.pc = .returned outcome → outcome = streamIngest s.call
  requests : s.thrown = none → s.sent ++ s.pc.rest logLines = batches logLines

lemma clientInv_start (logLines : List L) : ClientInv logLines .start where
  running _ := ⟨rfl, rfl⟩
  returned _ h := by cases h
  requests _ := rfl

variable {logLines : List L} {s : StreamClient L}

lemma deliver_inv (h : ClientInv logLines s) (event : StreamEvent) :
    ClientInv logLines (s.deliver event) := by
  refine ⟨fun hrunning => ?_, fun outcome hpc => ?_, h.requests⟩
  · have hrunning : s.pc.isReturned = false := hrunning
    obtain ⟨hthrown, hresult⟩ := h.running hrunning
    refine ⟨hthrown, ?_⟩
    simp only [StreamClient.deliver, hrunning, Bool.false_eq_true, if_false, List.foldl_append,
      List.foldl_cons, List.foldl_nil, hresult]
  · have hpc : s.pc = .returned outcome := hpc
    have hreturned : s.pc.isReturned = true := by rw [hpc]; rfl
    have hcall : (s.deliver event).call = s.call := by
      simp only [StreamClient.call, StreamClient.deliver, if_pos hreturned]
    rw [hcall]
    exact h.returned outcome hpc

/-- A step to another statement that is not the end. -/
lemma goto_inv {pc : ClientPc L} {sent : List (List L)} (h : ClientInv logLines s)
    (hfrom : s.pc.isReturned = false) (hto : pc.isReturned = false)
    (hrest : sent ++ pc.rest logLines = s.sent ++ s.pc.rest logLines) :
    ClientInv logLines { s with pc := pc, sent := sent } := by
  refine ⟨fun _ => h.running hfrom, fun outcome hpc => ?_, fun hthrown => ?_⟩
  · have hpc : pc = .returned outcome := hpc
    rw [hpc] at hto
    cases hto
  · exact hrest.trans (h.requests hthrown)

lemma fail_inv (logLines : List L) (s : StreamClient L) (message : String) :
    ClientInv logLines (s.fail message) where
  running h := by cases h
  returned outcome h := by cases h; rfl
  requests h := by cases h

lemma read_inv (h : ClientInv logLines s) (hpc : s.pc = .reading) :
    ClientInv logLines { s with pc := .returned (.ok s.result) } := by
  have hrunning : s.pc.isReturned = false := by rw [hpc]; rfl
  obtain ⟨hthrown, hresult⟩ := h.running hrunning
  refine ⟨fun hfalse => ?_, fun outcome hreturned => ?_, fun _ => ?_⟩
  · cases hfalse
  · obtain rfl := ClientPc.returned.inj hreturned
    simp only [StreamClient.call, streamIngest, hthrown, hresult]
  · have hrequests := h.requests hthrown
    rwa [hpc] at hrequests

lemma proceed_inv (h : ClientInv logLines s) (exception : Option String) :
    ClientInv logLines (s.proceed logLines exception) := by
  have hfail := fail_inv logLines s
  unfold StreamClient.proceed
  cases hpc : s.pc with
  | opening =>
    cases exception with
    | none => exact goto_inv h (by rw [hpc]; rfl) rfl (by rw [hpc]; rfl)
    | some message => exact hfail message
  | sending rest =>
    cases exception with
    | none =>
      cases rest with
      | nil => exact goto_inv h (by rw [hpc]; rfl) rfl (by rw [hpc]; rfl)
      | cons batch rest =>
        refine goto_inv h (by rw [hpc]; rfl) rfl ?_
        rw [hpc, List.append_assoc]
        rfl
    | some message => cases rest <;> exact hfail message
  | awaiting =>
    cases exception with
    | none =>
      simp only
      split_ifs
      · exact goto_inv h (by rw [hpc]; rfl) rfl (by rw [hpc]; rfl)
      · exact h
    | some message => exact hfail message
  | reading => exact read_inv h hpc
  | returned outcome => exact h

lemma step_inv (s : StreamClient L) (action : ClientAction) (h : ClientInv logLines s) :
    ClientInv logLines (s.step logLines action) := by
  cases action with
  | proceed exception => exact proceed_inv h exception
  | expire =>
    simp only [StreamClient.step]
    split
    · rename_i hpc
      exact goto_inv h (by rw [hpc]; rfl) rfl (by rw [hpc]; rfl)
    · exact h
  | deliver event => exact deliver_inv h event

theorem runClient_inv (logLines : List L) (actions : List ClientAction) :
    ClientInv logLines (runClient logLines actions) := by
  have hstep : ∀ s action, ClientInv logLines s → True → ClientInv logLines (s.step logLines action) :=
    fun s action h _ => step_inv s action h
  have hok : ∀ action ∈ actions, True := fun _ _ => trivial
  have hrun := foldl_take_invariant hstep (clientInv_start logLines) hok le_rfl
  rwa [List.take_length] at hrun

lemma flatten_batchesFrom {n : ℕ} (h : logLines.length ≤ n) :
    (batchesFrom n logLines).flatten = logLines := by
  induction n generalizing logLines with
  | zero => exact (List.eq_nil_of_length_eq_zero (Nat.le_zero.mp h)).symm
  | succ n ih =>
    rw [batchesFrom]
    split_ifs with hnil
    · exact hnil.symm
    · have hdrop : (logLines.drop batchSize).length ≤ n := by
        rw [List.length_drop, batchSize]
        omega
      rw [List.flatten_cons, ih hdrop, List.take_append_drop]

/-- A client that no exception stopped has sent every line once, in order, when it waits. -/
theorem sent_flatten (logLines : List L) (actions : List ClientAction)
    (hthrown : (runClient logLines actions).thrown = none)
    (hrest : (runClient logLines actions).pc.rest logLines = []) :
    (runClient logLines actions).sent.flatten = logLines := by
  have hrequests := (runClient_inv logLines actions).requests hthrown
  rw [hrest, List.append_nil] at hrequests
  rw [hrequests, batches, flatten_batchesFrom le_rfl]

/-- The statements that are left when the wait runs into the timeout. -/
def ClientPc.remaining (logLines : List L) : ClientPc L → ℕ
  | .opening => (batches logLines).length + 3
  | .sending rest => rest.length + 2
  | .awaiting => 1
  | .reading => 1
  | .returned _ => 0

/-- Time for the client alone: a wait expires and a statement runs. -/
def alone : List ClientAction := [.expire, .proceed none]

lemma alone_remaining (logLines : List L) (s : StreamClient L) (h : s.pc.isReturned = false) :
    (alone.foldl (.step logLines) s).pc.remaining logLines < s.pc.remaining logLines := by
  obtain ⟨pc, result, latchOpen, sent, events, thrown⟩ := s
  cases pc with
  | opening => exact Nat.lt_succ_self _
  | sending rest => cases rest <;> exact Nat.lt_succ_self _
  | awaiting => exact Nat.zero_lt_one
  | reading => exact Nat.zero_lt_one
  | returned outcome => cases h

/-- Whatever the observer was told, the call returns: nothing else has to happen any more. -/
theorem client_returns (logLines : List L) (s : StreamClient L) :
    ∃ n, ((List.replicate n alone).flatten.foldl (.step logLines) s).pc.isReturned = true := by
  induction hn : s.pc.remaining logLines using Nat.strong_induction_on generalizing s with
  | h n ih =>
    by_cases hreturned : s.pc.isReturned = true
    · exact ⟨0, hreturned⟩
    · have hless := alone_remaining logLines s (Bool.not_eq_true _ ▸ hreturned)
      obtain ⟨m, hm⟩ := ih _ (hn ▸ hless) _ rfl
      refine ⟨m + 1, ?_⟩
      rwa [List.replicate_succ, List.flatten_cons, List.foldl_append]

end client

section outcomes
variable {L : Type*}

/-- `ingestLogLines` after the client is done: every exception becomes a response. -/
def ingestResponse (resolveAndFetch : Except String String)
    (outcome : Except String (Option IngestResponse)) : Option IngestResponse :=
  match resolveAndFetch.bind fun _ => outcome with
  | .ok response => response
  | .error message => some ⟨0, false, "Ingestion target staging failed: " ++ message⟩

lemma ingestResponse_call (resolveAndFetch : Except String String) (call : StreamCall) :
    ingestResponse resolveAndFetch (streamIngest call) =
      ingestLogLines resolveAndFetch fun _ => call := rfl

/-- What `pushLogs` answers; it calls a method of the response. -/
def answer : Option IngestResponse → Except JavaException PushResponse
  | none => .error .nullPointer
  | some response => .ok (if response.success then .noContent else .internalServerError)

/-- The answer to a batch that the broadcast lets through. -/
lemma pushLogs_answer {readMap : ReadMap} {now : WordBytes.Word} {b : Broadcaster}
    {lines : List JavaText.JString} (hlines : lines ≠ [])
    (hbroadcast : (broadcastLogs readMap now b lines).2 = none) (response : IngestResponse) :
    (pushLogs readMap now b response.success lines).result = answer (some response) := by
  rw [pushLogs, if_neg (mt List.isEmpty_iff.mp hlines), hbroadcast, answer]

/-- A response that is there, a success only after a success response and the end of the stream,
and an answer. -/
structure Reported (response : Option IngestResponse) (events : List StreamEvent) : Prop where
  notNull : response ≠ none
  earned : ∀ r ∈ response, r.success = true →
    (∃ v, .onNext v ∈ events ∧ v.success = true) ∧ .onCompleted ∈ events
  answered : ∃ a, answer response = .ok a

def StreamEvent.response : StreamEvent → Option IngestResponse
  | .onNext value => some value
  | _ => none

/-- The responses among the calls of the observer. -/
def responses (events : List StreamEvent) : List IngestResponse := events.filterMap (·.response)

/-- An exception was thrown, or a response came before the array was read and a success came with
the end of the stream. -/
def ToldInTime (resolveAndFetch : Except String String) (call : StreamCall) : Prop :=
  (∃ message, resolveAndFetch = .error message) ∨ (∃ message, call.thrown = some message) ∨
    ∃ v, (responses call.events).getLast? = some v ∧ (v.success = true → .onCompleted ∈ call.events)

lemma foldl_observe (events : List StreamEvent) (result : Option IngestResponse) :
    events.foldl observe result = (responses events).getLast?.or result := by
  induction events generalizing result with
  | nil => rfl
  | cons event events ih =>
    rw [List.foldl_cons, ih]
    cases event with
    | onNext value =>
      have hcons : responses (.onNext value :: events) = value :: responses events := rfl
      rw [hcons, List.getLast?_cons]
      cases (responses events).getLast? <;> rfl
    | onError => rfl
    | onCompleted => rfl

lemma mem_of_mem_responses {events : List StreamEvent} {v : IngestResponse}
    (h : v ∈ responses events) : .onNext v ∈ events := by
  obtain ⟨event, hevent, hresponse⟩ := List.mem_filterMap.mp h
  cases event with
  | onNext value =>
    rw [← Option.some.inj hresponse]
    exact hevent
  | onError => cases hresponse
  | onCompleted => cases hresponse

lemma reported_failure (message : String) (events : List StreamEvent) :
    Reported (some ⟨0, false, message⟩) events := by
  refine ⟨Option.some_ne_none _, fun r hr hsuccess => ?_, ⟨_, rfl⟩⟩
  rw [← Option.some.inj hr] at hsuccess
  cases hsuccess

/-- The response of the array. -/
lemma reported_last_iff (events : List StreamEvent) :
    Reported (events.foldl observe none) events ↔
      ∃ v, (responses events).getLast? = some v ∧ (v.success = true → .onCompleted ∈ events) := by
  rw [foldl_observe, Option.or_none]
  cases hlast : (responses events).getLast? with
  | none => exact iff_of_false (fun h => h.notNull rfl) fun ⟨v, hv, _⟩ => Option.some_ne_none v hv.symm
  | some v =>
    constructor
    · exact fun h => ⟨v, rfl, fun hsuccess => (h.earned v rfl hsuccess).2⟩
    · rintro ⟨v', hv', hcompleted⟩
      obtain rfl := Option.some.inj hv'
      refine ⟨Option.some_ne_none _, fun r hr hsuccess => ?_, ⟨_, rfl⟩⟩
      obtain rfl := Option.some.inj hr
      have hmem := mem_of_mem_responses (List.mem_of_getLast? hlast)
      exact ⟨⟨_, hmem, hsuccess⟩, hcompleted hsuccess⟩

lemma reported_call_iff (resolveAndFetch : Except String String) (call : StreamCall) :
    Reported (ingestResponse resolveAndFetch (streamIngest call)) call.events ↔
      ToldInTime resolveAndFetch call := by
  obtain ⟨thrown, events⟩ := call
  rw [ToldInTime]
  cases resolveAndFetch with
  | error message => exact iff_of_true (reported_failure _ events) (Or.inl ⟨message, rfl⟩)
  | ok path =>
    cases thrown with
    | some message =>
      exact iff_of_true (reported_failure _ events) (Or.inr (Or.inl ⟨message, rfl⟩))
    | none =>
      have hstaged : ¬ ∃ message, (Except.ok path : Except String String) = .error message := by
        rintro ⟨message, h⟩
        cases h
      have hthrown : ¬ ∃ message, (none : Option String) = some message := by
        rintro ⟨message, h⟩
        cases h
      rw [or_iff_right hstaged, or_iff_right hthrown]
      exact reported_last_iff events

/-- An outcome is reported exactly when an exception ends the call, or a response came before the
array is read and, if the last one is a success, the end of the stream came too. -/
theorem reported_iff (resolveAndFetch : Except String String) {logLines : List L}
    {actions : List ClientAction} {outcome : Except String (Option IngestResponse)}
    (h : (runClient logLines actions).pc = .returned outcome) :
    Reported (ingestResponse resolveAndFetch outcome) (runClient logLines actions).events ↔
      ToldInTime resolveAndFetch (runClient logLines actions).call := by
  rw [(runClient_inv logLines actions).returned outcome h]
  exact reported_call_iff resolveAndFetch (runClient logLines actions).call

end outcomes

section samples

/-- One batch, told of an error while the client waits. -/
def failedStream : List ClientAction :=
  [.proceed none, .proceed none, .proceed none, .deliver .onError, .proceed none, .proceed none]

/-- One batch and a success response before the end of the stream. -/
def ingestedStream : List ClientAction :=
  [.proceed none, .proceed none, .proceed none, .deliver (.onNext ⟨1, true, ""⟩),
    .deliver .onCompleted, .proceed none, .proceed none]

theorem reported_iff_sample :
    Reported (ingestResponse (.ok "logs.agb") (.ok (some ⟨1, true, ""⟩)))
        (runClient ["line"] ingestedStream).events ↔
      ToldInTime (.ok "logs.agb") (runClient ["line"] ingestedStream).call :=
  reported_iff (.ok "logs.agb") rfl

/-- A stream that fails is a null, and the answer dereferences it. -/
theorem failed_stream_unreported :
    (runClient ["line"] failedStream).pc = .returned (.ok none) ∧
      ingestResponse (.ok "logs.agb") (.ok none) = none ∧
      answer (ingestResponse (.ok "logs.agb") (.ok none)) = .error .nullPointer ∧
      ¬ Reported (ingestResponse (.ok "logs.agb") (.ok none))
        (runClient ["line"] failedStream).events :=
  ⟨rfl, rfl, rfl, fun h => h.notNull rfl⟩

end samples

end Eureka.QueryService
