import Mathlib
import Eureka.CommandLine

/-! One `StreamIngest` call between the gateway and the service: the client, the core, and what is
on the way between them. The connection keeps the order and loses nothing before it fails, and it
can fail at any time. Other calls change the one log meanwhile. -/
namespace Eureka.StreamProtocol
open WordBytes Apex Simdjson Storage Ingest TransitionRuns
open Service (StreamState LogIO readRequest)
open QueryService (StreamClient ClientPc ClientInv StreamEvent IngestResponse batches batchesFrom
  answer ingestResponse)

section model

/-- `requests` and `events` are on the way, `halfClosed` is the end of the requests, and
`transcoded` records what the core has made of each batch. -/
structure Exchange where
  client : StreamClient Bytes
  requests : List (List Bytes)
  halfClosed : Bool
  failed : Bool
  core : StreamState
  transcoded : List (List Bytes × Transcoded)
  finished : Bool
  events : List StreamEvent

/-- `client` is the next statement of the client, with the exception that it throws, `expire` the
end of its wait, and `otherCall` what another call makes of the log. -/
inductive ExchangeAction
  | client (exception : Option String)
  | expire
  | read (io : LogIO)
  | finish
  | deliver
  | fail
  | otherCall (wal : WalFile)

variable (parser : Parser) (slicer : BitSlicer) (dbPath : String) (lines : List Bytes)

def transcodeRequest (io : LogIO) (s : StreamState) (batch : List Bytes) : Transcoded :=
  let staged := appendRawBatch io.append s.ingester s.wal batch
  transcodeBatchNow parser slicer io.truncateOpens staged.2.1 staged.2.2 (some staged.1)

namespace Exchange

def start (wal : WalFile) : Exchange :=
  ⟨.start, [], false, false, ⟨.new, wal, "", 0⟩, [], false, []⟩

/-- A failed connection takes no more requests. -/
def transmit (x : Exchange) (batch : List Bytes) : Exchange :=
  if x.failed then x else { x with requests := x.requests ++ [batch] }

def proceed (x : Exchange) (exception : Option String) : Exchange :=
  let x' := { x with client := x.client.proceed lines exception }
  match x.client.pc, exception with
  | .sending (batch :: _), none => x'.transmit batch
  | .sending [], none => { x' with halfClosed := true }
  | _, _ => x'

def read (x : Exchange) (io : LogIO) : Exchange :=
  match x.requests with
  | [] => x
  | batch :: rest =>
    if x.finished then x
    else
      { x with
        requests := rest
        core := readRequest parser slicer x.core (⟨dbPath, batch⟩, io)
        transcoded := if batch = [] then x.transcoded
          else x.transcoded ++ [(batch, transcodeRequest parser slicer io x.core batch)] }

def response (s : StreamState) : IngestResponse :=
  ⟨BitVec.ofNat 64 s.totalIngested, true, ""⟩

/-- `Read` is false after the last request, and once the connection has failed. -/
def AtEnd (x : Exchange) : Prop :=
  x.failed = true ∨ x.requests = [] ∧ x.halfClosed = true

instance (x : Exchange) : Decidable x.AtEnd := inferInstanceAs (Decidable (_ ∨ _))

/-- The core leaves its loop and answers, if the connection is still there. -/
def finish (x : Exchange) : Exchange :=
  if x.finished = false ∧ x.AtEnd then
    { x with
      finished := true
      events := if x.failed then x.events else x.events ++ [.onNext (response x.core), .onCompleted] }
  else x

def deliver (x : Exchange) : Exchange :=
  match x.events with
  | [] => x
  | event :: rest => { x with client := x.client.deliver event, events := rest }

/-- What was on the way to the client is lost. A call that is complete for it cannot fail. -/
def fail (x : Exchange) : Exchange :=
  if x.failed ∨ x.finished ∧ x.events = [] then x
  else { x with failed := true, events := [.onError] }

def step (x : Exchange) : ExchangeAction → Exchange
  | .client exception => x.proceed lines exception
  | .expire => { x with client := x.client.step lines .expire }
  | .read io => x.read parser slicer dbPath io
  | .finish => x.finish
  | .deliver => x.deliver
  | .fail => x.fail
  | .otherCall wal => { x with core := { x.core with wal := wal } }

def run (wal : WalFile) (actions : List ExchangeAction) : Exchange :=
  actions.foldl (step parser slicer dbPath lines) (start wal)

/-- The batches that the core has transcoded. -/
def stored (x : Exchange) : List (List Bytes) := x.transcoded.map Prod.fst

end Exchange

/-- The response to all the lines. -/
def fullResponse (lines : List Bytes) : IngestResponse :=
  ⟨BitVec.ofNat 64 lines.length, true, ""⟩

/-- The core has transcoded the first batches, once each and in order, and each of them became a
row group. An accepted push is one whose lines all are. -/
structure Delivered (x : Exchange) : Prop where
  inOrder : x.stored <+: batches lines
  transcoded : ∀ b ∈ x.transcoded, ∃ a, Reachable parser slicer a ∧ Acknowledged parser a b.1 b.2
  accepted : ∀ path outcome, x.client.pc = .returned outcome →
    answer (ingestResponse (.ok path) outcome) = .ok .noContent →
      outcome = .ok (some (fullResponse lines)) ∧ x.stored.flatten = lines

end model

section safety
variable {parser : Parser} {slicer : BitSlicer} {dbPath : String} {lines : List Bytes}
  {x : Exchange}

/-- A response that can be told: it counts every line, and all batches are transcoded. -/
def Earned (lines : List Bytes) (x : Exchange) (v : IngestResponse) : Prop :=
  v = fullResponse lines ∧ x.stored = batches lines

/-- Where a response can be: on the way, in the array, or returned. -/
def Told (x : Exchange) (v : IngestResponse) : Prop :=
  .onNext v ∈ x.events ∨ x.client.result = some v ∨ x.client.pc = .returned (.ok (some v))

structure ExchangeInv (parser : Parser) (slicer : BitSlicer) (lines : List Bytes) (x : Exchange) :
    Prop where
  client : ClientInv lines x.client
  sent : x.client.sent <+: batches lines
  carried : x.stored ++ x.requests <+: x.client.sent
  lossless : x.failed = false → x.stored ++ x.requests = x.client.sent
  closed : x.halfClosed = true → x.client.sent = batches lines
  reachable : Reachable parser slicer x.core.ingester
  counted : x.core.totalIngested = x.stored.flatten.length
  transcoded : ∀ b ∈ x.transcoded, ∃ a, Reachable parser slicer a ∧ Acknowledged parser a b.1 b.2
  told : ∀ v, Told x v → Earned lines x v

lemma inv_start (lines : List Bytes) (wal : WalFile) :
    ExchangeInv parser slicer lines (Exchange.start wal) where
  client := QueryService.clientInv_start lines
  sent := List.nil_prefix
  carried := List.prefix_refl _
  lossless _ := rfl
  closed h := by cases h
  reachable := .new
  counted := rfl
  transcoded _ h := absurd h List.not_mem_nil
  told v h := by
    rcases h with h | h | h
    · exact absurd h List.not_mem_nil
    · cases h
    · cases h

lemma ExchangeInv.inOrder (h : ExchangeInv parser slicer lines x) : x.stored <+: batches lines :=
  (List.prefix_append _ _).trans (h.carried.trans h.sent)

/-- A change of the client that returns no new response. -/
lemma client_inv (h : ExchangeInv parser slicer lines x) {client : StreamClient Bytes}
    {requests : List (List Bytes)} {halfClosed : Bool} (hclient : ClientInv lines client)
    (hsent : client.sent <+: batches lines) (hcarried : x.stored ++ requests <+: client.sent)
    (hlossless : x.failed = false → x.stored ++ requests = client.sent)
    (hclosed : halfClosed = true → client.sent = batches lines)
    (hresult : client.result = x.client.result)
    (hreturned : ∀ v, client.pc = .returned (.ok (some v)) → Told x v) :
    ExchangeInv parser slicer lines
      { x with client := client, requests := requests, halfClosed := halfClosed } where
  client := hclient
  sent := hsent
  carried := hcarried
  lossless := hlossless
  closed := hclosed
  reachable := h.reachable
  counted := h.counted
  transcoded := h.transcoded
  told v hv := by
    apply h.told v
    rcases hv with hevent | hresult' | hpc
    · exact Or.inl hevent
    · exact Or.inr (Or.inl (hresult ▸ hresult'))
    · exact hreturned v hpc

/-- A statement of the client sends the next batch, ends the requests, or sends nothing. -/
lemma proceed_cases (lines : List Bytes) (x : Exchange) (exception : Option String) :
    (∃ batch rest, x.client.pc = .sending (batch :: rest) ∧
      (x.client.proceed lines exception).sent = x.client.sent ++ [batch] ∧
      x.proceed lines exception =
        { x with
          client := x.client.proceed lines exception
          requests := if x.failed then x.requests else x.requests ++ [batch] }) ∨
    (x.client.pc = .sending [] ∧ (x.client.proceed lines exception).sent = x.client.sent ∧
      x.proceed lines exception =
        { x with client := x.client.proceed lines exception, halfClosed := true }) ∨
    ((x.client.proceed lines exception).sent = x.client.sent ∧
      x.proceed lines exception = { x with client := x.client.proceed lines exception }) := by
  obtain ⟨⟨pc, result, latchOpen, sent, events, thrown⟩, requests, halfClosed, failed, core,
    transcoded, finished, responses⟩ := x
  cases pc with
  | sending rest =>
    cases exception with
    | some message => exact Or.inr (Or.inr (by cases rest <;> exact ⟨rfl, rfl⟩))
    | none =>
      cases rest with
      | nil => exact Or.inr (Or.inl ⟨rfl, rfl, rfl⟩)
      | cons batch rest => exact Or.inl ⟨batch, rest, rfl, rfl, by cases failed <;> rfl⟩
  | awaiting =>
    refine Or.inr (Or.inr ?_)
    cases exception with
    | some message => exact ⟨rfl, rfl⟩
    | none => cases latchOpen <;> exact ⟨rfl, rfl⟩
  | opening => exact Or.inr (Or.inr (by cases exception <;> exact ⟨rfl, rfl⟩))
  | reading => exact Or.inr (Or.inr (by cases exception <;> exact ⟨rfl, rfl⟩))
  | returned outcome => exact Or.inr (Or.inr (by cases exception <;> exact ⟨rfl, rfl⟩))

lemma proceed_result (lines : List Bytes) (s : StreamClient Bytes) (exception : Option String) :
    (s.proceed lines exception).result = s.result := by
  obtain ⟨pc, result, latchOpen, sent, events, thrown⟩ := s
  cases pc with
  | sending rest => cases rest <;> cases exception <;> rfl
  | awaiting => cases latchOpen <;> cases exception <;> rfl
  | opening => cases exception <;> rfl
  | reading => cases exception <;> rfl
  | returned outcome => cases exception <;> rfl

/-- What the client returns is in the array, or it had returned it. -/
lemma proceed_returned {s : StreamClient Bytes} {exception : Option String} {v : IngestResponse}
    (h : (s.proceed lines exception).pc = .returned (.ok (some v))) :
    s.result = some v ∨ s.pc = .returned (.ok (some v)) := by
  obtain ⟨pc, result, latchOpen, sent, events, thrown⟩ := s
  cases pc with
  | sending rest => cases rest <;> cases exception <;> cases h
  | awaiting => cases latchOpen <;> cases exception <;> cases h
  | opening => cases exception <;> cases h
  | reading => cases exception <;> exact Or.inl (Except.ok.inj (ClientPc.returned.inj h))
  | returned outcome => cases exception <;> exact Or.inr h

/-- The batches that the client has sent and the one that it sends next. -/
lemma sent_next (h : ExchangeInv parser slicer lines x) {rest : List (List Bytes)}
    (hpc : x.client.pc = .sending rest) : x.client.sent ++ rest = batches lines := by
  have hrunning : x.client.pc.isReturned = false := by rw [hpc]; rfl
  have hrequests := h.client.requests (h.client.running hrunning).1
  rwa [hpc] at hrequests

lemma proceed_inv (h : ExchangeInv parser slicer lines x) (exception : Option String) :
    ExchangeInv parser slicer lines (x.proceed lines exception) := by
  have hclient := QueryService.proceed_inv h.client exception
  have hresult := proceed_result lines x.client exception
  have hreturned : ∀ v, (x.client.proceed lines exception).pc = .returned (.ok (some v)) → Told x v :=
    fun v hv => Or.inr (proceed_returned hv)
  rcases proceed_cases lines x exception with
    ⟨batch, rest, hpc, hsent, hstep⟩ | ⟨hpc, hsent, hstep⟩ | ⟨hsent, hstep⟩
  · have hnext := sent_next h hpc
    have hlossless : x.failed = false → x.stored ++ (x.requests ++ [batch]) = x.client.sent ++ [batch] := by
      intro hup
      rw [← List.append_assoc, h.lossless hup]
    rw [hstep]
    apply client_inv h hclient _ _ _ _ hresult hreturned
    · rw [hsent, ← hnext]
      exact ⟨rest, List.append_assoc _ _ _⟩
    · rw [hsent]
      cases hup : x.failed with
      | true => exact h.carried.trans (List.prefix_append _ _)
      | false =>
        rw [if_neg Bool.false_ne_true, hlossless hup]
    · intro hup
      rw [hsent, hup]
      exact hlossless hup
    · intro hhalf
      rw [← h.closed hhalf] at hnext
      exact absurd (List.append_right_eq_self.mp hnext) (List.cons_ne_nil _ _)
  · have hall := sent_next h hpc
    rw [List.append_nil] at hall
    rw [hstep]
    exact client_inv h hclient (hsent ▸ h.sent) (hsent ▸ h.carried) (fun hup => hsent ▸ h.lossless hup)
      (fun _ => hsent.trans hall) hresult hreturned
  · rw [hstep]
    exact client_inv h hclient (hsent ▸ h.sent) (hsent ▸ h.carried) (fun hup => hsent ▸ h.lossless hup)
      (fun hhalf => hsent.trans (h.closed hhalf)) hresult hreturned

/-- The timeout lets a client that waits go on. -/
lemma expire_cases (lines : List Bytes) (s : StreamClient Bytes) :
    s.step lines .expire = s ∨
      s.pc = .awaiting ∧ s.step lines .expire = { s with pc := .reading } := by
  obtain ⟨pc, result, latchOpen, sent, events, thrown⟩ := s
  cases pc with
  | awaiting => exact Or.inr ⟨rfl, rfl⟩
  | opening => exact Or.inl rfl
  | sending rest => exact Or.inl rfl
  | reading => exact Or.inl rfl
  | returned outcome => exact Or.inl rfl

lemma expire_inv (h : ExchangeInv parser slicer lines x) :
    ExchangeInv parser slicer lines { x with client := x.client.step lines .expire } := by
  have hclient := QueryService.step_inv x.client .expire h.client
  rcases expire_cases lines x.client with hstep | ⟨-, hstep⟩
  · rw [hstep]
    exact h
  · rw [hstep] at hclient ⊢
    exact client_inv h hclient h.sent h.carried h.lossless h.closed rfl (fun v hv => by cases hv)

/-- A batch of the client leaves a row group and is counted. -/
lemma readRequest_transcoded (dbPath : String) {s : StreamState} (hs : Reachable parser slicer s.ingester) (io : LogIO)
    {batch : List Bytes} (hne : batch ≠ []) (hlen : batch.length ≤ 1000) :
    Reachable parser slicer (readRequest parser slicer s (⟨dbPath, batch⟩, io)).ingester ∧
      (readRequest parser slicer s (⟨dbPath, batch⟩, io)).totalIngested =
        s.totalIngested + batch.length ∧
      ∃ a, Reachable parser slicer a ∧
        Acknowledged parser a batch (transcodeRequest parser slicer io s batch) := by
  have hstaged := Reachable.append io.append s.wal batch hs
  rw [readRequest, if_neg hne]
  refine ⟨.transcode _ _ _ hstaged, rfl, _, hstaged, ?_⟩
  exact acknowledged_of_length_le _ hstaged _ (hlen.trans (by norm_num))

/-- The core takes the first of the batches that are on the way. -/
lemma read_inv (h : ExchangeInv parser slicer lines x) (io : LogIO) :
    ExchangeInv parser slicer lines (x.read parser slicer dbPath io) := by
  rw [Exchange.read]
  cases hrequests : x.requests with
  | nil => exact h
  | cons batch rest =>
    have hcarried := h.carried
    rw [hrequests] at hcarried
    have hmem : batch ∈ batches lines :=
      (hcarried.trans h.sent).subset (List.mem_append_right _ List.mem_cons_self)
    obtain ⟨hne, hlen⟩ := CommandLine.length_of_mem_batchesFrom hmem
    obtain ⟨hreachable, hcount, hack⟩ := readRequest_transcoded dbPath h.reachable io hne hlen
    split_ifs with hfinished
    · exact h
    · have hstored : (x.transcoded ++ [(batch, transcodeRequest parser slicer io x.core batch)]).map
          Prod.fst = x.stored ++ [batch] := by
        rw [List.map_append]
        rfl
      have hmoved : x.stored ++ [batch] ++ rest = x.stored ++ x.requests := by
        rw [hrequests, List.append_assoc]
        rfl
      simp only [if_neg hne]
      refine ⟨h.client, h.sent, ?_, fun hup => ?_, h.closed, hreachable, ?_, ?_, fun v hv => ?_⟩
      · rw [Exchange.stored, hstored, hmoved]
        exact h.carried
      · rw [Exchange.stored, hstored, hmoved]
        exact h.lossless hup
      · rw [Exchange.stored, hstored, hcount, h.counted, List.flatten_concat, List.length_append]
      · intro b hb
        rcases List.mem_append.mp hb with hb | hb
        · exact h.transcoded b hb
        · obtain rfl := List.mem_singleton.mp hb
          exact hack
      · -- no response is told before the last batch is read
        obtain ⟨-, hall⟩ := h.told v hv
        have hlonger := (hcarried.trans h.sent).length_le
        rw [hall, List.length_append, List.length_cons] at hlonger
        omega

lemma flatten_batches (lines : List Bytes) : (batches lines).flatten = lines :=
  QueryService.flatten_batchesFrom le_rfl

/-- At the end of the requests all batches are transcoded and all lines counted. -/
lemma earned_at_end (h : ExchangeInv parser slicer lines x) (hup : x.failed = false) (hend : x.AtEnd) :
    Earned lines x (Exchange.response x.core) := by
  obtain ⟨hempty, hhalf⟩ := hend.resolve_left (by rw [hup]; exact Bool.false_ne_true)
  have hall : x.stored = batches lines := by
    rw [← h.closed hhalf, ← h.lossless hup, hempty, List.append_nil]
  have hcount : x.core.totalIngested = lines.length := by
    rw [h.counted, hall, flatten_batches]
  exact ⟨by rw [Exchange.response, fullResponse, hcount], hall⟩

lemma finish_inv (h : ExchangeInv parser slicer lines x) :
    ExchangeInv parser slicer lines x.finish := by
  rw [Exchange.finish]
  split_ifs with hend hfailed
  · exact ⟨h.client, h.sent, h.carried, h.lossless, h.closed, h.reachable, h.counted, h.transcoded,
      h.told⟩
  · have hearned := earned_at_end h (Bool.not_eq_true _ ▸ hfailed) hend.2
    refine ⟨h.client, h.sent, h.carried, h.lossless, h.closed, h.reachable, h.counted, h.transcoded,
      fun v hv => ?_⟩
    rcases hv with hevent | hv
    · rcases List.mem_append.mp hevent with hold | hnew
      · exact h.told v (Or.inl hold)
      · rcases List.mem_cons.mp hnew with hnext | hlast
        · obtain rfl := StreamEvent.onNext.inj hnext
          exact hearned
        · cases List.mem_singleton.mp hlast
    · exact h.told v (Or.inr hv)
  · exact h

lemma deliver_inv (h : ExchangeInv parser slicer lines x) :
    ExchangeInv parser slicer lines x.deliver := by
  rw [Exchange.deliver]
  cases hevents : x.events with
  | nil => exact h
  | cons event rest =>
    refine ⟨QueryService.deliver_inv h.client event, h.sent, h.carried, h.lossless, h.closed,
      h.reachable, h.counted, h.transcoded, fun v hv => ?_⟩
    apply h.told v
    rcases hv with hevent | hresult | hpc
    · exact Or.inl (hevents ▸ List.mem_cons_of_mem _ hevent)
    · have hobserve : QueryService.observe x.client.result event = some v := hresult
      cases event with
      | onNext value =>
        obtain rfl := Option.some.inj hobserve
        exact Or.inl (hevents ▸ List.mem_cons_self)
      | onError => exact Or.inr (Or.inl hobserve)
      | onCompleted => exact Or.inr (Or.inl hobserve)
    · exact Or.inr (Or.inr hpc)

lemma fail_inv (h : ExchangeInv parser slicer lines x) :
    ExchangeInv parser slicer lines x.fail := by
  rw [Exchange.fail]
  split_ifs
  · exact h
  · refine ⟨h.client, h.sent, h.carried, fun hup => ?_, h.closed, h.reachable, h.counted, h.transcoded,
      fun v hv => ?_⟩
    · cases hup
    · rcases hv with hevent | hv
      · cases List.mem_singleton.mp hevent
      · exact h.told v (Or.inr hv)

lemma step_inv (x : Exchange) (action : ExchangeAction) (h : ExchangeInv parser slicer lines x) :
    ExchangeInv parser slicer lines (x.step parser slicer dbPath lines action) := by
  cases action with
  | client exception => exact proceed_inv h exception
  | expire => exact expire_inv h
  | read io => exact read_inv h io
  | finish => exact finish_inv h
  | deliver => exact deliver_inv h
  | fail => exact fail_inv h
  | otherCall wal =>
    exact ⟨h.client, h.sent, h.carried, h.lossless, h.closed, h.reachable, h.counted, h.transcoded,
      h.told⟩

theorem run_inv (parser : Parser) (slicer : BitSlicer) (dbPath : String) (lines : List Bytes)
    (wal : WalFile) (actions : List ExchangeAction) :
    ExchangeInv parser slicer lines (Exchange.run parser slicer dbPath lines wal actions) := by
  apply foldl_invariant
    (fun x action (h : ExchangeInv parser slicer lines x) (_ : True) => step_inv x action h)
  · exact inv_start lines wal
  · exact fun _ _ => trivial

/-- An answer of 204 comes from a response. -/
lemma accepted_response {path : String} {outcome : Except String (Option IngestResponse)}
    (h : answer (ingestResponse (.ok path) outcome) = .ok .noContent) :
    ∃ v, outcome = .ok (some v) := by
  cases outcome with
  | error message => cases h
  | ok response =>
    cases response with
    | none => cases h
    | some v => exact ⟨v, rfl⟩

/-- In every run, whatever fails and whatever other calls do to the log, the core transcodes a
prefix of the batches in order and once each, and an accepted push has all its lines transcoded. -/
theorem stream_delivers (parser : Parser) (slicer : BitSlicer) (dbPath : String) (lines : List Bytes)
    (wal : WalFile) (actions : List ExchangeAction) :
    Delivered parser slicer lines (Exchange.run parser slicer dbPath lines wal actions) := by
  have h := run_inv parser slicer dbPath lines wal actions
  refine ⟨h.inOrder, h.transcoded, fun path outcome hpc haccepted => ?_⟩
  obtain ⟨v, rfl⟩ := accepted_response haccepted
  obtain ⟨rfl, hall⟩ := h.told v (Or.inr (Or.inr hpc))
  exact ⟨rfl, by rw [hall, flatten_batches]⟩

end safety

section completion
variable {parser : Parser} {slicer : BitSlicer} {dbPath : String} {lines : List Bytes}
  {x : Exchange}

/-- No exception, no timeout and no failure of the connection. -/
def Undisturbed : ExchangeAction → Prop
  | .client exception => exception = none
  | .expire => False
  | .fail => False
  | _ => True

/-- The client has ended the requests. -/
def hasEnded : ClientPc Bytes → Bool
  | .opening => false
  | .sending _ => false
  | _ => true

/-- How far the answer of the core has come. -/
inductive Answering (lines : List Bytes) (x : Exchange) : Prop
  | working (finished : x.finished = false) (events : x.events = [])
      (latch : x.client.latchOpen = false)
  | answered (finished : x.finished = true)
      (events : x.events = [.onNext (fullResponse lines), .onCompleted])
      (latch : x.client.latchOpen = false)
  | received (finished : x.finished = true) (events : x.events = [.onCompleted])
      (result : x.client.result = some (fullResponse lines)) (latch : x.client.latchOpen = false)
  | complete (finished : x.finished = true) (events : x.events = [])
      (result : x.client.result = some (fullResponse lines)) (latch : x.client.latchOpen = true)

/-- What holds as long as nothing disturbs the call. -/
structure SmoothInv (lines : List Bytes) (x : Exchange) : Prop where
  up : x.failed = false
  ended : hasEnded x.client.pc = true → x.halfClosed = true
  reading : x.client.pc = .reading → x.client.latchOpen = true
  returned : ∀ outcome, x.client.pc = .returned outcome → outcome = .ok (some (fullResponse lines))
  answering : Answering lines x

lemma smooth_start (lines : List Bytes) (wal : WalFile) : SmoothInv lines (Exchange.start wal) where
  up := rfl
  ended h := by cases h
  reading h := by cases h
  returned _ h := by cases h
  answering := .working rfl rfl rfl

/-- An open latch means that the whole answer has been received. -/
lemma Answering.result (h : Answering lines x) (hlatch : x.client.latchOpen = true) :
    x.client.result = some (fullResponse lines) := by
  cases h with
  | working _ _ latch => exact absurd (latch.symm.trans hlatch) Bool.false_ne_true
  | answered _ _ latch => exact absurd (latch.symm.trans hlatch) Bool.false_ne_true
  | received _ _ result _ => exact result
  | complete _ _ result _ => exact result

/-- A change that the answer does not depend on. -/
lemma Answering.congr {x' : Exchange} (h : Answering lines x) (hfinished : x'.finished = x.finished)
    (hevents : x'.events = x.events) (hresult : x'.client.result = x.client.result)
    (hlatch : x'.client.latchOpen = x.client.latchOpen) : Answering lines x' := by
  cases h with
  | working finished events latch =>
    exact .working (hfinished.trans finished) (hevents.trans events) (hlatch.trans latch)
  | answered finished events latch =>
    exact .answered (hfinished.trans finished) (hevents.trans events) (hlatch.trans latch)
  | received finished events result latch =>
    exact .received (hfinished.trans finished) (hevents.trans events) (hresult.trans result)
      (hlatch.trans latch)
  | complete finished events result latch =>
    exact .complete (hfinished.trans finished) (hevents.trans events) (hresult.trans result)
      (hlatch.trans latch)

lemma proceed_smooth (h : SmoothInv lines x) : SmoothInv lines (x.proceed lines none) := by
  obtain ⟨hup, hended, hreading, hreturned, hanswering⟩ := h
  have hresult := hanswering.result
  obtain ⟨⟨pc, result, latchOpen, sent, events, thrown⟩, requests, halfClosed, failed, core,
    transcoded, finished, responses⟩ := x
  obtain rfl : failed = false := hup
  cases pc with
  | opening =>
    refine ⟨rfl, fun h => ?_, fun h => ?_, fun _ h => ?_, hanswering.congr rfl rfl rfl rfl⟩ <;> cases h
  | sending rest =>
    cases rest with
    | nil =>
      refine ⟨rfl, fun _ => rfl, fun h => ?_, fun _ h => ?_, hanswering.congr rfl rfl rfl rfl⟩ <;>
        cases h
    | cons batch rest =>
      refine ⟨rfl, fun h => ?_, fun h => ?_, fun _ h => ?_, hanswering.congr rfl rfl rfl rfl⟩ <;>
        cases h
  | awaiting =>
    cases latchOpen with
    | false => exact ⟨rfl, hended, hreading, hreturned, hanswering⟩
    | true =>
      refine ⟨rfl, fun _ => hended rfl, fun _ => rfl, fun _ h => ?_,
        hanswering.congr rfl rfl rfl rfl⟩
      cases h
  | reading =>
    refine ⟨rfl, fun _ => hended rfl, fun h => ?_, fun outcome h => ?_,
      hanswering.congr rfl rfl rfl rfl⟩
    · cases h
    · obtain rfl := ClientPc.returned.inj h
      exact congrArg Except.ok (hresult (hreading rfl))
  | returned outcome => exact ⟨rfl, hended, hreading, hreturned, hanswering⟩

lemma read_smooth (h : SmoothInv lines x) (io : LogIO) :
    SmoothInv lines (x.read parser slicer dbPath io) := by
  rw [Exchange.read]
  cases x.requests with
  | nil => exact h
  | cons batch rest =>
    by_cases hfinished : x.finished = true
    · simp only [if_pos hfinished]
      exact h
    · simp only [if_neg hfinished]
      exact ⟨h.up, h.ended, h.reading, h.returned, h.answering.congr rfl rfl rfl rfl⟩

lemma finish_smooth (hinv : ExchangeInv parser slicer lines x) (h : SmoothInv lines x) :
    SmoothInv lines x.finish := by
  rw [Exchange.finish]
  split_ifs with hend hfailed
  · exact absurd (h.up.symm.trans hfailed) Bool.false_ne_true
  · refine ⟨h.up, h.ended, h.reading, h.returned, ?_⟩
    cases h.answering with
    | working finished events latch =>
      refine .answered rfl ?_ latch
      rw [events, (earned_at_end hinv h.up hend.2).1]
      rfl
    | answered finished _ _ => exact absurd (hend.1.symm.trans finished) Bool.false_ne_true
    | received finished _ _ _ => exact absurd (hend.1.symm.trans finished) Bool.false_ne_true
    | complete finished _ _ _ => exact absurd (hend.1.symm.trans finished) Bool.false_ne_true
  · exact h

lemma deliver_smooth (h : SmoothInv lines x) : SmoothInv lines x.deliver := by
  rw [Exchange.deliver]
  cases hevents : x.events with
  | nil => exact h
  | cons event rest =>
    refine ⟨h.up, h.ended, fun hpc => ?_, h.returned, ?_⟩
    · exact Bool.or_eq_true_iff.mpr (Or.inl (h.reading hpc))
    · cases h.answering with
      | working _ events _ => cases hevents.symm.trans events
      | complete _ events _ _ => cases hevents.symm.trans events
      | answered finished events latch =>
        obtain ⟨rfl, rfl⟩ := List.cons.inj (hevents.symm.trans events)
        exact .received finished rfl rfl (Bool.or_eq_false_iff.mpr ⟨latch, rfl⟩)
      | received finished events result latch =>
        obtain ⟨rfl, rfl⟩ := List.cons.inj (hevents.symm.trans events)
        exact .complete finished rfl result (Bool.or_true _)

lemma step_smooth (hinv : ExchangeInv parser slicer lines x) (h : SmoothInv lines x)
    {action : ExchangeAction} (haction : Undisturbed action) :
    SmoothInv lines (x.step parser slicer dbPath lines action) := by
  cases action with
  | client exception =>
    obtain rfl : exception = none := haction
    exact proceed_smooth h
  | expire => cases haction
  | read io => exact read_smooth h io
  | finish => exact finish_smooth hinv h
  | deliver => exact deliver_smooth h
  | fail => cases haction
  | otherCall wal =>
    exact ⟨h.up, h.ended, h.reading, h.returned, h.answering.congr rfl rfl rfl rfl⟩

/-- The statements, the reads and the deliveries that are left. -/
def pcLeft (lines : List Bytes) : ClientPc Bytes → ℕ
  | .opening => 2 * (batches lines).length + 4
  | .sending rest => 2 * rest.length + 3
  | .awaiting => 2
  | .reading => 1
  | .returned _ => 0

def Exchange.left (lines : List Bytes) (x : Exchange) : ℕ :=
  pcLeft lines x.client.pc + x.requests.length + (if x.finished then 0 else 3) + x.events.length

/-- A step of the client, or of the requests alone. -/
lemma left_lt {x' : Exchange} (hfinished : x'.finished = x.finished) (hevents : x'.events = x.events)
    (h : pcLeft lines x'.client.pc + x'.requests.length < pcLeft lines x.client.pc + x.requests.length) :
    x'.left lines < x.left lines := by
  rw [Exchange.left, Exchange.left, hfinished, hevents]
  omega

/-- A statement that does not wait. -/
lemma proceed_left (hpc : x.client.pc.isReturned = false)
    (hlatch : x.client.pc = .awaiting → x.client.latchOpen = true) :
    (x.proceed lines none).left lines < x.left lines := by
  obtain ⟨⟨pc, result, latchOpen, sent, events, thrown⟩, requests, halfClosed, failed, core,
    transcoded, finished, responses⟩ := x
  cases pc with
  | opening => exact left_lt rfl rfl (Nat.add_lt_add_right (Nat.lt_succ_self _) _)
  | sending rest =>
    cases rest with
    | nil => exact left_lt rfl rfl (Nat.add_lt_add_right (Nat.lt_succ_self _) _)
    | cons batch rest =>
      cases failed with
      | false =>
        refine left_lt rfl rfl ?_
        change 2 * rest.length + 3 + (requests ++ [batch]).length <
          2 * (rest.length + 1) + 3 + requests.length
        rw [List.length_append, List.length_singleton]
        omega
      | true =>
        refine left_lt rfl rfl ?_
        change 2 * rest.length + 3 + requests.length < 2 * (rest.length + 1) + 3 + requests.length
        omega
  | awaiting =>
    obtain rfl : latchOpen = true := hlatch rfl
    exact left_lt rfl rfl (Nat.add_lt_add_right (Nat.lt_succ_self _) _)
  | reading => exact left_lt rfl rfl (Nat.add_lt_add_right (Nat.lt_succ_self _) _)
  | returned outcome => cases hpc

/-- While a client waits, the core can read or answer, the answer can arrive, or the wait ends. -/
lemma progress_awaiting (h : SmoothInv lines x) (hpc : x.client.pc = .awaiting) :
    ∃ action, Undisturbed action ∧
      (x.step parser slicer dbPath lines action).left lines < x.left lines := by
  have hhalf := h.ended (by rw [hpc]; rfl)
  cases h.answering with
  | working finished events latch =>
    cases hrequests : x.requests with
    | nil =>
      have hend : x.AtEnd := Or.inr ⟨hrequests, hhalf⟩
      refine ⟨.finish, trivial, ?_⟩
      rw [Exchange.step, Exchange.finish, if_pos ⟨finished, hend⟩, h.up, events, Exchange.left,
        Exchange.left, finished, events]
      simp
    | cons batch rest =>
      refine ⟨.read ⟨.openFails, false⟩, trivial, ?_⟩
      rw [Exchange.step, Exchange.read, hrequests]
      simp only [finished, Bool.false_eq_true, if_false]
      exact left_lt finished.symm rfl (by rw [hrequests]; exact Nat.lt_succ_self _)
  | answered finished events latch =>
    refine ⟨.deliver, trivial, ?_⟩
    rw [Exchange.step, Exchange.deliver, events, Exchange.left, Exchange.left, events]
    exact Nat.lt_succ_self _
  | received finished events result latch =>
    refine ⟨.deliver, trivial, ?_⟩
    rw [Exchange.step, Exchange.deliver, events, Exchange.left, Exchange.left, events]
    exact Nat.lt_succ_self _
  | complete finished events result latch =>
    exact ⟨.client none, rfl, proceed_left (by rw [hpc]; rfl) fun _ => latch⟩

/-- A client that has not returned can go on, or what it waits for can. -/
lemma progress (h : SmoothInv lines x) (hpc : x.client.pc.isReturned = false) :
    ∃ action, Undisturbed action ∧
      (x.step parser slicer dbPath lines action).left lines < x.left lines := by
  by_cases hawaiting : x.client.pc = .awaiting
  · exact progress_awaiting h hawaiting
  · exact ⟨.client none, rfl, proceed_left hpc fun hat => absurd hat hawaiting⟩

/-- What holds in a run without disturbance. -/
def Undisrupted (parser : Parser) (slicer : BitSlicer) (lines : List Bytes) (x : Exchange) : Prop :=
  ExchangeInv parser slicer lines x ∧ SmoothInv lines x

lemma undisrupted_step (dbPath : String) (x : Exchange) (action : ExchangeAction)
    (h : Undisrupted parser slicer lines x) (haction : Undisturbed action) :
    Undisrupted parser slicer lines (x.step parser slicer dbPath lines action) :=
  ⟨step_inv x action h.1, step_smooth h.1 h.2 haction⟩

/-- A call that nothing has disturbed can always be completed, and then the client returns the
count of all its lines and all of them are transcoded. -/
theorem stream_completes (parser : Parser) (slicer : BitSlicer) (dbPath : String) (lines : List Bytes)
    (wal : WalFile) {actions : List ExchangeAction} (hactions : ∀ a ∈ actions, Undisturbed a) :
    ∃ more : List ExchangeAction, (∀ a ∈ more, Undisturbed a) ∧
      (Exchange.run parser slicer dbPath lines wal (actions ++ more)).client.pc =
        .returned (.ok (some (fullResponse lines))) ∧
      (Exchange.run parser slicer dbPath lines wal (actions ++ more)).stored.flatten = lines := by
  have hstep : ∀ x action, Undisrupted parser slicer lines x → Undisturbed action →
      Undisrupted parser slicer lines (x.step parser slicer dbPath lines action) :=
    undisrupted_step dbPath
  have hrun := foldl_invariant hstep ⟨inv_start lines wal, smooth_start lines wal⟩ hactions
  have hprogress : ∀ x, Undisrupted parser slicer lines x → ¬ x.client.pc.isReturned = true →
      ∃ action, Undisturbed action ∧
        (x.step parser slicer dbPath lines action).left lines < x.left lines :=
    fun x h hpc => progress h.2 (Bool.not_eq_true _ ▸ hpc)
  obtain ⟨more, hmore, hreturned⟩ := exists_calls hstep hprogress hrun
  obtain ⟨hend, hanswer⟩ := foldl_invariant hstep hrun hmore
  refine ⟨more, hmore, ?_⟩
  rw [Exchange.run, List.foldl_append]
  cases hpc : (more.foldl (Exchange.step parser slicer dbPath lines)
    (actions.foldl (Exchange.step parser slicer dbPath lines) (Exchange.start wal))).client.pc with
  | returned outcome =>
    obtain rfl := hanswer.returned outcome hpc
    obtain ⟨-, hall⟩ := hend.told _ (Or.inr (Or.inr hpc))
    exact ⟨rfl, by rw [hall, flatten_batches]⟩
  | opening => cases hpc ▸ hreturned
  | sending rest => cases hpc ▸ hreturned
  | awaiting => cases hpc ▸ hreturned
  | reading => cases hpc ▸ hreturned

/-- One line that is sent while another call truncates the log. -/
theorem stream_completes_sample :
    ∃ more : List ExchangeAction, (∀ a ∈ more, Undisturbed a) ∧
      (Exchange.run (.ofStream []) .reference "new.agb" [[0x61#8]] none
        ([.client none, .client none, .otherCall none] ++ more)).client.pc =
          .returned (.ok (some (fullResponse [[0x61#8]]))) ∧
      (Exchange.run (.ofStream []) .reference "new.agb" [[0x61#8]] none
        ([.client none, .client none, .otherCall none] ++ more)).stored.flatten = [[0x61#8]] := by
  refine stream_completes _ _ _ _ _ fun a ha => ?_
  rcases List.mem_cons.mp ha with rfl | ha
  · rfl
  · rcases List.mem_cons.mp ha with rfl | ha
    · rfl
    · obtain rfl := List.mem_singleton.mp ha
      trivial

end completion

end Eureka.StreamProtocol
