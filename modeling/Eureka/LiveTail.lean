import Mathlib
import Eureka.TailSubscription

/-! `RealTimeLogBroadcaster.broadcastLogs` and the two callers that ingest a batch after it. An
exception of one line for one subscriber leaves the loop over all of them. -/
namespace Eureka.Gateway
open WordBytes JavaText

/-- `longValue()` -/
def JsonNumber.longValue : JsonNumber → Word
  | .integer value => BitVec.ofInt 64 value
  | .double whole =>
    BitVec.ofInt 64 (max (-9223372036854775808) (min 9223372036854775807 whole))

/-- `readValue(line, Map.class)`: `none` where it throws, and a null map for the document null. -/
abbrev ReadMap := JString → Option (Option JsonObject)

structure ParsedLogEntry where
  rawLine : JString
  map : Option JsonObject

def fallbackMap : JsonObject := fun _ => none

def parseEntry (readMap : ReadMap) (line : JString) : ParsedLogEntry :=
  match readMap line with
  | some map => ⟨line, map⟩
  | none => ⟨line, some fallbackMap⟩

/-- `(String) map.getOrDefault(field, default)`; a present null stays null. -/
def castLabel (log : JsonObject) (field default : String) : Except JavaException (Option JString) :=
  match log field with
  | none => .ok (some (java default))
  | some .null => .ok none
  | some (.string value) => .ok (some value)
  | some _ => .error .classCast

structure Labels where
  job : Option JString
  level : Option JString
  host : Option JString

/-- They are collected and never sent. -/
def collectLabels (log : JsonObject) : Except JavaException Labels := do
  let job ← castLabel log "job" "app-logs"
  let level ← castLabel log "level" "INFO"
  let host ← castLabel log "host" "localhost"
  .ok ⟨job, level, host⟩

/-- In 64 bits, with the clock where the line has no time. -/
def nsTimestamp (currentTimeMillis : Word) (log : JsonObject) : Word :=
  match log.get "timestamp" with
  | some (.number n _) => n.longValue * 1000000
  | _ => currentTimeMillis * 1000000

/-- The timestamp and the line as they are sent; `none` for a line that does not match. -/
def entryValue (currentTimeMillis : Word) (sub : TailSubscription) (e : ParsedLogEntry) :
    Except JavaException (Option (Word × JString)) := do
  if ← sub.matches e.map e.rawLine then
    match e.map with
    | none => .error .nullPointer
    | some log => do
      let _ ← collectLabels log
      .ok (some (nsTimestamp currentTimeMillis log, e.rawLine))
  else .ok none

def collectValues (currentTimeMillis : Word) (sub : TailSubscription) :
    List ParsedLogEntry → Except JavaException (List (Word × JString))
  | [] => .ok []
  | e :: es => do
    let value ← entryValue currentTimeMillis sub e
    let values ← collectValues currentTimeMillis sub es
    .ok (value.toList ++ values)

/-- `sendFails` where `sendMessage` throws an `IOException`. -/
structure Session where
  id : ℕ
  isOpen : Bool
  sendFails : Bool
  deriving DecidableEq, Repr

/-- `sent` records the messages with their sessions. -/
structure Broadcaster where
  subscriptions : List (Session × TailSubscription)
  sent : List (ℕ × List (Word × JString))

def Broadcaster.remove (b : Broadcaster) (session : Session) : Broadcaster :=
  { b with subscriptions := b.subscriptions.filter fun s => s.1.id ≠ session.id }

/-- An `IOException` is reported and caught. -/
def Broadcaster.sendMessage (b : Broadcaster) (session : Session) (values : List (Word × JString)) :
    Broadcaster :=
  if values.isEmpty ∨ session.sendFails then b
  else { b with sent := b.sent ++ [(session.id, values)] }

/-- The loop over the subscriptions: its state and the exception that leaves it. -/
def broadcastLoop (currentTimeMillis : Word) (parsedEntries : List ParsedLogEntry) :
    List (Session × TailSubscription) → Broadcaster → Broadcaster × Option JavaException
  | [], b => (b, none)
  | (session, sub) :: rest, b =>
    if session.isOpen then
      match collectValues currentTimeMillis sub parsedEntries with
      | .error e => (b, some e)
      | .ok values =>
        broadcastLoop currentTimeMillis parsedEntries rest (b.sendMessage session values)
    else broadcastLoop currentTimeMillis parsedEntries rest (b.remove session)

def broadcastLogs (readMap : ReadMap) (currentTimeMillis : Word) (b : Broadcaster)
    (rawLogLines : List JString) : Broadcaster × Option JavaException :=
  if b.subscriptions.isEmpty ∨ rawLogLines.isEmpty then (b, none)
  else broadcastLoop currentTimeMillis (rawLogLines.map (parseEntry readMap)) b.subscriptions b

inductive PushResponse
  | noContent
  | internalServerError
  deriving DecidableEq, Repr

/-- A call: the batch that `ingestLogLines` receives, if it is reached, and how the call ends. -/
structure Delivery (R : Type) where
  ingested : Option (List JString)
  result : Except JavaException R

/-- `pushLogs` after the lines are read: only an `IOException` is caught. -/
def pushLogs (readMap : ReadMap) (currentTimeMillis : Word) (b : Broadcaster) (success : Bool)
    (logLinesToIngest : List JString) : Delivery PushResponse :=
  if logLinesToIngest.isEmpty then ⟨none, .ok .noContent⟩
  else
    match (broadcastLogs readMap currentTimeMillis b logLinesToIngest).2 with
    | some e => ⟨none, .error e⟩
    | none => ⟨some logLinesToIngest, .ok (if success then .noContent else .internalServerError)⟩

/-- `flushBuffer`: the buffer is empty before the broadcast, and every exception is caught. The
result is the buffer that stays. -/
def flushBuffer (readMap : ReadMap) (currentTimeMillis : Word) (b : Broadcaster)
    (buffer : List JString) : Delivery (List JString) :=
  if buffer.isEmpty then ⟨none, .ok buffer⟩
  else
    match (broadcastLogs readMap currentTimeMillis b buffer).2 with
    | some _ => ⟨none, .ok []⟩
    | none => ⟨some buffer, .ok []⟩

section safety
variable {readMap : ReadMap} {now : Word} {b : Broadcaster} {lines : List JString}

/-- The broadcast returns, and both callers ingest the whole batch. -/
structure NeverBlocks (readMap : ReadMap) (now : Word) (b : Broadcaster) (lines : List JString) :
    Prop where
  returns : (broadcastLogs readMap now b lines).2 = none
  pushed : lines ≠ [] → ∀ success, (pushLogs readMap now b success lines).ingested = some lines
  flushed : lines ≠ [] → (flushBuffer readMap now b lines).ingested = some lines

/-- Each label of the log is a string where it is present. -/
def TextLabels (log : JsonObject) : Prop :=
  ∀ field ∈ ["job", "level", "host"], ∀ value ∈ log.get field, ∃ text, value = .string text

/-- A line that a subscription can take: an object, or no JSON document, with text labels if it
is selected. -/
def EntrySafe (sub : TailSubscription) (e : ParsedLogEntry) : Prop :=
  ∃ log, e.map = some log ∧ (sub.matches (some log) e.rawLine = .ok true → TextLabels log)

def BatchSafe (readMap : ReadMap) (b : Broadcaster) (lines : List JString) : Prop :=
  ∀ s ∈ b.subscriptions, s.1.isOpen = true → ∀ line ∈ lines, EntrySafe s.2 (parseEntry readMap line)

/-- What a null map does: no field of it can be read. -/
lemma matches_null (sub : TailSubscription) (rawLine : JString) :
    sub.matches none rawLine = .error .nullPointer ∨ sub.matches none rawLine = .ok true := by
  obtain ⟨original, parsed, status, latency, lineFilter⟩ := sub
  cases status with
  | some n => exact Or.inl rfl
  | none =>
    cases latency with
    | some m => exact Or.inl rfl
    | none =>
      cases lineFilter with
      | none => exact Or.inr rfl
      | some text =>
        cases text with
        | nil => exact Or.inr rfl
        | cons c cs => exact Or.inl rfl

/-- A computation goes through when both its parts do. -/
lemma isOk_bind {ε α β : Type} {x : Except ε α} {f : α → Except ε β} {Q : Prop}
    (h : ∀ a, (f a).isOk = true ↔ Q) : (x >>= f).isOk = true ↔ x.isOk = true ∧ Q := by
  cases x with
  | error e => exact iff_of_false Bool.false_ne_true fun hok => Bool.false_ne_true hok.1
  | ok a => exact (h a).trans (and_iff_right rfl).symm

lemma castLabel_isOk (log : JsonObject) (field default : String) :
    (castLabel log field default).isOk = true ↔
      ∀ value ∈ log.get field, ∃ text, value = .string text := by
  rw [castLabel, JsonObject.get]
  cases log field with
  | none => simp [Except.isOk, Except.toBool]
  | some value => cases value <;> simp [Except.isOk, Except.toBool]

lemma collectLabels_isOk (log : JsonObject) : (collectLabels log).isOk = true ↔ TextLabels log := by
  have hhost : ∀ job level : Option JString,
      (do let host ← castLabel log "host" "localhost"
          .ok ⟨job, level, host⟩ : Except JavaException Labels).isOk = true ↔
        (castLabel log "host" "localhost").isOk = true := by
    intro job level
    rw [isOk_bind (Q := True) fun _ => iff_of_true rfl trivial, and_true]
  rw [collectLabels, isOk_bind fun job => isOk_bind fun level => hhost job level, castLabel_isOk,
    castLabel_isOk, castLabel_isOk]
  simp only [TextLabels, List.forall_mem_cons, List.not_mem_nil, false_imp_iff, implies_true, and_true]

lemma not_entrySafe_null (sub : TailSubscription) (rawLine : JString) :
    ¬ EntrySafe sub ⟨rawLine, none⟩ := by
  rintro ⟨log, hlog, -⟩
  exact Option.some_ne_none log hlog.symm

lemma entrySafe_some (sub : TailSubscription) (rawLine : JString) (log : JsonObject) :
    EntrySafe sub ⟨rawLine, some log⟩ ↔
      (sub.matches (some log) rawLine = .ok true → TextLabels log) := by
  constructor
  · rintro ⟨log', hlog, hlabels⟩
    obtain rfl := Option.some.inj hlog
    exact hlabels
  · exact fun hlabels => ⟨log, rfl, hlabels⟩

lemma entryValue_isOk (now : Word) (sub : TailSubscription) (e : ParsedLogEntry) :
    (entryValue now sub e).isOk = true ↔ EntrySafe sub e := by
  obtain ⟨rawLine, map⟩ := e
  cases map with
  | none =>
    -- whether or not the filter reads the null map, the labels do
    refine iff_of_false ?_ (not_entrySafe_null sub rawLine)
    rcases matches_null sub rawLine with h | h
    · rw [entryValue, h]
      exact Bool.false_ne_true
    · rw [entryValue, h]
      exact Bool.false_ne_true
  | some log =>
    rw [entrySafe_some, entryValue, sub.matches_some log rawLine]
    cases fieldAccepted log "status" sub.statusTarget isTarget &&
        fieldAccepted log "latency" sub.latencyTarget isAbove &&
        sub.lineFilter.all (contains (messageText log rawLine)) with
    | false => exact iff_of_true rfl fun h => absurd (Except.ok.inj h) Bool.false_ne_true
    | true =>
      have hlabels : (do
          let _ ← collectLabels log
          .ok (some (nsTimestamp now log, rawLine)) :
            Except JavaException (Option (Word × JString))).isOk = true ↔ TextLabels log := by
        rw [isOk_bind (Q := True) fun _ => iff_of_true rfl trivial, and_true, collectLabels_isOk]
      exact hlabels.trans ⟨fun h _ => h, fun h => h rfl⟩

lemma collectValues_isOk (now : Word) (sub : TailSubscription) (es : List ParsedLogEntry) :
    (collectValues now sub es).isOk = true ↔ ∀ e ∈ es, EntrySafe sub e := by
  induction es with
  | nil => exact iff_of_true rfl (List.forall_mem_nil _)
  | cons e es ih =>
    have hrest : ∀ value : Option (Word × JString),
        (do let values ← collectValues now sub es
            .ok (value.toList ++ values) : Except JavaException (List (Word × JString))).isOk = true ↔
          ∀ e ∈ es, EntrySafe sub e := by
      intro value
      rw [isOk_bind (Q := True) fun _ => iff_of_true rfl trivial, and_true, ih]
    rw [collectValues, isOk_bind hrest, entryValue_isOk, List.forall_mem_cons]

/-- The loop ends without an exception exactly when no open session has an unsafe line. -/
lemma broadcastLoop_returns (now : Word) (es : List ParsedLogEntry)
    (subs : List (Session × TailSubscription)) (b : Broadcaster) :
    (broadcastLoop now es subs b).2 = none ↔
      ∀ s ∈ subs, s.1.isOpen = true → ∀ e ∈ es, EntrySafe s.2 e := by
  induction subs generalizing b with
  | nil => exact iff_of_true rfl (List.forall_mem_nil _)
  | cons s subs ih =>
    obtain ⟨session, sub⟩ := s
    rw [List.forall_mem_cons, broadcastLoop]
    cases session.isOpen with
    | false =>
      rw [if_neg Bool.false_ne_true, ih]
      exact (and_iff_right fun h => absurd h Bool.false_ne_true).symm
    | true =>
      rw [if_pos rfl, forall_prop_of_true rfl, ← collectValues_isOk now sub es]
      cases collectValues now sub es with
      | error e => exact iff_of_false (Option.some_ne_none e) fun h => Bool.false_ne_true h.1
      | ok values => exact (ih _).trans (and_iff_right rfl).symm

lemma broadcastLogs_returns (readMap : ReadMap) (now : Word) (b : Broadcaster)
    (lines : List JString) :
    (broadcastLogs readMap now b lines).2 = none ↔ BatchSafe readMap b lines := by
  have hloop := broadcastLoop_returns now (lines.map (parseEntry readMap)) b.subscriptions b
  simp only [List.forall_mem_map] at hloop
  rw [broadcastLogs]
  split_ifs with hempty
  · refine iff_of_true rfl ?_
    intro s hs hopen line hline
    rcases hempty with h | h
    · rw [List.isEmpty_iff.mp h] at hs
      exact absurd hs List.not_mem_nil
    · rw [List.isEmpty_iff.mp h] at hline
      exact absurd hline List.not_mem_nil
  · exact hloop

/-- A live tail blocks the ingestion of a batch exactly when an open session has a null document
in it, or selects a line with a label that is not a string. -/
theorem never_blocks_iff (readMap : ReadMap) (now : Word) (b : Broadcaster) (lines : List JString) :
    NeverBlocks readMap now b lines ↔ BatchSafe readMap b lines := by
  rw [← broadcastLogs_returns readMap now b lines]
  constructor
  · exact fun h => h.returns
  · intro h
    refine ⟨h, fun hne success => ?_, fun hne => ?_⟩
    · rw [pushLogs, if_neg (mt List.isEmpty_iff.mp hne), h]
    · rw [flushBuffer, if_neg (mt List.isEmpty_iff.mp hne), h]

end safety

section samples

def levelLine : JString := java "\x7b\"level\":30\x7d"

/-- The line with a numeric level; any other line is no JSON. -/
def readLevel : ReadMap := fun line =>
  if line = levelLine then
    some (some fun field =>
      if field = "level" then some (.number (.integer 30) (java "30")) else none)
  else none

def everyLine : JString := java "\x7bjob=\"aarchgate-live-tail\"\x7d"

/-- One open session. Its query has neither numbers nor a line filter. -/
def tailingAll : Broadcaster := ⟨[(⟨1, true, false⟩, ⟨everyLine, [], none, none, none⟩)], []⟩

/-- A numeric level leaves the broadcast and the line is not ingested. -/
theorem numeric_level_blocks :
    TailSubscription.create everyLine = some ⟨everyLine, [], none, none, none⟩ ∧
      (pushLogs readLevel 0 tailingAll true [levelLine]).ingested = none ∧
      (flushBuffer readLevel 0 tailingAll [levelLine]).ingested = none ∧
      ¬ NeverBlocks readLevel 0 tailingAll [levelLine] := by
  have hpush : (pushLogs readLevel 0 tailingAll true [levelLine]).ingested = none := rfl
  refine ⟨by decide, hpush, rfl, fun h => ?_⟩
  have hfull := h.pushed (List.cons_ne_nil _ _) true
  exact Option.some_ne_none _ (hfull.symm.trans hpush)

end samples

end Eureka.Gateway
