import Mathlib
import Eureka.LiveTail
import Eureka.QueryExecution

/-! The events that `getMatchingEvents` returns: those of the JSON file beside an index, or fifty
generated ones where the file has none. The generator does not ask `matches`. -/
namespace Eureka.Gateway
open WordBytes RegexSearch JavaText

/-- `matches` on a parsed line. On a null map it can only skip both tests. -/
def EventFilter.matchesMap (f : EventFilter) (log : Option JsonObject) : Except JavaException Bool :=
  match log with
  | some log => f.matches log
  | none => if f.statusTarget = none ∧ f.latencyTarget = none then .ok true else .error .nullPointer

/-- What an event takes from the random numbers and from the clock. The drawn level is left out:
it is always overwritten. -/
structure EventDraws where
  isOk : Bool
  isServerError : Bool
  above : Fin 200
  below : ℕ → ℕ
  below_lt : ∀ bound, 0 < bound → below bound < bound
  free : Fin 450
  message : Fin 8
  resource : Fin 100
  seconds : Fin 60
  trace : Fin 900000
  node : Fin 5
  currentTimeMillis : Word

/-- The value of an `int` sum. -/
def wrapInt (v : ℤ) : ℤ := (BitVec.ofInt 32 v).toInt

def drawnStatus (f : EventFilter) (d : EventDraws) : ℕ :=
  match f.statusTarget with
  | some target => target
  | none => if d.isOk then 200 else if d.isServerError then 500 else 404

/-- `none` where `nextInt` throws, at the bound 0. -/
def drawnLatency (f : EventFilter) (d : EventDraws) : Option ℤ :=
  match f.latencyTarget with
  | some target =>
    if f.latencyOp = java ">" ∨ f.latencyOp = java ">=" then
      some (wrapInt (target + d.above.val + 1))
    else if f.latencyOp = java "<" ∨ f.latencyOp = java "<=" then
      if target = 0 then none else some (max 1 (target - d.below target))
    else some target
  | none => some (d.free.val + 10)

def levelText (status : ℕ) : JString :=
  if 500 ≤ status then java "ERROR" else if 400 ≤ status then java "WARNING" else java "INFO"

def messages : List String :=
  ["API call completed successfully",
    "Connection timed out to auth service",
    "Database transaction rolled back due to lock conflict",
    "User profile updated successfully",
    "Invalid authorization token provided",
    "Rate limit exceeded for client IP",
    "Failed to write metadata index to S3",
    "Worker thread pool exhausted"]

def eventMessage (status : ℕ) (d : EventDraws) : JString :=
  let msg := java (messages.getD d.message "")
  if status = 500 then java "Internal Server Error: " ++ msg
  else if status = 404 then
    java "Resource not found at endpoint: /api/v1/resource/" ++ number d.resource
  else msg

/-- `String.valueOf` of an integer. -/
def integerText (v : ℤ) : JString := if v < 0 then java "-" ++ number v.natAbs else number v.natAbs

def integerValue (v : ℤ) : JsonValue := .number (.integer v) (integerText v)

/-- The `i`-th generated event. -/
def generateEvent (f : EventFilter) (filePath : JString) (d : EventDraws) (i : ℕ) :
    Option JsonObject :=
  (drawnLatency f d).map fun latency field =>
    let status := drawnStatus f d
    if field = "timestamp" then
      some (integerValue (d.currentTimeMillis - BitVec.ofNat 64 (i * 1000 * d.seconds)).toInt)
    else if field = "level" then some (.string (levelText status))
    else if field = "status" then some (integerValue status)
    else if field = "latency" then some (integerValue latency)
    else if field = "message" then some (.string (eventMessage status d))
    else if field = "trace_id" then some (.string (java "trace-" ++ number (100000 + d.trace)))
    else if field = "host" then some (.string (java "prod-web-node-" ++ number d.node))
    else if field = "source" then some (.string (filePath.rtakeWhile (· ≠ 0x2f#16)))
    else none

/-- The fallback after its first events. -/
def generateEvents (f : EventFilter) (filePath : JString) (draws : ℕ → EventDraws) :
    ℕ → Option (List (Option JsonObject))
  | 0 => some []
  | n + 1 => (generateEvents f filePath draws n).bind fun events =>
      (generateEvent f filePath (draws n) n).map fun log => events ++ [some log]

/-- An exception of one line is ignored. -/
def scanLines (readMap : ReadMap) (f : EventFilter) :
    List JString → List (Option JsonObject) → List (Option JsonObject)
  | [], events => events
  | line :: lines, events =>
    match readMap line with
    | none => scanLines readMap f lines events
    | some log =>
      if f.matchesMap log = .ok true then
        if 100 ≤ events.length + 1 then events ++ [log]
        else scanLines readMap f lines (events ++ [log])
      else scanLines readMap f lines events

/-- `String.replace`, with the number of characters that still belong to the last occurrence. -/
def replaceFrom (target replacement : JString) : ℕ → JString → JString
  | _, [] => []
  | skip + 1, _ :: cs => replaceFrom target replacement skip cs
  | 0, c :: cs =>
    if target.isPrefixOf (c :: cs) then
      replacement ++ replaceFrom target replacement (target.length - 1) cs
    else c :: replaceFrom target replacement 0 cs

/-- The files beside the indexes. `lines` are the lines of an existing file until it ends or reading
it breaks off; `resolve` leaves an absolute path as it is. -/
structure Workspace where
  validPath : JString → Bool
  resolve : JString → JString
  lines : JString → Option (List JString)

/-- `none` where `Paths.get` throws; no lines where there is no file. -/
def jsonLines (w : Workspace) (filePath : JString) : Option (List JString) :=
  if contains filePath (java "benchmark_native_scan.agb") ∨
      contains filePath (java "s3___eureka-logs_benchmark_native_scan.agb") then
    some ((w.lines (w.resolve (java "benchmark_logs.json"))).getD [])
  else
    let jsonName := replaceFrom (java ".agb") (java ".json") 0 filePath
    if w.validPath jsonName then some ((w.lines (w.resolve jsonName)).getD []) else none

/-- `none` where an exception leaves the method. -/
def getMatchingEvents (w : Workspace) (readMap : ReadMap) (draws : ℕ → EventDraws)
    (query filePath : JString) : Option (List (Option JsonObject)) :=
  (eventFilter query).bind fun f =>
    (jsonLines w filePath).bind fun lines =>
      let events := scanLines readMap f (lines.take 20000) []
      if events.isEmpty then generateEvents f filePath draws 50 else some events

section generated
variable {f : EventFilter} {d : EventDraws} {log : JsonObject} {v : ℤ}

lemma wrapInt_of_le (hlow : -2147483648 ≤ v) (hhigh : v ≤ 2147483647) : wrapInt v = v := by
  rw [wrapInt, BitVec.toInt_ofInt_eq_self] <;> omega

lemma wrapInt_of_lt (hlow : 2147483647 < v) (hhigh : v ≤ 4294967295) :
    wrapInt v = v - 4294967296 := by
  rw [wrapInt, BitVec.toInt_ofInt, Int.bmod]
  split_ifs <;> omega

lemma eventTarget_le {pattern : Regex JChar} {defaultOp query : JString}
    {found : JString × Option ℕ} (h : eventTarget pattern defaultOp query = some found) :
    ∀ n ∈ found.2, n ≤ 2147483647 := by
  rw [eventTarget] at h
  split at h
  · obtain ⟨n, hn, rfl⟩ := Option.map_eq_some_iff.mp h
    intro m hm
    rw [← Option.some.inj hm]
    exact parseInt_le hn
  · rw [← Option.some.inj h]
    exact fun n hn => absurd hn.symm (Option.some_ne_none n)

/-- The targets of a query are ints. -/
lemma eventFilter_le {query : JString} (h : eventFilter query = some f) :
    (∀ n ∈ f.statusTarget, n ≤ 2147483647) ∧ ∀ m ∈ f.latencyTarget, m ≤ 2147483647 := by
  obtain ⟨status, hstatus, h⟩ := Option.bind_eq_some_iff.mp h
  obtain ⟨latency, hlatency, rfl⟩ := Option.map_eq_some_iff.mp h
  exact ⟨eventTarget_le hstatus, eventTarget_le hlatency⟩

/-- The generator writes the status target whatever the operator. -/
def StatusFits (f : EventFilter) : Prop := f.statusTarget ≠ none → f.statusOp ≠ java "!="

/-- The sum stays an int, and the difference is below the target. -/
def LatencyFits (f : EventFilter) (d : EventDraws) : Prop :=
  ∀ target ∈ f.latencyTarget,
    (f.latencyOp = java ">" ∨ f.latencyOp = java ">=" →
      target + d.above.val + 1 ≤ 2147483647) ∧
    (f.latencyOp = java "<" → d.below target ≠ 0)

lemma matches_eq_true_iff (f : EventFilter) (log : JsonObject) : f.matches log = .ok true ↔
    testField log "status" f.statusTarget (statusAccepts f.statusOp) = .ok true ∧
      testField log "latency" f.latencyTarget (latencyAccepts f.latencyOp) = .ok true := by
  rw [EventFilter.matches]
  cases testField log "status" f.statusTarget (statusAccepts f.statusOp) with
  | error e => exact iff_of_false (fun h => by cases h) fun h => by cases h.1
  | ok accepted =>
    cases accepted with
    | false => exact iff_of_false (fun h => by cases h) fun h => by cases h.1
    | true => exact (and_iff_right rfl).symm

lemma testField_integer {field : String} (h : log field = some (integerValue v)) (t : ℕ)
    (accepts : ℤ → ℕ → Bool) :
    testField log field (some t) accepts = .ok (accepts (wrapInt v) t) := by
  simp only [testField, JsonObject.get, h, integerValue]
  rfl

lemma statusAccepts_self (op : JString) (t : ℕ) :
    statusAccepts op t t = true ↔ op ≠ java "!=" := by
  rw [statusAccepts]
  split_ifs with heq hne
  · refine iff_of_true (decide_eq_true rfl) ?_
    rcases heq with rfl | rfl <;> decide
  · exact iff_of_false (by simp) (not_not_intro hne)
  · exact iff_of_true rfl hne

lemma statusTest_iff (hle : ∀ n ∈ f.statusTarget, n ≤ 2147483647)
    (h : log "status" = some (integerValue (drawnStatus f d))) :
    testField log "status" f.statusTarget (statusAccepts f.statusOp) = .ok true ↔ StatusFits f := by
  rw [StatusFits]
  cases htarget : f.statusTarget with
  | none => exact iff_of_true rfl fun hne => absurd rfl hne
  | some t =>
    have ht : t ≤ 2147483647 := hle t htarget
    have hdrawn : drawnStatus f d = t := by rw [drawnStatus, htarget]
    rw [hdrawn] at h
    rw [testField_integer h, wrapInt_of_le (by omega) (by omega), Except.ok.injEq,
      statusAccepts_self]
    exact ⟨fun hop _ => hop, fun h => h (Option.some_ne_none t)⟩

/-- Where the generator writes the target itself, the target is accepted. -/
lemma latencyAccepts_self {op : JString} (t : ℕ) (hgt : ¬ (op = java ">" ∨ op = java ">="))
    (hlt : ¬ (op = java "<" ∨ op = java "<=")) : latencyAccepts op t t = true := by
  rw [not_or] at hgt hlt
  rw [latencyAccepts, if_neg hgt.1, if_neg hgt.2, if_neg hlt.1, if_neg hlt.2]
  split_ifs
  · exact decide_eq_true rfl
  · rfl

lemma latencyAccepts_above {op : JString} {t : ℕ} (h : op = java ">" ∨ op = java ">=")
    (hv : v ≠ t) : latencyAccepts op v t = true ↔ (t : ℤ) < v := by
  rcases h with rfl | rfl
  · rw [latencyAccepts, if_pos rfl, decide_eq_true_eq]
  · rw [latencyAccepts, if_neg (by decide), if_pos rfl, decide_eq_true_eq]
    omega

lemma latencyAccepts_lt (v : ℤ) (t : ℕ) : latencyAccepts (java "<") v t = true ↔ v < t := by
  rw [latencyAccepts, if_neg (by decide), if_neg (by decide), if_pos rfl, decide_eq_true_eq]

lemma latencyAccepts_le (v : ℤ) (t : ℕ) : latencyAccepts (java "<=") v t = true ↔ v ≤ t := by
  rw [latencyAccepts, if_neg (by decide), if_neg (by decide), if_neg (by decide), if_pos rfl,
    decide_eq_true_eq]

/-- The sum is above the target unless it leaves the int range, where it turns negative. -/
lemma above_accepted_iff {op : JString} {t r : ℕ} (h : op = java ">" ∨ op = java ">=")
    (ht : t ≤ 2147483647) (hr : r < 200) :
    latencyAccepts op (wrapInt (wrapInt (t + r + 1))) t = true ↔ t + r + 1 ≤ 2147483647 := by
  by_cases hsum : t + r + 1 ≤ 2147483647
  · rw [wrapInt_of_le (v := t + r + 1) (by omega) (by omega), wrapInt_of_le (by omega) (by omega),
      latencyAccepts_above h (by omega)]
    omega
  · rw [wrapInt_of_lt (v := t + r + 1) (by omega) (by omega), wrapInt_of_le (by omega) (by omega),
      latencyAccepts_above h (by omega)]
    omega

/-- The difference is the target itself at the draw 0. -/
lemma below_accepted_iff {op : JString} {t r : ℕ} (h : op = java "<" ∨ op = java "<=")
    (ht : t ≤ 2147483647) (hr : r < t) :
    latencyAccepts op (wrapInt (max 1 (t - r))) t = true ↔ (op = java "<" → r ≠ 0) := by
  have hmax : max 1 ((t : ℤ) - r) = t - r := max_eq_right (by omega)
  rw [hmax, wrapInt_of_le (by omega) (by omega)]
  rcases h with rfl | rfl
  · rw [latencyAccepts_lt, forall_prop_of_true rfl]
    omega
  · have hne : java "<=" ≠ java "<" := by decide
    rw [latencyAccepts_le]
    exact iff_of_true (by omega) fun heq => absurd heq hne

lemma latencyTest_iff (hle : ∀ m ∈ f.latencyTarget, m ≤ 2147483647)
    (hv : drawnLatency f d = some v) (h : log "latency" = some (integerValue v)) :
    testField log "latency" f.latencyTarget (latencyAccepts f.latencyOp) = .ok true ↔
      LatencyFits f d := by
  rw [LatencyFits]
  cases htarget : f.latencyTarget with
  | none => exact iff_of_true rfl fun t ht => absurd ht.symm (Option.some_ne_none t)
  | some t =>
    have ht : t ≤ 2147483647 := hle t htarget
    simp only [drawnLatency, htarget] at hv
    rw [testField_integer h, Except.ok.injEq]
    simp only [Option.mem_def, Option.some.injEq, forall_eq']
    split_ifs at hv with hgt hlt hzero
    · have hne : f.latencyOp ≠ java "<" := by rcases hgt with hop | hop <;> rw [hop] <;> decide
      rw [← Option.some.inj hv, above_accepted_iff hgt ht d.above.isLt, forall_prop_of_true hgt]
      exact (and_iff_left fun hop => absurd hop hne).symm
    · rw [← Option.some.inj hv,
        below_accepted_iff hlt ht (d.below_lt t (Nat.pos_of_ne_zero hzero))]
      exact (and_iff_right fun hop => absurd hop hgt).symm
    · rw [← Option.some.inj hv, wrapInt_of_le (by omega) (by omega)]
      refine iff_of_true (latencyAccepts_self t hgt hlt) ⟨fun hop => absurd hop hgt, fun hop => ?_⟩
      exact absurd (Or.inl hop) hlt

/-- A generated event and what the draws must be for it to be accepted. -/
lemma generateEvent_accepted {query filePath : JString} {i : ℕ} (hf : eventFilter query = some f)
    (h : generateEvent f filePath d i = some log) :
    f.matchesMap (some log) = .ok true ↔ StatusFits f ∧ LatencyFits f d := by
  obtain ⟨hs, hl⟩ := eventFilter_le hf
  obtain ⟨latency, hlatency, rfl⟩ := Option.map_eq_some_iff.mp h
  rw [EventFilter.matchesMap, matches_eq_true_iff]
  exact and_congr (statusTest_iff (d := d) hs rfl) (latencyTest_iff hl hlatency rfl)

/-- The loop: the events so far are accepted when all their draws fit. -/
lemma generateEvents_accepted {query filePath : JString} {draws : ℕ → EventDraws}
    (hf : eventFilter query = some f) {n : ℕ} {events : List (Option JsonObject)}
    (h : generateEvents f filePath draws n = some events) :
    (∀ log ∈ events, f.matchesMap log = .ok true) ↔
      ∀ i < n, StatusFits f ∧ LatencyFits f (draws i) := by
  induction n generalizing events with
  | zero =>
    rw [← Option.some.inj h]
    exact iff_of_true (List.forall_mem_nil _) fun i hi => absurd hi (Nat.not_lt_zero i)
  | succ n ih =>
    obtain ⟨before, hbefore, h⟩ := Option.bind_eq_some_iff.mp h
    obtain ⟨log, hlog, rfl⟩ := Option.map_eq_some_iff.mp h
    rw [List.forall_mem_append, List.forall_mem_singleton, ih hbefore,
      generateEvent_accepted hf hlog, Nat.forall_lt_succ_right]

end generated

section scanned
variable {readMap : ReadMap} {f : EventFilter}

/-- A line whose record the query accepts. -/
def AcceptedLine (readMap : ReadMap) (f : EventFilter) (line : JString) : Prop :=
  ∃ log, readMap line = some log ∧ f.matchesMap log = .ok true

lemma scanLines_accepted {lines : List JString} {events : List (Option JsonObject)}
    (h : ∀ log ∈ events, f.matchesMap log = .ok true) :
    ∀ log ∈ scanLines readMap f lines events, f.matchesMap log = .ok true := by
  induction lines generalizing events with
  | nil => exact h
  | cons line lines ih =>
    rw [scanLines]
    cases readMap line with
    | none => exact ih h
    | some log =>
      simp only
      split_ifs with haccepted hfull
      · exact List.forall_mem_append.mpr ⟨h, List.forall_mem_singleton.mpr haccepted⟩
      · exact ih (List.forall_mem_append.mpr ⟨h, List.forall_mem_singleton.mpr haccepted⟩)
      · exact ih h

lemma le_scanLines (readMap : ReadMap) (f : EventFilter) (lines : List JString)
    (events : List (Option JsonObject)) :
    events.length ≤ (scanLines readMap f lines events).length := by
  induction lines generalizing events with
  | nil => exact le_rfl
  | cons line lines ih =>
    rw [scanLines]
    cases readMap line with
    | none => exact ih events
    | some log =>
      have happend := ih (events ++ [log])
      rw [List.length_append] at happend
      simp only
      split_ifs
      · rw [List.length_append]
        exact Nat.le_add_right _ _
      · exact (Nat.le_add_right _ _).trans happend
      · exact ih events

/-- The scan finds nothing exactly when no line is accepted. -/
lemma scanLines_eq_nil_iff (readMap : ReadMap) (f : EventFilter) (lines : List JString) :
    scanLines readMap f lines [] = [] ↔ ∀ line ∈ lines, ¬ AcceptedLine readMap f line := by
  induction lines with
  | nil => exact iff_of_true rfl (List.forall_mem_nil _)
  | cons line lines ih =>
    rw [List.forall_mem_cons, scanLines]
    cases hread : readMap line with
    | none =>
      have hline : ¬ AcceptedLine readMap f line := by
        rintro ⟨log, hlog, -⟩
        exact Option.some_ne_none log (hlog.symm.trans hread)
      exact ih.trans (and_iff_right hline).symm
    | some log =>
      have hline : AcceptedLine readMap f line ↔ f.matchesMap log = .ok true := by
        constructor
        · rintro ⟨log', hlog', haccepted⟩
          rwa [Option.some.inj (hread.symm.trans hlog')]
        · exact fun haccepted => ⟨log, hread, haccepted⟩
      rw [hline]
      simp only
      split_ifs with haccepted hfull
      · exact iff_of_false (by simp) fun h => h.1 haccepted
      · refine iff_of_false (fun hnil => ?_) fun h => h.1 haccepted
        have hle := le_scanLines readMap f lines ([] ++ [log])
        rw [hnil] at hle
        simp at hle
      · exact ih.trans (and_iff_right haccepted).symm

end scanned

section returned
variable {w : Workspace} {readMap : ReadMap} {draws : ℕ → EventDraws} {query filePath : JString}

/-- Every returned event is accepted under the targets and operators of the query. -/
def EventsAccepted (w : Workspace) (readMap : ReadMap) (draws : ℕ → EventDraws)
    (query filePath : JString) : Prop :=
  ∀ f ∈ eventFilter query, ∀ events ∈ getMatchingEvents w readMap draws query filePath,
    ∀ log ∈ events, f.matchesMap log = .ok true

/-- The file has an accepted line among those that are read, or every draw fits the query. -/
def EventsFit (w : Workspace) (readMap : ReadMap) (draws : ℕ → EventDraws)
    (query filePath : JString) : Prop :=
  ∀ f ∈ eventFilter query, ∀ lines ∈ jsonLines w filePath,
    (∃ line ∈ lines.take 20000, AcceptedLine readMap f line) ∨
      ∀ i < 50, StatusFits f ∧ LatencyFits f (draws i)

lemma events_accepted_iff {f : EventFilter} {lines : List JString}
    {events : List (Option JsonObject)} (hf : eventFilter query = some f)
    (hlines : jsonLines w filePath = some lines)
    (hevents : getMatchingEvents w readMap draws query filePath = some events) :
    (∀ log ∈ events, f.matchesMap log = .ok true) ↔
      (∃ line ∈ lines.take 20000, AcceptedLine readMap f line) ∨
        ∀ i < 50, StatusFits f ∧ LatencyFits f (draws i) := by
  rw [getMatchingEvents, hf, Option.bind_some, hlines, Option.bind_some] at hevents
  have hnil := scanLines_eq_nil_iff readMap f (lines.take 20000)
  simp only at hevents
  split_ifs at hevents with hempty
  · -- the generator, as no line is accepted
    have hnone := hnil.mp (List.isEmpty_iff.mp hempty)
    rw [generateEvents_accepted hf hevents, or_iff_right]
    rintro ⟨line, hline, haccepted⟩
    exact hnone line hline haccepted
  · have hsome := mt hnil.mpr (mt List.isEmpty_iff.mpr hempty)
    push Not at hsome
    rw [← Option.some.inj hevents]
    exact iff_of_true (scanLines_accepted (List.forall_mem_nil _)) (Or.inl hsome)

/-- The returned events are accepted exactly when the file has one, or the status operator and
the draws for the latency fit. -/
theorem eventsAccepted_iff
    (h : (getMatchingEvents w readMap draws query filePath).isSome = true) :
    EventsAccepted w readMap draws query filePath ↔ EventsFit w readMap draws query filePath := by
  obtain ⟨events, hevents⟩ := Option.isSome_iff_exists.mp h
  obtain ⟨f, hf, hrest⟩ := Option.bind_eq_some_iff.mp hevents
  obtain ⟨lines, hlines, -⟩ := Option.bind_eq_some_iff.mp hrest
  have hiff := events_accepted_iff hf hlines hevents
  simp only [EventsAccepted, EventsFit, hf, hlines, hevents, Option.mem_def, Option.some.injEq,
    forall_eq']
  exact hiff

end returned

section samples

/-- Every number drawn is 0. -/
def zeroDraws : EventDraws := ⟨true, false, 0, fun _ => 0, fun _ h => h, 0, 0, 0, 0, 0, 0, 0⟩

/-- No index has a JSON file beside it. -/
def noFiles : Workspace := ⟨fun _ => true, fun path => path, fun _ => none⟩

def readNothing : ReadMap := fun _ => none

def logsPath : JString := java "data/logs.agb"

lemma notFiveHundred_returns : (getMatchingEvents noFiles readNothing (fun _ => zeroDraws)
    (java "status != 500") logsPath).isSome = true := by decide +kernel

theorem eventsAccepted_iff_sample :
    EventsAccepted noFiles readNothing (fun _ => zeroDraws) (java "status != 500") logsPath ↔
      EventsFit noFiles readNothing (fun _ => zeroDraws) (java "status != 500") logsPath :=
  eventsAccepted_iff notFiveHundred_returns

/-- The generator writes the status that the query excludes. -/
theorem excluded_status_generated :
    (getMatchingEvents noFiles readNothing (fun _ => zeroDraws) (java "status != 500")
      logsPath).isSome = true ∧
    ¬ EventsAccepted noFiles readNothing (fun _ => zeroDraws) (java "status != 500") logsPath := by
  refine ⟨notFiveHundred_returns, fun h => ?_⟩
  obtain ⟨events, hevents⟩ := Option.isSome_iff_exists.mp notFiveHundred_returns
  have hf : eventFilter (java "status != 500") = some ⟨some 500, java "!=", none, java ">"⟩ := by
    decide
  have hlines : jsonLines noFiles logsPath = some [] := by decide
  rcases (events_accepted_iff hf hlines hevents).mp (h _ hf _ hevents) with ⟨_, hnil, -⟩ | hfits
  · exact absurd hnil List.not_mem_nil
  · exact (hfits 0 (by decide)).1 (Option.some_ne_none 500) rfl

end samples

end Eureka.Gateway
