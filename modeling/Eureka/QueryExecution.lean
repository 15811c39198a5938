import Mathlib
import Eureka.QueryCounts
import Eureka.SynthesizedQuery

/-! `QueryExecutionService.getMatchingEvents`: the targets that it reads from a query and the
records that it lists. The counts of the same query come from the pipeline. -/
namespace Eureka.Gateway
open WordBytes RegexSearch Regex JavaText LogQL Pipeline Dispatcher ByteText

inductive JavaException
  | nullPointer
  | classCast
  deriving DecidableEq, Repr

/-- A number as it is parsed into an object: `Integer`, `Long` or `BigInteger`, or a `Double`
with its value rounded toward zero. -/
inductive JsonNumber
  | integer (value : ℤ)
  | double (whole : ℤ)
  deriving DecidableEq, Repr

/-- `intValue()`: the low 32 bits of an integer, the nearest int for a `Double`. -/
def JsonNumber.intValue : JsonNumber → ℤ
  | .integer value => (BitVec.ofInt 32 value).toInt
  | .double whole => max (-2147483648) (min 2147483647 whole)

/-- `text` is what `toString()` gives; `other` is a boolean, a list or a map. -/
inductive JsonValue
  | null
  | string (value : JString)
  | number (value : JsonNumber) (text : JString)
  | other (text : JString)
  deriving DecidableEq, Repr

/-- `none` where the object has no such field. -/
abbrev JsonObject := String → Option JsonValue

/-- `Map.get`, with `none` for a Java null. -/
def JsonObject.get (log : JsonObject) (field : String) : Option JsonValue :=
  match log field with
  | some .null => none
  | value => value

structure EventFilter where
  statusTarget : Option ℕ
  statusOp : JString
  latencyTarget : Option ℕ
  latencyOp : JString
  deriving DecidableEq, Repr

def eventStatusPattern : Regex JChar :=
  comparison "status" (.group (operators ["==", "=", "!="])) .eps

def eventLatencyPattern : Regex JChar :=
  comparison "latency" (.group (operators [">", ">=", "<", "<=", "==", "="])) .eps

/-- The operator and the target of one field; `none` where `parseInt` throws. -/
def eventTarget (pattern : Regex JChar) (defaultOp query : JString) : Option (JString × Option ℕ) :=
  match find pattern query with
  | some [op, digits] => (parseInt digits).map fun n => (op, some n)
  | _ => some (defaultOp, none)

/-- The head of `getMatchingEvents`. -/
def eventFilter (query : JString) : Option EventFilter :=
  (eventTarget eventStatusPattern (java "==") query).bind fun status =>
    (eventTarget eventLatencyPattern (java ">") query).map fun latency =>
      ⟨status.2, status.1, latency.2, latency.1⟩

def statusAccepts (op : JString) (value : ℤ) (target : ℕ) : Bool :=
  if op = java "==" ∨ op = java "=" then value = target
  else if op = java "!=" then value ≠ target
  else true

def latencyAccepts (op : JString) (value : ℤ) (target : ℕ) : Bool :=
  if op = java ">" then (target : ℤ) < value
  else if op = java ">=" then (target : ℤ) ≤ value
  else if op = java "<" then value < target
  else if op = java "<=" then value ≤ target
  else if op = java "==" ∨ op = java "=" then value = target
  else true

/-- The test of one field. The cast to `Number` is not guarded. -/
def testField (log : JsonObject) (field : String) (target : Option ℕ) (accepts : ℤ → ℕ → Bool) :
    Except JavaException Bool :=
  match target with
  | none => .ok true
  | some t =>
    match log.get field with
    | none => .ok false
    | some (.number n _) => .ok (accepts n.intValue t)
    | some _ => .error .classCast

def EventFilter.matches (f : EventFilter) (log : JsonObject) : Except JavaException Bool := do
  if ← testField log "status" f.statusTarget (statusAccepts f.statusOp) then
    testField log "latency" f.latencyTarget (latencyAccepts f.latencyOp)
  else .ok false

section extraction

lemma first_operator (op : String) (ops : List String) (rest : JString) :
    first (.group (operators (op :: ops))) (java op ++ rest) = some ([java op], rest) :=
  first_group (first_alt_left (first_lit (java op)))

/-- A target that is found with the default operator, or not found, leaves that operator. -/
lemma eventTarget_default {pattern : Regex JChar} {op query : JString} {target : Option ℕ}
    (hfind : find pattern query = target.map fun n => [op] ++ [number n])
    (hle : ∀ n ∈ target, n ≤ 2147483647) : eventTarget pattern op query = some (op, target) := by
  rw [eventTarget, hfind]
  cases target with
  | none => rfl
  | some n =>
    simp only [Option.map_some, List.cons_append, List.nil_append]
    rw [parseInt_number, if_pos (hle n rfl)]
    rfl

/-- From the parser's output the targets are the numbers that it was written from. -/
theorem eventFilter_synthesize {status latency : Option ℕ} (hs : ∀ n ∈ status, n ≤ 2147483647)
    (hl : ∀ m ∈ latency, m ≤ 2147483647) :
    eventFilter (synthesize status latency) = some ⟨status, java "==", latency, java ">"⟩ := by
  have hstatus : eventTarget eventStatusPattern (java "==") (synthesize status latency) =
      some (java "==", status) :=
    eventTarget_default (find_status_synthesize (first_operator "==" _) status latency) hs
  have hlatency : eventTarget eventLatencyPattern (java ">") (synthesize status latency) =
      some (java ">", latency) :=
    eventTarget_default (find_latency_synthesize (first_operator ">" _) status latency) hl
  rw [eventFilter, hstatus, Option.bind_some, hlatency]
  rfl

end extraction

section events
variable {row : String → Word} {log : JsonObject} {s l : ℕ}

/-- A parsed line with the two unsigned integers of a row. -/
structure HoldsValues (log : JsonObject) (row : String → Word) : Prop where
  status : ∃ text, log "status" = some (.number (.integer (row "status").toNat) text)
  latency : ∃ text, log "latency" = some (.number (.integer (row "latency").toNat) text)

/-- The value is above the target also when it is read as an int. -/
def aboveAsInt (target : ℕ) (value : Word) : Bool :=
  target < value.toNat % 2 ^ 32 ∧ value.toNat % 2 ^ 32 < 2 ^ 31

/-- The rows on which the int and the 64-bit comparison agree. -/
def WidthsAgree (s l : ℕ) (row : String → Word) : Prop :=
  ((row "status").toNat = s → l < (row "latency").toNat → aboveAsInt l (row "latency") = true) ∧
    ((row "status").toNat ≠ s → (row "status").toNat % 2 ^ 32 = s →
      aboveAsInt l (row "latency") = false)

/-- Both sides read the query and decide alike on a record. -/
def ListedAsCounted (query : Bytes) (log : JsonObject) (row : String → Word) : Prop :=
  ∃ f q, eventFilter (widen query) = some f ∧ parseQuery query = some q ∧
    f.matches log = .ok ((queryRoot q.statusTarget q.latencyTarget).eval logFields row)

lemma intValue_natCast (n : ℕ) : (JsonNumber.integer n).intValue =
    if n % 2 ^ 32 < 2 ^ 31 then ((n % 2 ^ 32 : ℕ) : ℤ) else (n % 2 ^ 32 : ℕ) - 2 ^ 32 := by
  have hmod : (n : ℤ) % 2 ^ 32 = (n % 2 ^ 32 : ℕ) := by omega
  rw [JsonNumber.intValue, BitVec.toInt_ofInt, Int.bmod]
  push_cast at hmod ⊢
  rw [hmod]
  split_ifs <;> omega

lemma statusAccepts_int (hs : s ≤ 2147483647) (n : ℕ) :
    statusAccepts (java "==") (JsonNumber.integer n).intValue s = decide (n % 2 ^ 32 = s) := by
  rw [statusAccepts, if_pos (Or.inl rfl), intValue_natCast]
  refine decide_eq_decide.mpr ?_
  split_ifs <;> omega

lemma latencyAccepts_int (l : ℕ) (value : Word) :
    latencyAccepts (java ">") (JsonNumber.integer value.toNat).intValue l = aboveAsInt l value := by
  rw [latencyAccepts, if_pos rfl, intValue_natCast]
  refine decide_eq_decide.mpr ?_
  split_ifs <;> omega

/-- The listed records: both fields are compared on their low 32 bits. -/
lemma matches_values (h : HoldsValues log row) (hs : s ≤ 2147483647) :
    EventFilter.matches ⟨some s, java "==", some l, java ">"⟩ log =
      .ok (decide ((row "status").toNat % 2 ^ 32 = s) && aboveAsInt l (row "latency")) := by
  obtain ⟨statusText, hstatus⟩ := h.status
  obtain ⟨latencyText, hlatency⟩ := h.latency
  have hfirst : testField log "status" (some s) (statusAccepts (java "==")) =
      .ok (decide ((row "status").toNat % 2 ^ 32 = s)) := by
    simp only [testField, JsonObject.get, hstatus, statusAccepts_int hs]
  have hsecond : testField log "latency" (some l) (latencyAccepts (java ">")) =
      .ok (aboveAsInt l (row "latency")) := by
    simp only [testField, JsonObject.get, hlatency, latencyAccepts_int]
  rw [EventFilter.matches, hfirst, hsecond]
  cases decide ((row "status").toNat % 2 ^ 32 = s) <;> rfl

lemma eval_targets (hs : s ≤ 2147483647) (hl : l ≤ 2147483647) (row : String → Word) :
    (queryRoot (BitVec.ofNat 64 s) (BitVec.ofNat 64 l)).eval logFields row =
      decide ((row "status").toNat = s ∧ l < (row "latency").toNat) := by
  rw [eval_queryRoot, satisfies_ofNat (by omega) (by omega)]
  rfl

lemma lt_of_aboveAsInt {value : Word} (h : aboveAsInt l value = true) : l < value.toNat := by
  have hlow := (of_decide_eq_true h).1
  have hle := Nat.mod_le value.toNat (2 ^ 32)
  omega

lemma decisions_agree_iff (hs : s ≤ 2147483647) :
    (decide ((row "status").toNat % 2 ^ 32 = s) && aboveAsInt l (row "latency")) =
      decide ((row "status").toNat = s ∧ l < (row "latency").toNat) ↔ WidthsAgree s l row := by
  rw [Bool.eq_iff_iff, Bool.and_eq_true, decide_eq_true_eq, decide_eq_true_eq]
  constructor
  · intro h
    refine ⟨fun heq hlt => (h.mpr ⟨heq, hlt⟩).2, fun hne hlow => ?_⟩
    rw [← Bool.not_eq_true]
    exact fun habove => hne (h.mp ⟨hlow, habove⟩).1
  · rintro ⟨hsame, hother⟩
    constructor
    · rintro ⟨hlow, habove⟩
      refine ⟨?_, lt_of_aboveAsInt habove⟩
      by_contra hne
      exact absurd habove (by rw [hother hne hlow]; exact Bool.false_ne_true)
    · rintro ⟨heq, hlt⟩
      exact ⟨by omega, hsame heq hlt⟩

/-- The query of a status and a latency. -/
def conjunction (s l : ℕ) : Query := .both (.status s) (.latency l)

lemma eventFilter_conjunction (hs : s ≤ 2147483647) (hl : l ≤ 2147483647) :
    eventFilter (widen (conjunction s l).text) = some ⟨some s, java "==", some l, java ">"⟩ := by
  have hsynth : synthesize (some s) (some l) = widen (conjunction s l).text := synthesize_eq rfl
  rw [← hsynth]
  exact eventFilter_synthesize (by simpa using hs) (by simpa using hl)

lemma parseQuery_conjunction (hs : s ≤ 2147483647) (hl : l ≤ 2147483647) :
    parseQuery (conjunction s l).text =
      some ⟨.bitSlicedNumericalLogic, [], BitVec.ofNat 64 s, BitVec.ofNat 64 l⟩ := by
  have hscan : (conjunction s l).scan = (s, l) :=
    @selected_scan (some s) (some l) (conjunction s l) rfl (by simpa using hs) (by simpa using hl)
  rw [parseQuery_text, hscan]

/-- Both sides read the same numbers, so only the comparisons can differ. -/
lemma listedAsCounted_iff_eq (hs : s ≤ 2147483647) (hl : l ≤ 2147483647) (h : HoldsValues log row) :
    ListedAsCounted (conjunction s l).text log row ↔
      (decide ((row "status").toNat % 2 ^ 32 = s) && aboveAsInt l (row "latency")) =
        decide ((row "status").toNat = s ∧ l < (row "latency").toNat) := by
  rw [← eval_targets hs hl]
  constructor
  · rintro ⟨f, q, hf, hq, hmatches⟩
    obtain rfl := Option.some.inj ((eventFilter_conjunction hs hl).symm.trans hf)
    obtain rfl := Option.some.inj ((parseQuery_conjunction hs hl).symm.trans hq)
    rw [matches_values h hs] at hmatches
    exact Except.ok.inj hmatches
  · intro heq
    exact ⟨_, _, eventFilter_conjunction hs hl, parseQuery_conjunction hs hl,
      by rw [matches_values h hs, heq]⟩

/-- The listed records are the counted ones exactly where the low 32 bits decide as the whole
values do. -/
theorem listed_iff (hs : s ≤ 2147483647) (hl : l ≤ 2147483647) (h : HoldsValues log row) :
    ListedAsCounted (conjunction s l).text log row ↔ WidthsAgree s l row :=
  (listedAsCounted_iff_eq hs hl h).trans (decisions_agree_iff hs)

end events

section samples

/-- A row with the status 2^32 + 500. -/
def wideRow (f : String) : Word := if f = "status" then 4294967796#64 else 200#64

def wideLog : JsonObject := fun f =>
  if f = "status" then some (.number (.integer 4294967796) (java "4294967796"))
  else if f = "latency" then some (.number (.integer 200) (java "200"))
  else none

lemma wideLog_values : HoldsValues wideLog wideRow := ⟨⟨_, rfl⟩, ⟨_, rfl⟩⟩

theorem listed_iff_sample :
    ListedAsCounted (conjunction 500 100).text wideLog wideRow ↔ WidthsAgree 500 100 wideRow :=
  listed_iff (by decide) (by decide) wideLog_values

/-- The record is listed among the events of the query and is not counted. -/
theorem wide_status_listed : (conjunction 500 100).text = ascii "status == 500 AND latency > 100" ∧
    HoldsValues wideLog wideRow ∧ ¬ ListedAsCounted (conjunction 500 100).text wideLog wideRow := by
  refine ⟨by decide, wideLog_values, fun h => ?_⟩
  have heq := (listedAsCounted_iff_eq (by decide) (by decide) wideLog_values).mp h
  exact absurd heq (by decide)

end samples

end Eureka.Gateway
