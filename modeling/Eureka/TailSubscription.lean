import Mathlib
import Eureka.QueryExecution

/-! `TailSubscription`: a live tail reads its numbers from the translated query and its line
filter from the original one. A range query has only the translation. -/
namespace Eureka.Gateway
open WordBytes RegexSearch Regex JavaText LogQL

/-- `toString()` -/
def JsonValue.text : JsonValue → JString
  | .null => java "null"
  | .string value => value
  | .number _ text => text
  | .other text => text

structure TailSubscription where
  originalQuery : JString
  parsedQuery : JString
  statusTarget : Option ℕ
  latencyTarget : Option ℕ
  lineFilter : Option JString
  deriving DecidableEq, Repr

def tailStatusPattern : Regex JChar := comparison "status" (lit (java "==")) .eps

def tailLatencyPattern : Regex JChar := comparison "latency" (lit (java ">")) .eps

/-- `none` where `parseInt` throws. -/
def tailTarget (pattern : Regex JChar) (parsedQuery : JString) : Option (Option ℕ) :=
  match find pattern parsedQuery with
  | some [digits] => (parseInt digits).map some
  | _ => some none

def TailSubscription.create (query : JString) : Option TailSubscription :=
  (tailTarget tailStatusPattern (parse query)).bind fun statusTarget =>
    (tailTarget tailLatencyPattern (parse query)).map fun latencyTarget =>
      { originalQuery := query
        parsedQuery := parse query
        statusTarget := statusTarget
        latencyTarget := latencyTarget
        lineFilter :=
          match find lineFilterPattern query with
          | some groups => groups[0]?
          | none =>
            if statusTarget = none ∧ latencyTarget = none ∧ parse query ≠ [] then
              some (parse query)
            else none }

/-- The test of one field. A value that is not a number is caught; a null map is not. -/
def tailField (log : Option JsonObject) (field : String) (target : Option ℕ)
    (accepts : ℤ → ℕ → Bool) : Except JavaException Bool :=
  match target, log with
  | none, _ => .ok true
  | some _, none => .error .nullPointer
  | some t, some log =>
    match log.get field with
    | some (.number n _) => .ok (accepts n.intValue t)
    | _ => .ok false

/-- The text that the line filter searches. -/
def messageText (log : JsonObject) (rawLine : JString) : JString :=
  match log.get "message" with
  | some value => value.text
  | none => rawLine

def tailFilter (log : Option JsonObject) (rawLine : JString) (lineFilter : Option JString) :
    Except JavaException Bool :=
  match lineFilter, log with
  | none, _ => .ok true
  | some [], _ => .ok true
  | some _, none => .error .nullPointer
  | some text, some log => .ok (contains (messageText log rawLine) text)

def isTarget (value : ℤ) (target : ℕ) : Bool := value = target

def isAbove (value : ℤ) (target : ℕ) : Bool := (target : ℤ) < value

/-- `log` is `none` for a Java null. -/
def TailSubscription.matches (sub : TailSubscription) (log : Option JsonObject)
    (rawLine : JString) : Except JavaException Bool := do
  if ← tailField log "status" sub.statusTarget isTarget then
    if ← tailField log "latency" sub.latencyTarget isAbove then
      tailFilter log rawLine sub.lineFilter
    else .ok false
  else .ok false

section extraction
variable {q : JString}

/-- A number that the parser finds is in the int range. -/
structure IntRange (q : JString) : Prop where
  status : (find statusPattern q).isSome = true → (statusVal q).isSome = true
  latency : (find latencyPattern q).isSome = true → (latencyVal q).isSome = true

lemma lineFilterText_infix {text : JString} (h : lineFilterText q = some text) : text <:+: q := by
  obtain ⟨groups, hfind, hget⟩ := Option.bind_eq_some_iff.mp h
  exact capture_within hfind text (List.mem_of_getElem? hget)

/-- Without numbers the translation is a part of the query. -/
lemma parse_infix (hs : statusVal q = none) (hl : latencyVal q = none) : parse q <:+: q := by
  rw [parse_text hs hl]
  split_ifs
  · exact List.nil_infix
  · cases htext : lineFilterText q with
    | none => exact List.nil_infix
    | some text => exact lineFilterText_infix htext

/-- What the parser does not find in the query is in no part of it. -/
lemma find_part_eq_none {keyword : String} {op op' quotes quotes' : Regex JChar} {part : JString}
    (hop : lang op ≤ lang op') (hquotes : lang quotes ≤ lang quotes') (hpart : part <:+: q)
    (h : find (comparison keyword op' quotes') q = none) :
    find (comparison keyword op quotes) part = none := by
  rw [← Option.not_isSome_iff_eq_none] at h ⊢
  exact fun hfound => h (find_isSome_mono (comparison_mono hop hquotes) hpart hfound)

lemma tailTarget_synthesize {keyword : String} {op : Regex JChar} {target : Option ℕ} {s : JString}
    (hfind : find (comparison keyword op .eps) s = target.map fun n => [number n])
    (hle : ∀ n ∈ target, n ≤ 2147483647) : tailTarget (comparison keyword op .eps) s = some target := by
  rw [tailTarget, hfind]
  cases target with
  | none => rfl
  | some n =>
    simp only [Option.map_some]
    rw [parseInt_number, if_pos (hle n rfl)]
    rfl

lemma lit_le_operators {op : String} {ops : List String} (h : op ∈ ops) :
    lang (lit (java op)) ≤ lang (.group (operators ops)) := by
  intro w hw
  rw [(mem_lang_lit _).mp hw]
  exact (mem_lang_oneOf _).mpr (List.mem_map_of_mem h)

lemma operators_group_mono {ops ops' : List String} (h : ops ⊆ ops') :
    lang (.group (operators ops)) ≤ lang (.group (operators ops')) := operators_mono h

/-- Both sides see the numbers that the parser found in the query. -/
lemma create_numbers (h : (statusVal q).isSome = true ∨ (latencyVal q).isSome = true) :
    tailTarget tailStatusPattern (parse q) = some (statusVal q) ∧
      tailTarget tailLatencyPattern (parse q) = some (latencyVal q) ∧
      eventFilter (parse q) = some ⟨statusVal q, java "==", latencyVal q, java ">"⟩ := by
  have hs : ∀ n ∈ statusVal q, n ≤ 2147483647 := fun _ hn => groupInt_le hn
  have hl : ∀ m ∈ latencyVal q, m ≤ 2147483647 := fun _ hm => groupInt_le hm
  rw [parse_numbers h]
  refine ⟨?_, ?_, eventFilter_synthesize hs hl⟩
  · exact tailTarget_synthesize (find_status_synthesize (fun _ => first_lit _) _ _) hs
  · exact tailTarget_synthesize (find_latency_synthesize (fun _ => first_lit _) _ _) hl

/-- Where the query has no comparison, its line filter has none. -/
lemma create_text (hs : find statusPattern q = none) (hl : find latencyPattern q = none) :
    tailTarget tailStatusPattern (parse q) = some none ∧
      tailTarget tailLatencyPattern (parse q) = some none ∧
      eventFilter (parse q) = some ⟨none, java "==", none, java ">"⟩ := by
  have hstatus : statusVal q = none := by rw [statusVal, groupInt, hs, Option.bind_none]
  have hlatency : latencyVal q = none := by rw [latencyVal, groupInt, hl, Option.bind_none]
  have hpart := parse_infix hstatus hlatency
  have htail : find tailStatusPattern (parse q) = none :=
    find_part_eq_none (lit_le_operators (by decide)) eps_le_optionalQuote hpart hs
  have htail' : find tailLatencyPattern (parse q) = none :=
    find_part_eq_none (lit_le_operators (by decide)) eps_le_optionalQuote hpart hl
  have hevent : find eventStatusPattern (parse q) = none :=
    find_part_eq_none (operators_group_mono (by decide)) eps_le_optionalQuote hpart hs
  have hevent' : find eventLatencyPattern (parse q) = none :=
    find_part_eq_none (operators_group_mono (by decide)) eps_le_optionalQuote hpart hl
  refine ⟨by rw [tailTarget, htail], by rw [tailTarget, htail'], ?_⟩
  simp only [eventFilter, eventTarget, hevent, hevent', Option.bind_some, Option.map_some]

lemma find_eq_none_of_range {pattern : Regex JChar} {value : Option ℕ}
    (hrange : (find pattern q).isSome = true → value.isSome = true) (h : value = none) :
    find pattern q = none := by
  rw [← Option.not_isSome_iff_eq_none]
  intro hfound
  have hsome := hrange hfound
  rw [h] at hsome
  exact Bool.false_ne_true hsome

theorem targets_eq (h : IntRange q) :
    tailTarget tailStatusPattern (parse q) = some (statusVal q) ∧
      tailTarget tailLatencyPattern (parse q) = some (latencyVal q) ∧
      eventFilter (parse q) = some ⟨statusVal q, java "==", latencyVal q, java ">"⟩ := by
  by_cases hnumber : (statusVal q).isSome = true ∨ (latencyVal q).isSome = true
  · exact create_numbers hnumber
  · simp only [not_or, Option.not_isSome_iff_eq_none] at hnumber
    obtain ⟨hs, hl⟩ := hnumber
    rw [hs, hl]
    exact create_text (find_eq_none_of_range h.status hs) (find_eq_none_of_range h.latency hl)

/-- The filter is that of the original query. A translation without numbers is the filter too. -/
theorem create_eq (h : IntRange q) : TailSubscription.create q =
    some ⟨q, parse q, statusVal q, latencyVal q, lineFilterText q⟩ := by
  obtain ⟨hs, hl, -⟩ := targets_eq h
  rw [TailSubscription.create, hs, hl, Option.bind_some, Option.map_some]
  congr 2
  cases hfind : find lineFilterPattern q with
  | some groups => rw [lineFilterText, hfind, Option.bind_some]
  | none =>
    have htext : lineFilterText q = none := by rw [lineFilterText, hfind, Option.bind_none]
    rw [htext]
    refine if_neg ?_
    rintro ⟨hnoStatus, hnoLatency, hne⟩
    refine hne ?_
    rw [parse_text hnoStatus hnoLatency, htext]
    exact ite_self _

end extraction

section selection
variable {q rawLine : JString} {log : JsonObject}

/-- Live tail and the event list of a range query select the record alike. -/
def SelectedAlike (q : JString) (log : JsonObject) (rawLine : JString) : Prop :=
  ∃ sub f, TailSubscription.create q = some sub ∧ eventFilter (parse q) = some f ∧
    (sub.matches (some log) rawLine = .ok true ↔ f.matches log = .ok true)

/-- Where the two fields are present they are numbers. -/
structure NumericFields (log : JsonObject) : Prop where
  status : ∀ value ∈ log.get "status", ∃ n text, value = .number n text
  latency : ∀ value ∈ log.get "latency", ∃ n text, value = .number n text

def fieldAccepted (log : JsonObject) (field : String) (target : Option ℕ) (accepts : ℤ → ℕ → Bool) :
    Bool :=
  match target, log.get field with
  | none, _ => true
  | some t, some (.number n _) => accepts n.intValue t
  | some _, _ => false

/-- The record has the status of the query and a latency above that of the query. -/
def numbersAccepted (q : JString) (log : JsonObject) : Bool :=
  fieldAccepted log "status" (statusVal q) isTarget &&
    fieldAccepted log "latency" (latencyVal q) isAbove

lemma tailField_eq (log : JsonObject) (field : String) (target : Option ℕ)
    (accepts : ℤ → ℕ → Bool) :
    tailField (some log) field target accepts = .ok (fieldAccepted log field target accepts) := by
  cases target with
  | none => rfl
  | some t =>
    simp only [tailField, fieldAccepted]
    cases log.get field with
    | none => rfl
    | some value => cases value <;> rfl

lemma testField_eq {field : String} (h : ∀ value ∈ log.get field, ∃ n text, value = .number n text)
    (target : Option ℕ) (accepts : ℤ → ℕ → Bool) :
    testField log field target accepts = .ok (fieldAccepted log field target accepts) := by
  cases target with
  | none => rfl
  | some t =>
    simp only [testField, fieldAccepted]
    cases hvalue : log.get field with
    | none => rfl
    | some value =>
      obtain ⟨n, text, rfl⟩ := h value hvalue
      rfl

lemma statusAccepts_eqeq : statusAccepts (java "==") = isTarget := by
  funext value target
  exact if_pos (Or.inl rfl)

lemma latencyAccepts_gt : latencyAccepts (java ">") = isAbove := by
  funext value target
  exact if_pos rfl

/-- The event list decides by the numbers alone. -/
lemma matches_events (h : NumericFields log) (q : JString) :
    EventFilter.matches ⟨statusVal q, java "==", latencyVal q, java ">"⟩ log =
      .ok (numbersAccepted q log) := by
  rw [EventFilter.matches, testField_eq h.status, testField_eq h.latency, statusAccepts_eqeq,
    latencyAccepts_gt, numbersAccepted]
  cases fieldAccepted log "status" (statusVal q) isTarget <;> rfl

lemma tailFilter_eq (log : JsonObject) (rawLine : JString) (lineFilter : Option JString) :
    tailFilter (some log) rawLine lineFilter =
      .ok (lineFilter.all (contains (messageText log rawLine))) := by
  cases lineFilter with
  | none => rfl
  | some text =>
    cases text with
    | nil =>
      have hempty : contains (messageText log rawLine) [] = true := decide_eq_true List.nil_infix
      rw [Option.all_some, hempty]
      rfl
    | cons c cs => rfl

/-- On an object a live tail always decides: by the numbers and then by the line filter. -/
lemma TailSubscription.matches_some (sub : TailSubscription) (log : JsonObject) (rawLine : JString) :
    sub.matches (some log) rawLine = .ok (fieldAccepted log "status" sub.statusTarget isTarget &&
      fieldAccepted log "latency" sub.latencyTarget isAbove &&
      sub.lineFilter.all (contains (messageText log rawLine))) := by
  rw [TailSubscription.matches, tailField_eq, tailField_eq, tailFilter_eq]
  cases fieldAccepted log "status" sub.statusTarget isTarget with
  | false => rfl
  | true => cases fieldAccepted log "latency" sub.latencyTarget isAbove <;> rfl

lemma matches_tail (log : JsonObject) (q rawLine : JString) :
    TailSubscription.matches ⟨q, parse q, statusVal q, latencyVal q, lineFilterText q⟩ (some log) rawLine =
      .ok (numbersAccepted q log && (lineFilterText q).all (contains (messageText log rawLine))) :=
  TailSubscription.matches_some _ log rawLine

lemma selectedAlike_iff_all (hq : IntRange q) (hlog : NumericFields log) :
    SelectedAlike q log rawLine ↔ (numbersAccepted q log = true →
      (lineFilterText q).all (contains (messageText log rawLine)) = true) := by
  obtain ⟨-, -, hevents⟩ := targets_eq hq
  have hdecisions : SelectedAlike q log rawLine ↔ ((numbersAccepted q log &&
      (lineFilterText q).all (contains (messageText log rawLine))) = true ↔
        numbersAccepted q log = true) := by
    constructor
    · rintro ⟨sub, f, hsub, hf, halike⟩
      obtain rfl := Option.some.inj ((create_eq hq).symm.trans hsub)
      obtain rfl := Option.some.inj (hevents.symm.trans hf)
      rwa [matches_tail, matches_events hlog, Except.ok.injEq, Except.ok.injEq] at halike
    · intro halike
      refine ⟨_, _, create_eq hq, hevents, ?_⟩
      rwa [matches_tail, matches_events hlog, Except.ok.injEq, Except.ok.injEq]
  rw [hdecisions, Bool.and_eq_true, and_iff_left_iff_imp]

/-- The records that the numbers accept and the line filter does not are selected by one side
only. -/
theorem selected_alike_iff (hq : IntRange q) (hlog : NumericFields log) :
    SelectedAlike q log rawLine ↔ (numbersAccepted q log = true →
      ∀ text ∈ lineFilterText q, contains (messageText log rawLine) text = true) := by
  rw [selectedAlike_iff_all hq hlog]
  refine imp_congr_right fun _ => ?_
  cases lineFilterText q <;> simp

end selection

section samples

def timeoutQuery : JString := java "\x7bjob=\"app-logs\"\x7d |= \"Database timeout\""

/-- A record with a message and no numbers. -/
def okLog : JsonObject := fun f => if f = "message" then some (.string (java "ok")) else none

def okLine : JString := java "\x7b\"message\":\"ok\"\x7d"

lemma timeoutQuery_range : IntRange timeoutQuery := ⟨by decide, by decide⟩

lemma okLog_numeric : NumericFields okLog := by
  constructor <;> intro value hvalue <;> exact absurd hvalue (by simp [okLog, JsonObject.get])

theorem selected_alike_iff_sample : SelectedAlike timeoutQuery okLog okLine ↔
    (numbersAccepted timeoutQuery okLog = true →
      ∀ text ∈ lineFilterText timeoutQuery, contains (messageText okLog okLine) text = true) :=
  selected_alike_iff timeoutQuery_range okLog_numeric

/-- The text search lists a record without the text. -/
theorem unfiltered_event_listed : IntRange timeoutQuery ∧ NumericFields okLog ∧
    parse timeoutQuery = java "Database timeout" ∧
    ¬ SelectedAlike timeoutQuery okLog okLine := by
  refine ⟨timeoutQuery_range, okLog_numeric, by decide, fun h => ?_⟩
  have hall := (selectedAlike_iff_all timeoutQuery_range okLog_numeric).mp h (by decide)
  exact absurd hall (by decide)

end samples

end Eureka.Gateway
