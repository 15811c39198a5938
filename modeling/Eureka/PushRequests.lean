import Mathlib
import Eureka.LinkedMaps
import Eureka.LiveTail

/-! `LokiController.pushLogs` from the request body on: the streams that it reads, the labels that it
puts into JSON lines, and the casts that end it. -/
namespace Eureka.Gateway
open WordBytes JavaText LogQL LinkedMaps LinkedMap

/-- What `readValue` makes of a JSON value other than null; a null is `none`. -/
inductive Json
  | string (value : JString)
  | number (value : JsonNumber) (text : JString)
  | boolean (value : Bool)
  | array (items : List (Option Json))
  | object (fields : List (JString × Option Json))

/-- A list of texts between two brackets. -/
def listText (left right : String) (texts : List JString) : JString :=
  java left ++ (java ", ").intercalate texts ++ java right

mutual

/-- `toString()` -/
def Json.text : Json → JString
  | .string value => value
  | .number _ text => text
  | .boolean value => java (if value then "true" else "false")
  | .array items => listText "[" "]" (itemTexts items)
  | .object fields => listText "\x7b" "\x7d" (fieldTexts fields)

def referenceText : Option Json → JString
  | none => java "null"
  | some value => value.text

def itemTexts : List (Option Json) → List JString
  | [] => []
  | item :: items => referenceText item :: itemTexts items

def fieldTexts : List (JString × Option Json) → List JString
  | [] => []
  | (key, value) :: fields => (key ++ java "=" ++ referenceText value) :: fieldTexts fields

end

/-- The value as the readers of a log take it. -/
def valueOf : Option Json → JsonValue
  | none => .null
  | some (.string value) => .string value
  | some (.number value text) => .number value text
  | some value => .other value.text

abbrev JsonMap := LinkedMap JString Json

def objectOf (m : JsonMap) : JsonObject := fun field => (entryAt m.entries (java field)).map valueOf

/-- The `ObjectMapper`. `readValue(text, Map.class)` and `writeValueAsString` are `none` where they
throw. -/
structure Mapper where
  readValue : JString → Option (Option JsonMap)
  writeValueAsString : Option JsonMap → Option JString

def Mapper.readMap (mapper : Mapper) : ReadMap := fun line =>
  (mapper.readValue line).map (Option.map objectOf)

/-- A JSON line with the labels that it lacks; every exception leaves the line as it is. -/
def Mapper.enrich (mapper : Mapper) (labels : Option (List (JString × Option Json)))
    (rawLine : JString) : JString :=
  if java "\x7b" <+: rawLine then
    match mapper.readValue rawLine, labels.getD [] with
    | none, _ => rawLine
    | some none, [] => (mapper.writeValueAsString none).getD rawLine
    -- a null map throws at its first label
    | some none, _ :: _ => rawLine
    | some (some logMap), labels =>
      (mapper.writeValueAsString (some (logMap.putAllIfAbsent labels))).getD rawLine
  else rawLine

section spec

/-- A stream of a request: its labels, which can be null, and its lines. -/
structure PushStream where
  labels : Option (List (JString × Option Json))
  lines : List JString

def PushStream.enriched (mapper : Mapper) (s : PushStream) : List JString :=
  s.lines.map (mapper.enrich s.labels)

def pushedLines (mapper : Mapper) (streams : List PushStream) : List JString :=
  streams.flatMap (PushStream.enriched mapper)

end spec

section reading
variable {mapper : Mapper} {labels : Option (List (JString × Option Json))} {lines : List JString}

end reading

section labels
variable {mapper : Mapper} {labels : List (JString × Option Json)} {rawLine : JString} {logMap : JsonMap}

/-- The mapper writes the map as a JSON line and reads it back. -/
def RoundTrips (mapper : Mapper) (m : JsonMap) : Prop :=
  ∃ text, mapper.writeValueAsString (some m) = some text ∧ java "\x7b" <+: text ∧
    mapper.readValue text = some (some m)

/-- The labels of a stream are texts, as Loki's are. -/
def TextValues (labels : List (JString × Option Json)) : Prop :=
  ∀ e ∈ labels, ∀ value ∈ e.2, ∃ text, value = .string text

/-- A log beside what its labels make of it. -/
structure FilledIn (labels : List (JString × Option Json)) (log enriched : JsonObject) : Prop where
  fields : ∀ field, enriched.get field =
    (log.get field).or ((firstValue labels (java field)).map fun value => valueOf (some value))
  numbers : ∀ q, numbersAccepted q enriched = numbersAccepted q log
  texts : TextLabels enriched ↔ TextLabels log
  timestamp : ∀ now, nsTimestamp now enriched = nsTimestamp now log

lemma objectOf_get (m : JsonMap) (field : String) :
    (objectOf m).get field = (m.get (java field)).map fun value => valueOf (some value) := by
  rw [JsonObject.get, objectOf, LinkedMap.get, valueAt]
  cases entryAt m.entries (java field) with
  | none => rfl
  | some value =>
    cases value with
    | none => rfl
    | some value => cases value <;> rfl

/-- A label is never a number. -/
lemma firstValue_text (h : TextValues labels) {key : JString} {value : Json}
    (hvalue : firstValue labels key = some value) : ∃ text, value = .string text := by
  obtain ⟨e, he, hfound⟩ := List.exists_of_findSome?_eq_some hvalue
  split_ifs at hfound
  exact h e he value hfound

lemma filledIn (h : TextValues labels) (m : JsonMap) :
    FilledIn labels (objectOf m) (objectOf (m.putAllIfAbsent labels)) := by
  have hfields : ∀ field, (objectOf (m.putAllIfAbsent labels)).get field =
      ((objectOf m).get field).or
        ((firstValue labels (java field)).map fun value => valueOf (some value)) := by
    intro field
    rw [objectOf_get, objectOf_get, get_putAllIfAbsent]
    cases m.get (java field) <;> rfl
  -- a field keeps its value, or stays without one, or gets a text
  have hcases : ∀ field, (objectOf (m.putAllIfAbsent labels)).get field = (objectOf m).get field ∨
      (objectOf m).get field = none ∧
        ∃ text, (objectOf (m.putAllIfAbsent labels)).get field = some (.string text) := by
    intro field
    rw [hfields]
    cases (objectOf m).get field with
    | some value => exact Or.inl rfl
    | none =>
      cases hfirst : firstValue labels (java field) with
      | none => exact Or.inl rfl
      | some value =>
        obtain ⟨text, rfl⟩ := firstValue_text h hfirst
        exact Or.inr ⟨rfl, text, rfl⟩
  have haccepted : ∀ field target accepts,
      fieldAccepted (objectOf (m.putAllIfAbsent labels)) field target accepts =
        fieldAccepted (objectOf m) field target accepts := by
    intro field target accepts
    simp only [fieldAccepted]
    rcases hcases field with hsame | ⟨hnone, text, hsome⟩
    · rw [hsame]
    · rw [hnone, hsome]
      cases target <;> rfl
  refine ⟨hfields, fun q => ?_, ?_, fun now => ?_⟩
  · rw [numbersAccepted, numbersAccepted, haccepted, haccepted]
  · refine forall_congr' fun field => imp_congr_right fun _ => ?_
    rcases hcases field with hsame | ⟨hnone, text, hsome⟩
    · rw [hsame]
    · rw [hnone, hsome]
      refine iff_of_true (fun value hvalue => ⟨text, ?_⟩) fun value hvalue => ?_
      · exact (Option.some.inj hvalue).symm
      · exact absurd hvalue.symm (Option.some_ne_none value)
  · rw [nsTimestamp, nsTimestamp]
    rcases hcases "timestamp" with hsame | ⟨hnone, text, hsome⟩
    · rw [hsame]
    · rw [hnone, hsome]

/-- The text of the enriched map. -/
lemma enrich_eq (hbrace : java "\x7b" <+: rawLine) (hread : mapper.readValue rawLine = some (some logMap))
    {text : JString} (hwrite : mapper.writeValueAsString (some (logMap.putAllIfAbsent labels)) = some text) :
    mapper.enrich (some labels) rawLine = text := by
  rw [Mapper.enrich, if_pos hbrace, hread, Option.getD_some]
  simp only [hwrite, Option.getD_some]

/-- Every reader of a pushed JSON line finds its own fields, and its labels where it has none. Text
labels change neither what the numbers of a query select, nor the time, nor whether a tail throws. -/
theorem labels_fill_in (hlabels : TextValues labels) (hbrace : java "\x7b" <+: rawLine)
    (hread : mapper.readValue rawLine = some (some logMap))
    (htrip : RoundTrips mapper (logMap.putAllIfAbsent labels)) :
    ∃ enriched, mapper.readMap (mapper.enrich (some labels) rawLine) = some (some enriched) ∧
      FilledIn labels (objectOf logMap) enriched := by
  obtain ⟨text, hwrite, -, hback⟩ := htrip
  refine ⟨_, ?_, filledIn hlabels logMap⟩
  rw [enrich_eq hbrace hread hwrite, Mapper.readMap, hback]
  rfl

/-- A line that is left as it is, or that the mapper can read again after the labels are put in. -/
def ReadsBack (mapper : Mapper) (labels : Option (List (JString × Option Json))) (rawLine : JString) :
    Prop :=
  java "\x7b" <+: rawLine → ∀ doc, mapper.readValue rawLine = some doc →
    ∃ m, doc = some m ∧ RoundTrips mapper (m.putAllIfAbsent (labels.getD []))

lemma enrich_twice {labels : Option (List (JString × Option Json))} (h : ReadsBack mapper labels rawLine) :
    mapper.enrich labels (mapper.enrich labels rawLine) = mapper.enrich labels rawLine := by
  by_cases hbrace : java "\x7b" <+: rawLine
  · cases hread : mapper.readValue rawLine with
    | none =>
      have hself : mapper.enrich labels rawLine = rawLine := by
        rw [Mapper.enrich, if_pos hbrace, hread]
      rw [hself, hself]
    | some doc =>
      obtain ⟨m, rfl, text, hwrite, hbrace', hback⟩ := h hbrace doc hread
      have henriched : ∀ line, java "\x7b" <+: line → ∀ m', mapper.readValue line = some (some m') →
          m'.putAllIfAbsent (labels.getD []) = m.putAllIfAbsent (labels.getD []) →
            mapper.enrich labels line = text := by
        intro line hline m' hm' hsame
        rw [Mapper.enrich, if_pos hline, hm']
        simp only [hsame, hwrite, Option.getD_some]
      rw [henriched rawLine hbrace m hread rfl]
      exact henriched text hbrace' _ hback (putAllIfAbsent_twice m _)
  · have hself : mapper.enrich labels rawLine = rawLine := by rw [Mapper.enrich, if_neg hbrace]
    rw [hself, hself]

/-- What a stream leaves: its lines as they were ingested. -/
def PushStream.settled (mapper : Mapper) (s : PushStream) : PushStream :=
  { s with lines := s.enriched mapper }

/-- A request that sends the ingested lines again under the same labels has the same lines. -/
theorem push_again {streams : List PushStream}
    (h : ∀ s ∈ streams, ∀ line ∈ s.lines, ReadsBack mapper s.labels line) :
    pushedLines mapper (streams.map (PushStream.settled mapper)) = pushedLines mapper streams := by
  have hstream : ∀ s ∈ streams, (s.settled mapper).enriched mapper = s.enriched mapper := by
    intro s hs
    rw [PushStream.settled, PushStream.enriched, PushStream.enriched, List.map_map]
    exact List.map_congr_left fun line hline => enrich_twice (h s hs line hline)
  rw [pushedLines, pushedLines, List.flatMap_map]
  exact List.flatMap_congr hstream

end labels

section samples

def statusLine : JString := java "\x7b\"status\":500\x7d"

def statusMap : JsonMap := ⟨[(java "status", some (.number (.integer 500) (java "500")))], by simp⟩

def hostLabels : List (JString × Option Json) :=
  [(java "host", some (.string (java "a"))), (java "status", some (.string (java "b")))]

def hostLine : JString := java "\x7b\"status\":500,\"host\":\"a\"\x7d"

/-- It reads the line before and after the labels, and writes the map that has both keys. -/
def statusMapper : Mapper where
  readValue text :=
    if text = statusLine then some (some statusMap)
    else if text = hostLine then some (some (statusMap.putAllIfAbsent hostLabels)) else none
  writeValueAsString m :=
    if m.map LinkedMap.keys = some [java "status", java "host"] then some hostLine else none

lemma roundTrips_host : RoundTrips statusMapper (statusMap.putAllIfAbsent hostLabels) :=
  ⟨hostLine, by decide +kernel, by decide +kernel, by
    have hne : hostLine ≠ statusLine := by decide +kernel
    simp only [statusMapper, if_neg hne, if_pos trivial]⟩

lemma textValues_host : TextValues hostLabels := by
  simp [TextValues, hostLabels]

theorem labels_fill_in_sample :
    ∃ enriched, statusMapper.readMap (statusMapper.enrich (some hostLabels) statusLine) =
        some (some enriched) ∧ FilledIn hostLabels (objectOf statusMap) enriched :=
  labels_fill_in textValues_host (by decide +kernel) rfl roundTrips_host

theorem push_again_sample :
    pushedLines statusMapper ([⟨some hostLabels, [statusLine, java "plain"]⟩].map
        (PushStream.settled statusMapper)) =
      pushedLines statusMapper [⟨some hostLabels, [statusLine, java "plain"]⟩] := by
  apply push_again
  simp only [List.forall_mem_cons, List.not_mem_nil, false_imp_iff, implies_true, and_true]
  constructor
  · intro _ doc hdoc
    obtain rfl : some statusMap = doc := Option.some.inj hdoc
    exact ⟨statusMap, rfl, roundTrips_host⟩
  · intro hbrace
    exact absurd hbrace (by decide +kernel)

end samples

end Eureka.Gateway
