import Mathlib
import Eureka.LogQLParser

/-! A LogQL query made of a stream selector and one line filter. All three patterns search the
whole text, so what a number pattern does not find in the selector it looks for in the text of the
filter. -/
namespace Eureka.LogQL
open RegexSearch Regex JavaText

def streamSelector (body : JString) : JString := java "\x7b" ++ body ++ java "\x7d"

def quotedText (t : JString) : JString := doubleQuote :: (t ++ [doubleQuote])

/-- The selector with the line filter for a text. -/
def filterQuery (selector t : JString) : JString := selector ++ (java " |= " ++ quotedText t)

/-- The query gives the text of the filter, and the numbers that are read from it are those of the
selector. -/
def FiltersText (selector t : JString) : Prop :=
  parse (filterQuery selector t) = t ∧
    statusVal (filterQuery selector t) = statusVal selector ∧
    latencyVal (filterQuery selector t) = latencyVal selector

instance (selector t : JString) : Decidable (FiltersText selector t) :=
  inferInstanceAs (Decidable (_ ∧ _ ∧ _))

/-- The start of a line filter, up to the quote before its text. -/
def openingPattern : Regex JChar :=
  .seq (lit (java "|=")) (.seq spaces (.char (· = doubleQuote)))

/-- What follows the first start of a line filter. -/
def afterOpening (s : JString) : Option JString := (leftmost openingPattern s).map Prod.snd

/-- The text up to the next quote, in a query that goes on with a line filter. -/
def openText (v : JString) : JString := (v ++ java " |= ").takeWhile (· ≠ doubleQuote)

section numbers
variable {keyword : String} {op quotes : Regex JChar} {c : JChar}

/-- A comparison is searched in the selector and then in the quoted text. -/
lemma find_filterQuery (hc : (java keyword).head? = some c) (hgap : c ∉ java "\x7d |= ")
    (hbrace : accepts 0x7d#16 (comparison keyword op quotes) = false) (body t : JString) :
    find (comparison keyword op quotes) (filterQuery (streamSelector body) t) =
      (find (comparison keyword op quotes) (streamSelector body)).or
        (find (comparison keyword op quotes) (quotedText t)) := by
  have hquery : filterQuery (streamSelector body) t =
      (java "\x7b" ++ body) ++ 0x7d#16 :: (java " |= " ++ quotedText t) := by
    rw [filterQuery, streamSelector, List.append_assoc]
    rfl
  have hrest : find (comparison keyword op quotes) (0x7d#16 :: (java " |= " ++ quotedText t)) =
      find (comparison keyword op quotes) (quotedText t) :=
    @find_skip_letter keyword op quotes (quotedText t) (java "\x7d |= ") c hc hgap
  have hlast : find (comparison keyword op quotes) [0x7d#16] = none := by
    refine find_eq_none (not_keyword (List.mem_of_mem_head? hc) fun h => hgap ?_)
    rw [List.mem_singleton.mp h]
    exact List.mem_cons_self
  have hselector := find_append hbrace (java "\x7b" ++ body) []
  rw [hlast, Option.or_none] at hselector
  rw [hquery, find_append hbrace, hrest, streamSelector]
  exact congrArg (fun g => Option.or g _) hselector.symm

lemma groupInt_filterQuery (hc : (java keyword).head? = some c) (hgap : c ∉ java "\x7d |= ")
    (hbrace : accepts 0x7d#16 (comparison keyword op quotes) = false) (group : ℕ)
    (body t : JString) :
    groupInt (comparison keyword op quotes) group (filterQuery (streamSelector body) t) =
        groupInt (comparison keyword op quotes) group (streamSelector body) ↔
      (find (comparison keyword op quotes) (streamSelector body) = none →
        groupInt (comparison keyword op quotes) group (quotedText t) = none) := by
  rw [groupInt, groupInt, find_filterQuery hc hgap hbrace]
  cases find (comparison keyword op quotes) (streamSelector body) with
  | none => simp [groupInt]
  | some groups => simp

lemma statusVal_filterQuery (body t : JString) :
    statusVal (filterQuery (streamSelector body) t) = statusVal (streamSelector body) ↔
      (find statusPattern (streamSelector body) = none → statusVal (quotedText t) = none) :=
  groupInt_filterQuery (c := 0x73#16) rfl (by decide) (by decide) 2 body t

lemma latencyVal_filterQuery (body t : JString) :
    latencyVal (filterQuery (streamSelector body) t) = latencyVal (streamSelector body) ↔
      (find latencyPattern (streamSelector body) = none → latencyVal (quotedText t) = none) :=
  groupInt_filterQuery (c := 0x6c#16) rfl (by decide) (by decide) 2 body t

end numbers

section filters
variable {s v : JString}

lemma opening_outcome {o : List JString × JString} (h : first openingPattern s = some o) :
    ∃ gap, (∀ c ∈ gap, isSpace c = true) ∧ s = java "|=" ++ (gap ++ doubleQuote :: o.2) := by
  obtain ⟨w, hw, rfl⟩ := exists_outcome_iff.mp ⟨o.1, List.mem_of_mem_head? h⟩
  obtain ⟨a, ha, b, hb, rfl⟩ := mem_lang_seq.mp hw
  obtain ⟨gap, hgap, d, ⟨q, hq, rfl⟩, rfl⟩ := mem_lang_seq.mp hb
  rw [(mem_lang_lit _).mp ha, of_decide_eq_true hq]
  exact ⟨gap, hgap, by simp⟩

lemma space_stop {rest : JString} : ∀ c, (doubleQuote :: rest).head? = some c → isSpace c = false := by
  intro c hc
  rw [← Option.some.inj hc]
  rfl

/-- A line filter is matched from its start to the next quote. -/
lemma first_lineFilter {gap text rest : JString} (hgap : ∀ c ∈ gap, isSpace c = true)
    (htext : doubleQuote ∉ text) :
    first lineFilterPattern (java "|=" ++ (gap ++ doubleQuote :: (text ++ doubleQuote :: rest))) =
      some ([text], rest) := by
  have hquote : ∀ tail, first (.char (· = doubleQuote)) (doubleQuote :: tail) =
      some (([] : List JString), tail) := fun tail => first_char (decide_eq_true rfl)
  have hrun : first (.star (· ≠ doubleQuote)) (text ++ doubleQuote :: rest) =
      some ([], doubleQuote :: rest) := by
    refine first_star (fun c hc => decide_eq_true fun heq => htext (heq ▸ hc)) fun c hc => ?_
    rw [← Option.some.inj hc]
    exact decide_eq_false (not_not.mpr rfl)
  have hafter := first_seq (hquote _) (first_seq (first_group hrun) (hquote rest))
  exact first_seq (first_lit (java "|=")) (first_seq (first_star hgap space_stop) hafter)

lemma first_lineFilter_none (h : first openingPattern s = none) :
    first lineFilterPattern s = none := by
  refine first_eq_none fun w hw hpre => ?_
  obtain ⟨a, ha, b, hb, rfl⟩ := mem_lang_seq.mp hw
  obtain ⟨gap, hgap, d, hd, rfl⟩ := mem_lang_seq.mp hb
  obtain ⟨q, hq, e, -, rfl⟩ := mem_lang_seq.mp hd
  have hopening : a ++ (gap ++ q) ∈ lang openingPattern :=
    mem_lang_seq.mpr ⟨a, ha, gap ++ q, mem_lang_seq.mpr ⟨gap, hgap, q, hq, rfl⟩, rfl⟩
  have hshorter : a ++ (gap ++ q) <+: a ++ (gap ++ (q ++ e)) := ⟨e, by simp only [List.append_assoc]⟩
  have hsome := first_isSome_iff.mpr ⟨_, hopening, hshorter.trans hpre⟩
  rw [h] at hsome
  exact Bool.false_ne_true hsome

lemma takeWhile_quote (u rest : JString) : (u ++ doubleQuote :: rest).takeWhile (· ≠ doubleQuote) =
    u.takeWhile (· ≠ doubleQuote) := by
  induction u with
  | nil => simp
  | cons c u ih =>
    rw [List.cons_append, List.takeWhile_cons, List.takeWhile_cons, ih]

lemma takeWhile_text {t : JString} (h : doubleQuote ∉ t) : t.takeWhile (· ≠ doubleQuote) = t :=
  List.takeWhile_eq_self_iff.mpr fun _ hc => decide_eq_true fun heq => h (heq ▸ hc)

/-- The first start of a line filter decides its text. -/
lemma lineFilterText_of_opening (h : afterOpening s = some v) (hv : doubleQuote ∈ v) :
    lineFilterText s = some (v.takeWhile (· ≠ doubleQuote)) := by
  obtain ⟨o, ho, rfl⟩ := Option.map_eq_some_iff.mp h
  obtain ⟨text, rest, hsplit, htext⟩ := List.eq_append_cons_of_mem hv
  have hfind : find lineFilterPattern s = some [text] := by
    clear h
    induction s with
    | nil =>
      obtain ⟨gap, -, hnil⟩ := opening_outcome ho
      exact absurd hnil (by simp [java, widen, ByteText.ascii])
    | cons c cs ih =>
      rw [leftmost] at ho
      cases hfirst : first openingPattern (c :: cs) with
      | none =>
        rw [hfirst, Option.none_or] at ho
        rw [find, first_lineFilter_none hfirst]
        exact ih ho
      | some o' =>
        rw [hfirst, Option.some_or] at ho
        obtain rfl := Option.some.inj ho
        obtain ⟨gap, hgap, hs⟩ := opening_outcome hfirst
        rw [hs, hsplit]
        exact find_of_first (first_lineFilter hgap htext)
  rw [lineFilterText, hfind, hsplit, takeWhile_quote, takeWhile_text htext]
  rfl

/-- No start of a line filter goes beyond a stream selector. -/
lemma afterOpening_append (body rest : JString) :
    afterOpening (streamSelector body ++ rest) =
      ((afterOpening (streamSelector body)).map fun v => v ++ rest).or (afterOpening rest) := by
  have hbrace : accepts 0x7d#16 openingPattern = false := by decide
  have hskip : ∀ tail, leftmost openingPattern (0x7d#16 :: tail) = leftmost openingPattern tail := by
    intro tail
    have hfirst := first_append hbrace [] tail
    have hnil : first openingPattern [] = none := rfl
    rw [hnil, Option.map_none, List.nil_append] at hfirst
    rw [leftmost, hfirst, Option.none_or]
  have hempty : leftmost openingPattern [] = none := rfl
  have hquery : streamSelector body ++ rest = (java "\x7b" ++ body) ++ 0x7d#16 :: rest := by
    rw [streamSelector, List.append_assoc]
    rfl
  have hselector : streamSelector body = (java "\x7b" ++ body) ++ [0x7d#16] := rfl
  rw [hquery, afterOpening, leftmost_append hbrace, hskip, hselector, afterOpening,
    leftmost_append hbrace, hskip, hempty, Option.or_none, Option.map_or, Option.map_map,
    Option.map_map, Option.map_map, ← afterOpening]
  congr 2
  funext o
  exact (List.append_assoc o.2 [0x7d#16] rest).symm

lemma afterOpening_filter (t : JString) :
    afterOpening (java " |= " ++ quotedText t) = some (t ++ [doubleQuote]) := by
  have hspace : java " |= " ++ quotedText t =
      0x20#16 :: (java "|=" ++ ([0x20#16] ++ doubleQuote :: (t ++ [doubleQuote]))) := rfl
  have hnone : first openingPattern (java " |= " ++ quotedText t) = none := by
    cases hfirst : first openingPattern (java " |= " ++ quotedText t) with
    | none => rfl
    | some o =>
      obtain ⟨gap, -, heq⟩ := opening_outcome hfirst
      exact absurd (List.cons.inj heq).1 (by decide)
  have hopening : first openingPattern
      (java "|=" ++ ([0x20#16] ++ doubleQuote :: (t ++ [doubleQuote]))) =
        some ([], t ++ [doubleQuote]) :=
    first_seq (first_lit (java "|=")) (first_seq
      (first_star (List.forall_mem_singleton.mpr rfl) space_stop) (first_char (decide_eq_true rfl)))
  rw [hspace] at hnone ⊢
  rw [afterOpening, leftmost, hnone, Option.none_or]
  exact congrArg (Option.map Prod.snd) (leftmost_of_first hopening)

/-- The line filter is the one that is written, unless the selector starts one before. -/
lemma lineFilterText_filterQuery (body : JString) {t : JString} (ht : doubleQuote ∉ t) :
    lineFilterText (filterQuery (streamSelector body) t) =
      some (((afterOpening (streamSelector body)).map openText).getD t) := by
  have hopening := afterOpening_append body (java " |= " ++ quotedText t)
  rw [afterOpening_filter] at hopening
  cases h : afterOpening (streamSelector body) with
  | none =>
    rw [h] at hopening
    rw [filterQuery, lineFilterText_of_opening hopening (by simp), takeWhile_quote,
      takeWhile_text ht]
    rfl
  | some v =>
    have hquote : v ++ (java " |= " ++ quotedText t) =
        (v ++ java " |= ") ++ doubleQuote :: (t ++ [doubleQuote]) := (List.append_assoc ..).symm
    rw [h, Option.map_some, Option.some_or, hquote] at hopening
    rw [filterQuery, lineFilterText_of_opening hopening (by simp), takeWhile_quote]
    rfl

end filters

/-- What the patterns find in the selector and in the quoted text keeps to the filter. -/
structure Unmistaken (selector t : JString) : Prop where
  status : find statusPattern selector = none → statusVal (quotedText t) = none
  latency : find latencyPattern selector = none → latencyVal (quotedText t) = none
  opening : statusVal selector = none → latencyVal selector = none →
    ∀ v ∈ afterOpening selector, openText v = t
  numbers : (statusVal selector).isSome = true ∨ (latencyVal selector).isSome = true →
    synthesize (statusVal selector) (latencyVal selector) = t

lemma not_isBlank_filterQuery (body t : JString) :
    ¬ isBlank (filterQuery (streamSelector body) t) = true := by
  intro h
  have hbrace := List.all_eq_true.mp h 0x7b#16 List.mem_cons_self
  exact absurd (of_decide_eq_true hbrace) (by decide)

/-- With the selector's numbers, the output is the filter's text or the selector's query. -/
lemma parse_filterQuery {body t : JString} (ht : doubleQuote ∉ t)
    (hs : statusVal (filterQuery (streamSelector body) t) = statusVal (streamSelector body))
    (hl : latencyVal (filterQuery (streamSelector body) t) = latencyVal (streamSelector body)) :
    parse (filterQuery (streamSelector body) t) =
      if (statusVal (streamSelector body)).isSome ∨ (latencyVal (streamSelector body)).isSome then
        synthesize (statusVal (streamSelector body)) (latencyVal (streamSelector body))
      else ((afterOpening (streamSelector body)).map openText).getD t := by
  split_ifs with hnumbers
  · rw [parse_numbers (by rwa [hs, hl]), hs, hl]
  · obtain ⟨hs', hl'⟩ := not_or.mp hnumbers
    rw [Option.not_isSome_iff_eq_none] at hs' hl'
    rw [parse_text (hs.trans hs') (hl.trans hl'), if_neg (not_isBlank_filterQuery body t),
      lineFilterText_filterQuery body ht, Option.getD_some]

/-- The filter's text comes back, and is read as nothing else, exactly if no number pattern that
finds nothing in the selector finds an integer in the quoted text, and the selector by itself
neither gives a query nor starts a line filter that reads another text. -/
theorem filtersText_iff (body : JString) {t : JString} (ht : doubleQuote ∉ t) :
    FiltersText (streamSelector body) t ↔ Unmistaken (streamSelector body) t := by
  constructor
  · rintro ⟨hparse, hs, hl⟩
    rw [parse_filterQuery ht hs hl] at hparse
    refine ⟨(statusVal_filterQuery body t).mp hs, (latencyVal_filterQuery body t).mp hl, ?_, ?_⟩
    · intro hs' hl' v hv
      rw [hs', hl', Option.mem_def.mp hv] at hparse
      exact hparse
    · intro hnumbers
      rwa [if_pos hnumbers] at hparse
  · intro h
    have hs := (statusVal_filterQuery body t).mpr h.status
    have hl := (latencyVal_filterQuery body t).mpr h.latency
    refine ⟨?_, hs, hl⟩
    rw [parse_filterQuery ht hs hl]
    split_ifs with hnumbers
    · exact h.numbers hnumbers
    · obtain ⟨hs', hl'⟩ := not_or.mp hnumbers
      rw [Option.not_isSome_iff_eq_none] at hs' hl'
      cases hopening : afterOpening (streamSelector body) with
      | none => rfl
      | some v => exact h.opening hs' hl' v hopening

theorem filtersText_iff_sample :
    FiltersText (streamSelector (java "job=\"app\"")) (java "Database timeout") ↔
      Unmistaken (streamSelector (java "job=\"app\"")) (java "Database timeout") :=
  filtersText_iff (java "job=\"app\"") (by decide)

/-- The text of a filter is taken for a status selector. -/
theorem filter_read_as_status :
    statusVal (streamSelector (java "job=\"app\"")) = none ∧
      latencyVal (streamSelector (java "job=\"app\"")) = none ∧
      doubleQuote ∉ java "status=500" ∧
      parse (filterQuery (streamSelector (java "job=\"app\"")) (java "status=500")) =
        java "status == 500" ∧
      ¬ FiltersText (streamSelector (java "job=\"app\"")) (java "status=500") := by
  decide

end Eureka.LogQL
