import Mathlib
import Eureka.JavaText
import Eureka.NumericQueries

/-! `LogQLParser`: a LogQL query becomes the query string of the core service. The dispatcher
reads back the numbers that the parser extracted. -/
namespace Eureka.LogQL
open WordBytes ByteText RegexSearch Regex JavaText Dispatcher

def statusPattern : Regex JChar :=
  comparison "status" (.group (operators ["=~", "!=", "==", "="])) optionalQuote

def latencyPattern : Regex JChar :=
  comparison "latency" (.group (operators [">=", "<=", ">", "<", "==", "="])) optionalQuote

def lineFilterPattern : Regex JChar :=
  .seq (lit (java "|=")) (.seq spaces (.seq (.char (· = doubleQuote))
    (.seq (.group (.star (· ≠ doubleQuote))) (.char (· = doubleQuote)))))

/-- The integer in a group of the first match; `none` also where `parseInt` throws. -/
def groupInt (pattern : Regex JChar) (group : ℕ) (s : JString) : Option ℕ :=
  (RegexSearch.find pattern s).bind fun groups => groups[group - 1]?.bind parseInt

def statusVal (logql : JString) : Option ℕ := groupInt statusPattern 2 logql

def latencyVal (logql : JString) : Option ℕ := groupInt latencyPattern 2 logql

def lineFilterText (logql : JString) : Option JString :=
  (RegexSearch.find lineFilterPattern logql).bind fun groups => groups[0]?

/-- What the query builder holds after the two numbers. -/
def synthesize (status latency : Option ℕ) : JString :=
  let query :=
    match status with
    | none => []
    | some n => java "status == " ++ number n
  match latency with
  | none => query
  | some m => (if 0 < query.length then query ++ java " AND " else query) ++
      (java "latency > " ++ number m)

def parse (logql : JString) : JString :=
  if isBlank logql then []
  else
    let query := synthesize (statusVal logql) (latencyVal logql)
    if 0 < query.length then query else (lineFilterText logql).getD []

/-- The query that the numbers stand for. -/
def selected : Option ℕ → Option ℕ → Option Query
  | none, none => none
  | some n, none => some (.single (.status n))
  | none, some m => some (.single (.latency m))
  | some n, some m => some (.both (.status n) (.latency m))

variable {logql : JString} {status latency : Option ℕ}

lemma synthesize_none : synthesize none none = [] := rfl

lemma synthesize_eq {q : Query} (h : selected status latency = some q) :
    synthesize status latency = widen q.text := by
  cases status with
  | none =>
    cases latency with
    | none => exact absurd h (by simp [selected])
    | some m =>
      rw [← Option.some.inj h]
      exact (widen_append _ _).symm
  | some n =>
    have hpos : 0 < (java "status == " ++ number n).length := by
      rw [List.length_append]
      exact Nat.add_pos_left (by decide) _
    cases latency with
    | none =>
      rw [← Option.some.inj h]
      exact (widen_append _ _).symm
    | some m =>
      rw [← Option.some.inj h]
      simp only [synthesize, if_pos hpos, Query.text, Atom.text, widen_append, List.append_assoc]
      rfl

lemma selected_isSome (h : status.isSome = true ∨ latency.isSome = true) :
    ∃ q, selected status latency = some q := by
  cases status with
  | some n => cases latency <;> exact ⟨_, rfl⟩
  | none =>
    cases latency with
    | some m => exact ⟨_, rfl⟩
    | none => exact absurd h (by simp)

lemma text_ne_nil (q : Query) : q.text ≠ [] := by
  obtain ⟨a, x, h⟩ := text_start q
  rw [h]
  exact List.append_ne_nil_of_left_ne_nil (keyword_word a).2 x

/-- The text of a query is below 0x80. -/
lemma text_ascii (q : Query) : ∀ c ∈ q.text, c < 0x80#8 := by
  have hatom : ∀ a : Atom, ∀ c ∈ a.text, c < 0x80#8 := by
    intro a c hc
    rcases mem_atom hc with h | h
    · have hall : ∀ d ∈ ascii "status == latency > ", d < 0x80#8 := by decide
      exact hall c h
    · simp only [ByteText.isDigit, decide_eq_true_eq, BitVec.le_def, BitVec.lt_def] at h ⊢
      simp only [BitVec.toNat_ofNat] at h ⊢
      omega
  have hpair : ∀ (a b : Atom) (mid : Bytes), (∀ c ∈ mid, c < 0x80#8) →
      ∀ c ∈ a.text ++ (mid ++ b.text), c < 0x80#8 := by
    intro a b mid hmid c hc
    rcases List.mem_append.mp hc with h | h
    · exact hatom a c h
    · rcases List.mem_append.mp h with h | h
      · exact hmid c h
      · exact hatom b c h
  cases q with
  | single a => exact hatom a
  | both a b => exact hpair a b _ (by decide)
  | either a b => exact hpair a b _ (by decide)

/-- A text with a comparison is not blank. -/
lemma not_isBlank_of_find {keyword : String} {op quotes : Regex JChar} {c : JChar}
    (hc : c ∈ java keyword) (hvisible : ¬ c ≤ 0x20#16)
    (h : (RegexSearch.find (comparison keyword op quotes) logql).isSome = true) :
    ¬ isBlank logql = true := by
  intro hblank
  have hmem := (keyword_of_find h).subset hc
  exact hvisible (of_decide_eq_true (List.all_eq_true.mp hblank c hmem))

lemma find_isSome_of_groupInt {pattern : Regex JChar} {group : ℕ}
    (h : (groupInt pattern group logql).isSome = true) :
    (RegexSearch.find pattern logql).isSome = true := by
  unfold groupInt at h
  cases hf : RegexSearch.find pattern logql with
  | none => rw [hf] at h; exact h
  | some groups => rfl

lemma not_isBlank (h : (statusVal logql).isSome = true ∨ (latencyVal logql).isSome = true) :
    ¬ isBlank logql = true := by
  rcases h with h | h
  · have hfind := find_isSome_of_groupInt h
    exact not_isBlank_of_find (c := 0x73#16) (by decide) (by decide) hfind
  · have hfind := find_isSome_of_groupInt h
    exact not_isBlank_of_find (c := 0x6c#16) (by decide) (by decide) hfind

/-- Where a number was found, the output is the conjunction of the numbers. -/
theorem parse_numbers (h : (statusVal logql).isSome = true ∨ (latencyVal logql).isSome = true) :
    parse logql = synthesize (statusVal logql) (latencyVal logql) := by
  obtain ⟨q, hq⟩ := selected_isSome h
  have hpos : 0 < (synthesize (statusVal logql) (latencyVal logql)).length := by
    rw [synthesize_eq hq]
    exact List.length_pos_of_ne_nil (by simpa [widen] using text_ne_nil q)
  simp only [parse, if_neg (not_isBlank h), if_pos hpos]

/-- Without a number it is the text of the line filter. -/
theorem parse_text (hs : statusVal logql = none) (hl : latencyVal logql = none) :
    parse logql = if isBlank logql then [] else (lineFilterText logql).getD [] := by
  simp only [parse, hs, hl, synthesize_none, List.length_nil, lt_self_iff_false, if_false]

lemma selected_scan {q : Query} (h : selected status latency = some q)
    (hs : ∀ n, status = some n → n ≤ 2147483647) (hl : ∀ m, latency = some m → m ≤ 2147483647) :
    q.scan = (status.getD 0, latency.getD 0) := by
  have hrange : ∀ n, n ≤ 2147483647 → n < 2 ^ 64 := fun n hn => by omega
  cases status with
  | none =>
    cases latency with
    | none => exact absurd h (by simp [selected])
    | some m =>
      have hm : (Atom.latency m).InRange := hrange m (hl m rfl)
      rw [← Option.some.inj h]
      simp [Query.scan, Query.atoms, Atom.scan, hm]
  | some n =>
    have hn : (Atom.status n).InRange := hrange n (hs n rfl)
    cases latency with
    | none =>
      rw [← Option.some.inj h]
      simp [Query.scan, Query.atoms, Atom.scan, hn]
    | some m =>
      have hm : (Atom.latency m).InRange := hrange m (hl m rfl)
      rw [← Option.some.inj h]
      simp [Query.scan, Query.atoms, Atom.scan, hn, hm]

lemma groupInt_le {pattern : Regex JChar} {group n : ℕ}
    (h : groupInt pattern group logql = some n) : n ≤ 2147483647 := by
  obtain ⟨groups, -, hgroup⟩ := Option.bind_eq_some_iff.mp h
  obtain ⟨digits, -, hdigits⟩ := Option.bind_eq_some_iff.mp hgroup
  exact parseInt_le hdigits

/-- The dispatcher reads from the parser's output the numbers that the parser found. -/
theorem parse_understood
    (h : (statusVal logql).isSome = true ∨ (latencyVal logql).isSome = true) :
    parseQuery (utf8 (parse logql)) = some ⟨.bitSlicedNumericalLogic, [],
      BitVec.ofNat 64 ((statusVal logql).getD 0), BitVec.ofNat 64 ((latencyVal logql).getD 0)⟩ := by
  obtain ⟨q, hq⟩ := selected_isSome h
  rw [parse_numbers h, synthesize_eq hq, utf8_widen (text_ascii q), parseQuery_text,
    selected_scan hq (fun _ => groupInt_le) (fun _ => groupInt_le)]

theorem parse_understood_sample :
    parseQuery (utf8 (parse (java "\x7bstatus=\"500\", latency=\"200\"\x7d"))) =
      some ⟨.bitSlicedNumericalLogic, [], 500#64, 200#64⟩ := by
  have h := @parse_understood (java "\x7bstatus=\"500\", latency=\"200\"\x7d") (Or.inl (by decide))
  have hs : statusVal (java "\x7bstatus=\"500\", latency=\"200\"\x7d") = some 500 := by decide
  have hl : latencyVal (java "\x7bstatus=\"500\", latency=\"200\"\x7d") = some 200 := by decide
  rwa [hs, hl] at h

end Eureka.LogQL
