import Mathlib
import Eureka.Dispatcher

/-! `parse_query` with every access to a string checked, and what it returns for a search
text in quotes. -/
namespace Eureka.Dispatcher
open WordBytes ByteText

/-- How an access to a string fails: `front` or `back` of an empty string is undefined,
`substr` past the end throws out of a function that may not throw. -/
inductive Fault
  | emptyString
  | outOfRange
  deriving DecidableEq, Repr

def front : Bytes → Except Fault Byte
  | [] => .error .emptyString
  | c :: _ => .ok c

def back (s : Bytes) : Except Fault Byte :=
  match s.getLast? with
  | none => .error .emptyString
  | some c => .ok c

def substr (s : Bytes) (pos count : ℕ) : Except Fault Bytes :=
  if s.length < pos then .error .outOfRange else .ok ((s.drop pos).take count)

/-- A difference of sizes, which wraps around. -/
def sizeSub (a b : ℕ) : ℕ := if b ≤ a then a - b else a + 2 ^ 64 - b

def checkedStripQuotes (s : Bytes) : Except Fault Bytes := do
  if (← front s) = quote then
    if (← back s) = quote then substr s 1 (sizeSub s.length 2)
    else return s
  else return s

def checkedParseString (q : Bytes) : Except Fault Bytes := do
  if (ascii "contains(").isPrefixOf q then
    if (← back q) = 0x29#8 then
      let inner ← substr q 9 (sizeSub q.length 10)
      checkedStripQuotes (trim inner)
    else checkedStripQuotes q
  else checkedStripQuotes q

def checkedTakeTerm (op : Bytes) (set : Targets → Bytes → Targets) (word : Bytes)
    (rest : List Bytes) (t : Targets) : Except Fault (List Bytes × Targets) := do
  match find op word with
  | some pos =>
    let val ← substr word (pos + op.length) word.length
    if val = [] then
      match rest with
      | [] => return ([], set t [])
      | val :: rest => return (rest, set t val)
    else return (rest, set t val)
  | none =>
    match rest with
    | _ :: val :: rest => return (rest, set t val)
    | _ => return ([], t)

section

lemma find_le {op word : Bytes} {pos : ℕ} (h : find op word = some pos) :
    pos + op.length ≤ word.length := by
  induction word generalizing pos with
  | nil =>
    rw [find] at h
    split_ifs at h with hop
    obtain rfl : 0 = pos := by simpa using h
    simp [hop]
  | cons c cs ih =>
    rw [find] at h
    split_ifs at h with hpre
    · obtain rfl : 0 = pos := by simpa using h
      have := (List.isPrefixOf_iff_prefix.mp hpre).length_le
      omega
    · obtain ⟨q, hq, rfl⟩ := Option.map_eq_some_iff.mp h
      have := ih hq
      rw [List.length_cons]
      omega

lemma checkedTakeTerm_eq (op : Bytes) (set : Targets → Bytes → Targets) (word : Bytes)
    (rest : List Bytes) (t : Targets) :
    checkedTakeTerm op set word rest t = .ok (takeTerm op set word rest t) := by
  unfold checkedTakeTerm takeTerm
  cases hf : find op word with
  | none =>
    cases rest with
    | nil => rfl
    | cons w rest => cases rest <;> rfl
  | some pos =>
    have hle := find_le hf
    have htake : (word.drop (pos + op.length)).take word.length = word.drop (pos + op.length) :=
      List.take_of_length_le (by rw [List.length_drop]; omega)
    simp only [substr, if_neg (Nat.not_lt.mpr hle), htake]
    by_cases hval : word.drop (pos + op.length) = []
    · cases rest <;> simp [hval, bind, Except.bind, pure, Except.pure]
    · simp [hval, bind, Except.bind, pure, Except.pure]

end

/-- The token loop. -/
def checkedParseTerms : List Bytes → Targets → Except Fault Targets
  | [], t => .ok t
  | word :: rest, t =>
    if contains (ascii "status") word then
      match _h : checkedTakeTerm (ascii "==") Targets.setStatus word rest t with
      | .error e => .error e
      | .ok left => checkedParseTerms left.1 left.2
    else if contains (ascii "latency") word then
      match _h : checkedTakeTerm (ascii ">") Targets.setLatency word rest t with
      | .error e => .error e
      | .ok left => checkedParseTerms left.1 left.2
    else checkedParseTerms rest t
termination_by ws => ws.length
decreasing_by
  · rw [checkedTakeTerm_eq] at _h
    have := takeTerm_length (ascii "==") Targets.setStatus word rest t
    rw [← Except.ok.inj _h]
    exact Nat.lt_succ_of_le this
  · rw [checkedTakeTerm_eq] at _h
    have := takeTerm_length (ascii ">") Targets.setLatency word rest t
    rw [← Except.ok.inj _h]
    exact Nat.lt_succ_of_le this
  · exact Nat.lt_succ_self _

def checkedParseQuery (queryStr : Bytes) : Except Fault ParsedQuery := do
  let q := trim queryStr
  if ¬ isNumerical q then
    let pattern ← checkedParseString q
    return ⟨.scalarStringSearch, pattern, 0, 0⟩
  else
    let t ← checkedParseTerms (words (cleanConnectives q)) ⟨0, 0⟩
    return ⟨.bitSlicedNumericalLogic, [], t.status, t.latency⟩

section
variable {α : Type*}

/-- The only failure that can be reached. -/
def orEmptyString : Option α → Except Fault α
  | none => .error .emptyString
  | some a => .ok a

lemma orEmptyString_ok_iff (x : Option α) : (∃ a, orEmptyString x = .ok a) ↔ x ≠ none := by
  cases x <;> simp [orEmptyString]

/-- Where the size wraps around, nothing is left to take. -/
lemma take_sizeSub (s : Bytes) (k : ℕ) :
    (s.drop k).take (sizeSub s.length (k + 1)) = (s.drop k).take (s.length - (k + 1)) := by
  unfold sizeSub
  split_ifs with h
  · rfl
  · rw [List.drop_eq_nil_of_le (by omega), List.take_nil, List.take_nil]

lemma checkedStripQuotes_eq (s : Bytes) : checkedStripQuotes s = orEmptyString (stripQuotes s) := by
  cases s with
  | nil => rfl
  | cons c cs =>
    have hback : back (c :: cs) = .ok ((c :: cs).getLast (List.cons_ne_nil c cs)) := by
      rw [back, List.getLast?_eq_getLast_of_ne_nil (List.cons_ne_nil c cs)]
    have hsub : substr (c :: cs) 1 (sizeSub (c :: cs).length 2) =
        .ok (((c :: cs).drop 1).take ((c :: cs).length - 2)) := by
      rw [substr, if_neg (by simp), take_sizeSub]
    simp only [checkedStripQuotes, front, hback, hsub, stripQuotes, List.head?_cons,
      List.getLast?_eq_getLast_of_ne_nil (List.cons_ne_nil c cs), Option.some.injEq,
      bind, Except.bind, pure, Except.pure, reduceCtorEq, if_false]
    split_ifs <;> first | rfl | tauto

lemma checkedParseString_eq (q : Bytes) :
    checkedParseString q = orEmptyString (parseString q) := by
  unfold checkedParseString parseString
  by_cases hpre : (ascii "contains(").isPrefixOf q
  · have hne : q ≠ [] := by
      rintro rfl
      revert hpre
      decide
    have hle : 9 ≤ q.length := (List.isPrefixOf_iff_prefix.mp hpre).length_le
    have hsub : substr q 9 (sizeSub q.length 10) = .ok ((q.drop 9).take (q.length - 10)) := by
      rw [substr, if_neg (Nat.not_lt.mpr hle), take_sizeSub]
    simp only [hpre, back, hsub, List.getLast?_eq_getLast_of_ne_nil hne, Option.some.injEq,
      bind, Except.bind, checkedStripQuotes_eq, if_true, true_and]
    split_ifs <;> rfl
  · simp only [hpre, checkedStripQuotes_eq, false_and, if_false, Bool.false_eq_true]

lemma checkedParseTerms_eq (ws : List Bytes) (t : Targets) :
    checkedParseTerms ws t = .ok (parseTerms ws t) := by
  induction ws, t using parseTerms.induct with
  | case1 t => rw [checkedParseTerms, parseTerms]
  | case2 word rest t hs ih =>
    rw [checkedParseTerms, parseTerms, if_pos hs, if_pos hs, ← ih]
    split
    · rename_i h
      rw [checkedTakeTerm_eq] at h
      cases h
    · rename_i h
      rw [checkedTakeTerm_eq] at h
      rw [← Except.ok.inj h]
  | case3 word rest t hs hl ih =>
    rw [checkedParseTerms, parseTerms, if_neg hs, if_neg hs, if_pos hl, if_pos hl, ← ih]
    split
    · rename_i h
      rw [checkedTakeTerm_eq] at h
      cases h
    · rename_i h
      rw [checkedTakeTerm_eq] at h
      rw [← Except.ok.inj h]
  | case4 word rest t hs hl ih =>
    rw [checkedParseTerms, parseTerms, if_neg hs, if_neg hs, if_neg hl, if_neg hl, ih]

/-- The checked parser is the parser; `substr` never throws. -/
theorem checkedParseQuery_eq (queryStr : Bytes) :
    checkedParseQuery queryStr = orEmptyString (parseQuery queryStr) := by
  unfold checkedParseQuery parseQuery
  simp only [checkedParseString_eq, checkedParseTerms_eq]
  split_ifs
  · rfl
  · cases parseString (trim queryStr) <;> rfl

end

section classification

/-- A byte of none of the comparison operators. -/
def Plain (c : Byte) : Prop := c ≠ 0x3d#8 ∧ c ≠ 0x3e#8 ∧ c ≠ 0x3c#8

instance : DecidablePred Plain := fun c =>
  inferInstanceAs (Decidable (c ≠ 0x3d#8 ∧ c ≠ 0x3e#8 ∧ c ≠ 0x3c#8))

lemma prefix_append_plain {pat v : Bytes} (hv : ∀ c ∈ pat, c ∉ v) (s : Bytes) :
    pat <+: s ++ v ↔ pat <+: s := by
  constructor
  · intro h
    rcases List.prefix_or_prefix_of_prefix h (List.prefix_append s v) with hs | ⟨t, rfl⟩
    · exact hs
    · cases t with
      | nil => rw [List.append_nil]
      | cons c t =>
        have ht := (List.prefix_append_right_inj s).mp h
        have hc := hv c (List.mem_append_right s List.mem_cons_self)
        exact absurd (ht.subset List.mem_cons_self) hc
  · exact fun h => h.trans (List.prefix_append s v)

/-- Text behind, without a byte of the pattern, changes nothing. -/
lemma contains_append_plain {p : Byte} {ps v : Bytes} (hv : ∀ c ∈ p :: ps, c ∉ v) (s : Bytes) :
    contains (p :: ps) (s ++ v) = contains (p :: ps) s := by
  induction s with
  | nil =>
    exact contains_of_notMem (hv p List.mem_cons_self)
  | cons c s ih =>
    have hpre : (p :: ps).isPrefixOf (c :: (s ++ v)) = (p :: ps).isPrefixOf (c :: s) := by
      rw [Bool.eq_iff_iff, List.isPrefixOf_iff_prefix, List.isPrefixOf_iff_prefix]
      exact prefix_append_plain hv (c :: s)
    simp only [contains, List.cons_append, find, hpre] at ih ⊢
    split_ifs
    · rfl
    · rw [Option.isSome_map, Option.isSome_map, ih]

/-- What stands around a text decides nothing about its comparisons. -/
lemma isNumerical_wrap {u v : Bytes} (hu : ∀ c ∈ u, Plain c) (hv : ∀ c ∈ v, Plain c) (p : Bytes) :
    isNumerical (u ++ (p ++ v)) = isNumerical p := by
  have heq : ∀ s : Bytes, (∀ c ∈ s, Plain c) → 0x3d#8 ∉ s := fun s h hm => (h _ hm).1 rfl
  have hgt : ∀ s : Bytes, (∀ c ∈ s, Plain c) → 0x3e#8 ∉ s := fun s h hm => (h _ hm).2.1 rfl
  have hlt : ∀ s : Bytes, (∀ c ∈ s, Plain c) → 0x3c#8 ∉ s := fun s h hm => (h _ hm).2.2 rfl
  have hwrap : ∀ (c : Byte) (cs : Bytes), c ∉ u → (∀ d ∈ c :: cs, d ∉ v) →
      contains (c :: cs) (u ++ (p ++ v)) = contains (c :: cs) p := by
    intro c cs hcu hcv
    rw [contains_skip hcu, contains_append_plain hcv]
  have h1 : contains (ascii "==") (u ++ (p ++ v)) = contains (ascii "==") p :=
    hwrap 0x3d#8 [0x3d#8] (heq u hu) (by simpa using heq v hv)
  have h2 : contains (ascii ">") (u ++ (p ++ v)) = contains (ascii ">") p :=
    hwrap 0x3e#8 [] (hgt u hu) (by simpa using hgt v hv)
  have h3 : contains (ascii "<") (u ++ (p ++ v)) = contains (ascii "<") p :=
    hwrap 0x3c#8 [] (hlt u hu) (by simpa using hlt v hv)
  rw [isNumerical, isNumerical, h1, h2, h3]

end classification

section wrapped

/-- The call form around a text. -/
def containsCall (inner : Bytes) : Bytes := ascii "contains(" ++ (inner ++ ascii ")")

def quoted (p : Bytes) : Bytes := quote :: (p ++ [quote])

lemma stripQuotes_quoted (p : Bytes) : stripQuotes (quoted p) = some p := by
  have hlast : (quoted p).getLast? = some quote := by
    rw [quoted, ← List.cons_append, List.getLast?_concat]
  have hhead : (quoted p).head? = some quote := rfl
  have hne : quoted p ≠ [] := List.cons_ne_nil _ _
  rw [stripQuotes, if_neg hne, if_pos ⟨hhead, hlast⟩]
  simp [quoted]

lemma stripQuotes_eq_none_iff (s : Bytes) : stripQuotes s = none ↔ s = [] := by
  unfold stripQuotes
  split_ifs with h1 h2
  · exact iff_of_true rfl h1
  · exact iff_of_false (by simp) h1
  · exact iff_of_false (by simp) h1

lemma getLast_containsCall (inner : Bytes) : (containsCall inner).getLast? = some 0x29#8 := by
  rw [containsCall, ← List.append_assoc]
  exact List.getLast?_concat

lemma parseString_containsCall (inner : Bytes) :
    parseString (containsCall inner) = stripQuotes (trim inner) := by
  have hpre : (ascii "contains(").isPrefixOf (containsCall inner) = true :=
    List.isPrefixOf_iff_prefix.mpr (List.prefix_append _ _)
  have hmid : ((containsCall inner).drop 9).take ((containsCall inner).length - 10) = inner := by
    have hlen : (containsCall inner).length - 10 = inner.length := by
      simp [containsCall, ascii]
    rw [hlen, containsCall, List.drop_left' (by rfl), List.take_left' rfl]
  rw [parseString, if_pos ⟨hpre, getLast_containsCall inner⟩, hmid]

/-- Only the call form takes the first branch. -/
lemma parseString_of_ne (q : Bytes) (h : ∀ inner, q ≠ containsCall inner) :
    parseString q = stripQuotes q := by
  unfold parseString
  apply if_neg
  rintro ⟨hpre, hlast⟩
  obtain ⟨s, rfl⟩ := List.isPrefixOf_iff_prefix.mp hpre
  cases s using List.reverseRecOn with
  | nil =>
    revert hlast
    decide
  | append_singleton inner c =>
    rw [← List.append_assoc, List.getLast?_concat, Option.some.injEq] at hlast
    exact h inner (by rw [hlast]; rfl)

lemma trim_eq_nil_iff (s : Bytes) : trim s = [] ↔ ∀ c ∈ s, isSpace c = true := by
  rw [trim, List.rdropWhile_eq_nil_iff]
  constructor
  · intro h c hc
    rw [← List.takeWhile_append_dropWhile (p := isSpace) (l := s), List.mem_append] at hc
    rcases hc with hc | hc
    · exact List.mem_takeWhile_imp hc
    · exact h c hc
  · exact fun h c hc => h c (List.dropWhile_sublist _ |>.subset hc)

/-- The bytes around the inner text and a blank inner text carry no comparison. -/
lemma isNumerical_containsCall (inner : Bytes) :
    isNumerical (containsCall inner) = isNumerical inner :=
  isNumerical_wrap (by decide) (by decide) inner

lemma isNumerical_blank {inner : Bytes} (h : ∀ c ∈ inner, isSpace c = true) :
    isNumerical inner = false := by
  have hplain : ∀ c : Byte, isSpace c = true → Plain c := by decide
  have hw := isNumerical_wrap (fun c hc => hplain c (h c hc)) (v := []) (by simp) []
  rw [List.append_nil, List.append_nil] at hw
  exact hw.trans (by decide)

lemma containsCall_inj {a b : Bytes} (h : containsCall a = containsCall b) : a = b :=
  List.append_cancel_right (List.append_cancel_left h)

lemma parseString_eq_none_iff (q : Bytes) :
    parseString q = none ↔
      q = [] ∨ ∃ inner, (∀ c ∈ inner, isSpace c = true) ∧ q = containsCall inner := by
  by_cases hcall : ∃ inner, q = containsCall inner
  · obtain ⟨inner, rfl⟩ := hcall
    have hne : containsCall inner ≠ [] := List.cons_ne_nil _ _
    rw [parseString_containsCall, stripQuotes_eq_none_iff, trim_eq_nil_iff]
    constructor
    · exact fun h => Or.inr ⟨inner, h, rfl⟩
    · rintro (h | ⟨inner', h, he⟩)
      · exact absurd h hne
      · rwa [containsCall_inj he]
  · rw [not_exists] at hcall
    rw [parseString_of_ne q hcall, stripQuotes_eq_none_iff]
    exact ⟨Or.inl, fun h => h.resolve_right fun ⟨inner, _, he⟩ => hcall inner he⟩

lemma parseQuery_eq_none_iff (queryStr : Bytes) :
    parseQuery queryStr = none ↔ parseString (trim queryStr) = none := by
  have hnum : parseString (trim queryStr) = none → isNumerical (trim queryStr) = false := by
    rw [parseString_eq_none_iff]
    rintro (h | ⟨inner, hinner, h⟩)
    · rw [h]
      decide
    · rw [h, isNumerical_containsCall, isNumerical_blank hinner]
  rw [parseQuery]
  cases h : isNumerical (trim queryStr) with
  | true => simpa [h] using hnum
  | false => simp

/-- The parser reads no empty string unless the query is blank or asks for a blank text. -/
theorem checkedParseQuery_ok_iff (queryStr : Bytes) :
    (∃ r, checkedParseQuery queryStr = .ok r) ↔
      trim queryStr ≠ [] ∧
        ∀ inner : Bytes, (∀ c ∈ inner, isSpace c = true) →
          trim queryStr ≠ ascii "contains(" ++ (inner ++ ascii ")") := by
  rw [checkedParseQuery_eq, orEmptyString_ok_iff, Ne, parseQuery_eq_none_iff,
    parseString_eq_none_iff, not_or, not_exists]
  apply and_congr_right
  intro _
  apply forall_congr'
  intro inner
  exact not_and

/-- The empty query, which the front end sends for a selector without filters. -/
theorem checkedParseQuery_empty :
    ¬ ∀ queryStr : Bytes, ∃ r, checkedParseQuery queryStr = .ok r := by
  intro h
  obtain ⟨r, hr⟩ := h []
  cases hr

lemma trim_quoted {u v : Bytes} (hu : ∀ c ∈ u, isSpace c = true) (hv : ∀ c ∈ v, isSpace c = true)
    (p : Bytes) : trim (u ++ (quoted p ++ v)) = quoted p :=
  trim_pad (a := quote) (z := quote) hu hv rfl (by decide)
    (List.getLast?_concat (l := quote :: p)) (by decide)

lemma trim_containsCall {u v : Bytes} (hu : ∀ c ∈ u, isSpace c = true)
    (hv : ∀ c ∈ v, isSpace c = true) (inner : Bytes) :
    trim (u ++ (containsCall inner ++ v)) = containsCall inner :=
  trim_pad (a := 0x63#8) hu hv rfl (by decide) (getLast_containsCall inner) (by decide)

lemma isNumerical_quoted (p : Bytes) : isNumerical (quoted p) = isNumerical p :=
  isNumerical_wrap (u := [quote]) (by decide) (by decide) p

lemma quoted_ne_containsCall (p inner : Bytes) : quoted p ≠ containsCall inner := by
  intro h
  have hhead : quote = 0x63#8 := (List.cons.inj h).1
  revert hhead
  decide

/-- Both spellings of a search for a text. -/
def searchForms (p : Bytes) : List Bytes := [containsCall (quoted p), quoted p]

/-- A search text is kept if it has no comparison; with one, the query is a numeric filter. -/
theorem parseQuery_searchForms {u v : Bytes} (hu : ∀ c ∈ u, isSpace c = true)
    (hv : ∀ c ∈ v, isSpace c = true) (p : Bytes) :
    ∀ form ∈ searchForms p,
      (isNumerical p = false →
        parseQuery (u ++ (form ++ v)) = some ⟨.scalarStringSearch, p, 0, 0⟩) ∧
      (isNumerical p = true →
        ∃ t : Targets, parseQuery (u ++ (form ++ v)) =
          some ⟨.bitSlicedNumericalLogic, [], t.status, t.latency⟩) := by
  have hpat : ∀ form ∈ searchForms p, parseString form = some p ∧
      trim (u ++ (form ++ v)) = form ∧ isNumerical form = isNumerical p := by
    intro form hform
    rcases List.mem_pair.mp hform with rfl | rfl
    · have htrim := trim_quoted (u := []) (v := []) (by simp) (by simp) p
      rw [List.nil_append, List.append_nil] at htrim
      refine ⟨?_, trim_containsCall hu hv _, ?_⟩
      · rw [parseString_containsCall, htrim, stripQuotes_quoted]
      · rw [isNumerical_containsCall, isNumerical_quoted]
    · refine ⟨?_, trim_quoted hu hv p, isNumerical_quoted p⟩
      rw [parseString_of_ne _ (quoted_ne_containsCall p), stripQuotes_quoted]
  intro form hform
  obtain ⟨hparse, htrim, hclass⟩ := hpat form hform
  constructor
  · intro hp
    simp [parseQuery, htrim, hclass, hp, hparse]
  · intro hp
    refine ⟨parseTerms (words (cleanConnectives form)) ⟨0, 0⟩, ?_⟩
    simp [parseQuery, htrim, hclass, hp]

theorem parseQuery_searchForms_error :
    parseQuery (ascii " \t" ++ (containsCall (quoted (ascii "GET /a (\"x\") 500")) ++ ascii "\n")) =
        some ⟨.scalarStringSearch, ascii "GET /a (\"x\") 500", 0, 0⟩ ∧
      parseQuery (ascii " \t" ++ (quoted (ascii "GET /a (\"x\") 500") ++ ascii "\n")) =
        some ⟨.scalarStringSearch, ascii "GET /a (\"x\") 500", 0, 0⟩ := by
  have h := @parseQuery_searchForms (ascii " \t") (ascii "\n") (by decide) (by decide)
    (ascii "GET /a (\"x\") 500")
  exact ⟨(h _ List.mem_cons_self).1 (by decide),
    (h _ (List.mem_cons_of_mem _ List.mem_cons_self)).1 (by decide)⟩

/-- A search for an arrow becomes a numeric filter. -/
theorem parseQuery_arrow :
    ¬ ∀ p u v : Bytes, (∀ c ∈ u, isSpace c = true) → (∀ c ∈ v, isSpace c = true) →
      ∀ form ∈ searchForms p,
        parseQuery (u ++ (form ++ v)) = some ⟨.scalarStringSearch, p, 0, 0⟩ := by
  intro h
  have hq := h (ascii "->") [] [] (by simp) (by simp) (quoted (ascii "->")) (by decide)
  have hnum : isNumerical (trim ([] ++ (quoted (ascii "->") ++ []))) = true := by decide
  rw [parseQuery, if_neg (not_not.mpr hnum)] at hq
  cases hq

end wrapped

end Eureka.Dispatcher
