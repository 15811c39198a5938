import Mathlib
import Eureka.SynthesizedQuery

/-! The meaning of LogQL selectors against the conjunction that the parser writes. The operator
stands in its own group of the match, and no part of the output depends on it. -/
namespace Eureka.LogQL
open RegexSearch Regex JavaText Pipeline Dispatcher

/-- On a plain number `=~` is equality. -/
inductive StatusOp
  | isLike
  | ne
  | eqeq
  | eq
  deriving DecidableEq, Repr

/-- Without `=` and `==`, which the parser takes for `>`. -/
inductive LatencyOp
  | ge
  | le
  | gt
  | lt
  deriving DecidableEq, Repr

def StatusOp.text : StatusOp → String
  | .isLike => "=~"
  | .ne => "!="
  | .eqeq => "=="
  | .eq => "="

def LatencyOp.text : LatencyOp → String
  | .ge => ">="
  | .le => "<="
  | .gt => ">"
  | .lt => "<"

def StatusOp.holds (value n : ℕ) : StatusOp → Bool
  | .ne => value ≠ n
  | _ => value = n

def LatencyOp.holds (value m : ℕ) : LatencyOp → Bool
  | .ge => m ≤ value
  | .le => value ≤ m
  | .gt => m < value
  | .lt => value < m

structure Selectors where
  status : Option (StatusOp × ℕ)
  latency : Option (LatencyOp × ℕ)

def Selectors.Holds (sel : Selectors) (r : LogRecord) : Prop :=
  (∀ x ∈ sel.status, x.1.holds r.status.toNat x.2 = true) ∧
    ∀ x ∈ sel.latency, x.1.holds r.latency.toNat x.2 = true

/-- What a pattern finds in a query: nothing, or an operator and an integer. -/
def Extracts (pattern : Regex JChar) (logql : JString) : Option (String × ℕ) → Prop
  | none => find pattern logql = none
  | some (op, n) => ∃ digits, find pattern logql = some [java op, digits] ∧ parseInt digits = some n

/-- The selectors of a query that is not a text search. -/
structure Selectors.StandIn (sel : Selectors) (logql : JString) : Prop where
  status : Extracts statusPattern logql (sel.status.map fun x => (x.1.text, x.2))
  latency : Extracts latencyPattern logql (sel.latency.map fun x => (x.1.text, x.2))
  numeric : sel.status ≠ none ∨ sel.latency ≠ none ∨ lineFilterText logql = none

def Conjunction (status latency : Option ℕ) (r : LogRecord) : Prop :=
  (∀ n ∈ status, (Atom.status n).holds r = true) ∧ ∀ m ∈ latency, (Atom.latency m).holds r = true

/-- The output is a conjunction that the same records satisfy. -/
def PreservesMeaning (sel : Selectors) (logql : JString) : Prop :=
  ∃ status latency, parse logql = synthesize status latency ∧
    ∀ r, sel.Holds r ↔ Conjunction status latency r

/-- The operators that the output keeps. -/
def Selectors.Kept (sel : Selectors) : Prop :=
  (∀ x ∈ sel.status, x.1 ≠ .ne) ∧ ∀ x ∈ sel.latency, x.1 = .gt

lemma groupInt_of_extracts {pattern : Regex JChar} {logql : JString} {sel : Option (String × ℕ)}
    (h : Extracts pattern logql sel) : groupInt pattern 2 logql = sel.map Prod.snd := by
  cases sel with
  | none =>
    have hnone : find pattern logql = none := h
    rw [groupInt, hnone]
    rfl
  | some x =>
    obtain ⟨digits, hfind, hparse⟩ := h
    rw [groupInt, hfind]
    exact hparse

lemma number_injective {n n' : ℕ} (h : number n = number n') : n = n' := by
  have hvalue := congrArg digitsValue h
  rwa [number, number, digitsValue_widen, digitsValue_widen, ByteText.digitsValue_decimal,
    ByteText.digitsValue_decimal] at hvalue

lemma map_number_injective {a b : Option ℕ}
    (h : (a.map fun n => ([] : List JString) ++ [number n]) = b.map fun n => [] ++ [number n]) :
    a = b := by
  refine Option.map_injective (fun n n' hn => ?_) h
  exact number_injective (List.singleton_inj.mp hn)

/-- The output determines the two numbers. -/
theorem synthesize_injective {status latency status' latency' : Option ℕ}
    (h : synthesize status latency = synthesize status' latency') :
    status = status' ∧ latency = latency' := by
  have hs := @find_status_synthesize (lit (java "==")) [] fun rest => first_lit (java "==")
  have hl := @find_latency_synthesize (lit (java ">")) [] fun rest => first_lit (java ">")
  refine ⟨map_number_injective ?_, map_number_injective ?_⟩
  · rw [← hs status latency, h, hs]
  · rw [← hl status latency, h, hl]

section translation
variable {sel : Selectors} {logql : JString}

lemma Selectors.StandIn.parse_eq (h : sel.StandIn logql) :
    parse logql = synthesize (sel.status.map Prod.snd) (sel.latency.map Prod.snd) := by
  have hs : statusVal logql = sel.status.map Prod.snd := by
    rw [statusVal, groupInt_of_extracts h.status, Option.map_map]
    rfl
  have hl : latencyVal logql = sel.latency.map Prod.snd := by
    rw [latencyVal, groupInt_of_extracts h.latency, Option.map_map]
    rfl
  by_cases hsome : (statusVal logql).isSome = true ∨ (latencyVal logql).isSome = true
  · rw [parse_numbers hsome, hs, hl]
  · obtain ⟨hs', hl'⟩ := not_or.mp hsome
    rw [Option.not_isSome_iff_eq_none] at hs' hl'
    have hfilter : lineFilterText logql = none := by
      rw [hs] at hs'
      rw [hl] at hl'
      rcases h.numeric with hne | hne | hnone
      · exact absurd (Option.map_eq_none_iff.mp hs') hne
      · exact absurd (Option.map_eq_none_iff.mp hl') hne
      · exact hnone
    rw [parse_text hs' hl', hfilter, ← hs, ← hl, hs', hl']
    exact ite_self _

/-- The output is the conjunction with `==` and `>`, whatever the operators were. -/
theorem preservesMeaning_iff (h : sel.StandIn logql) : PreservesMeaning sel logql ↔
    ∀ r, sel.Holds r ↔ Conjunction (sel.status.map Prod.snd) (sel.latency.map Prod.snd) r := by
  constructor
  · rintro ⟨status, latency, hparse, hmeaning⟩
    obtain ⟨rfl, rfl⟩ := synthesize_injective (h.parse_eq.symm.trans hparse)
    exact hmeaning
  · intro hmeaning
    exact ⟨_, _, h.parse_eq, hmeaning⟩

end translation

/-- A record with these two values. -/
def recordWith (status latency : ℕ) : LogRecord := ⟨BitVec.ofNat 64 status, BitVec.ofNat 64 latency⟩

section meaning
variable {sel : Selectors}

lemma recordWith_status {status latency : ℕ} (h : status ≤ 2147483648) :
    (recordWith status latency).status.toNat = status := by
  simp only [recordWith, BitVec.toNat_ofNat]
  omega

lemma recordWith_latency {status latency : ℕ} (h : latency ≤ 2147483648) :
    (recordWith status latency).latency.toNat = latency := by
  simp only [recordWith, BitVec.toNat_ofNat]
  omega

lemma Selectors.StandIn.status_le {logql : JString} (h : sel.StandIn logql) :
    ∀ x ∈ sel.status, x.2 ≤ 2147483647 := by
  intro x hx
  have hextracts := h.status
  rw [Option.mem_def.mp hx] at hextracts
  obtain ⟨digits, -, hparse⟩ := hextracts
  exact parseInt_le hparse

lemma Selectors.StandIn.latency_le {logql : JString} (h : sel.StandIn logql) :
    ∀ x ∈ sel.latency, x.2 ≤ 2147483647 := by
  intro x hx
  have hextracts := h.latency
  rw [Option.mem_def.mp hx] at hextracts
  obtain ⟨digits, -, hparse⟩ := hextracts
  exact parseInt_le hparse

lemma statusOp_holds {op : StatusOp} (hop : op ≠ .ne) (value n : ℕ) :
    op.holds value n = decide (value = n) := by
  cases op with
  | ne => exact absurd rfl hop
  | isLike | eqeq | eq => rfl

/-- The status that a record needs for the output. -/
def Selectors.statusNumber (sel : Selectors) : ℕ := (sel.status.map Prod.snd).getD 0

def Selectors.latencyNumber (sel : Selectors) : ℕ := (sel.latency.map Prod.snd).getD 0

lemma statusNumber_le (h : ∀ x ∈ sel.status, x.2 ≤ 2147483647) : sel.statusNumber ≤ 2147483647 := by
  unfold Selectors.statusNumber
  cases hs : sel.status with
  | none => exact Nat.zero_le _
  | some x => exact h x hs

lemma latencyNumber_le (h : ∀ x ∈ sel.latency, x.2 ≤ 2147483647) :
    sel.latencyNumber ≤ 2147483647 := by
  unfold Selectors.latencyNumber
  cases hl : sel.latency with
  | none => exact Nat.zero_le _
  | some x => exact h x hl

lemma statusNumber_of_mem {x : StatusOp × ℕ} (hx : x ∈ sel.status) : sel.statusNumber = x.2 := by
  rw [Selectors.statusNumber, Option.mem_def.mp hx]
  rfl

lemma latencyNumber_of_mem {x : LatencyOp × ℕ} (hx : x ∈ sel.latency) :
    sel.latencyNumber = x.2 := by
  rw [Selectors.latencyNumber, Option.mem_def.mp hx]
  rfl

lemma conjunction_above (hs : ∀ x ∈ sel.status, x.2 ≤ 2147483647)
    (hl : ∀ x ∈ sel.latency, x.2 ≤ 2147483647) :
    Conjunction (sel.status.map Prod.snd) (sel.latency.map Prod.snd)
      (recordWith sel.statusNumber (sel.latencyNumber + 1)) := by
  constructor
  · rw [Option.forall_mem_map]
    intro x hx
    have hle := statusNumber_le hs
    rw [Atom.holds, recordWith_status (by omega), statusNumber_of_mem hx]
    exact decide_eq_true rfl
  · rw [Option.forall_mem_map]
    intro x hx
    have hle := latencyNumber_le hl
    rw [Atom.holds, recordWith_latency (by omega), latencyNumber_of_mem hx]
    exact decide_eq_true (Nat.lt_succ_self x.2)

/-- A record at the written latency satisfies `>=` and not its translation. -/
lemma not_kept_ge {n : ℕ} (hs : ∀ x ∈ sel.status, x.1 ≠ .ne ∧ x.2 ≤ 2147483647)
    (hl : sel.latency = some (.ge, n)) (hn : n ≤ 2147483647) :
    sel.Holds (recordWith sel.statusNumber n) ∧
      ¬ Conjunction (sel.status.map Prod.snd) (sel.latency.map Prod.snd)
        (recordWith sel.statusNumber n) := by
  have hle := statusNumber_le fun x hx => (hs x hx).2
  refine ⟨⟨fun x hx => ?_, fun x hx => ?_⟩, fun hconj => ?_⟩
  · rw [statusOp_holds (hs x hx).1, recordWith_status (by omega), statusNumber_of_mem hx]
    exact decide_eq_true rfl
  · obtain rfl : (.ge, n) = x := Option.some.inj (hl.symm.trans hx)
    rw [LatencyOp.holds, recordWith_latency (by omega)]
    exact decide_eq_true le_rfl
  · have hlast := hconj.2 n (by rw [hl]; rfl)
    rw [Atom.holds, recordWith_latency (by omega)] at hlast
    exact absurd (of_decide_eq_true hlast) (lt_irrefl n)

theorem meaning_kept_iff (hs : ∀ x ∈ sel.status, x.2 ≤ 2147483647)
    (hl : ∀ x ∈ sel.latency, x.2 ≤ 2147483647) :
    (∀ r, sel.Holds r ↔ Conjunction (sel.status.map Prod.snd) (sel.latency.map Prod.snd) r) ↔
      sel.Kept := by
  constructor
  · intro h
    have habove := (h _).mpr (conjunction_above hs hl)
    have hne : ∀ x ∈ sel.status, x.1 ≠ .ne := by
      intro x hx hop
      have hholds := habove.1 x hx
      have hle := statusNumber_le hs
      rw [hop, StatusOp.holds, recordWith_status (by omega), statusNumber_of_mem hx] at hholds
      exact absurd rfl (of_decide_eq_true hholds)
    refine ⟨hne, fun x hx => ?_⟩
    obtain ⟨op, n⟩ := x
    have hle := hl _ hx
    have hholds := habove.2 _ hx
    rw [latencyNumber_of_mem hx, recordWith_latency (by omega)] at hholds
    cases op with
    | gt => rfl
    | ge =>
      obtain ⟨hleft, hright⟩ := not_kept_ge (fun x hx => ⟨hne x hx, hs x hx⟩) hx hle
      exact absurd ((h _).mp hleft) hright
    | le => exact absurd (of_decide_eq_true hholds) (Nat.not_succ_le_self n)
    | lt => exact absurd (of_decide_eq_true hholds) (by omega)
  · rintro ⟨hne, hgt⟩ r
    refine and_congr ?_ ?_
    · rw [Option.forall_mem_map]
      refine forall_congr' fun x => forall_congr' fun hx => ?_
      rw [statusOp_holds (hne x hx), Atom.holds]
    · rw [Option.forall_mem_map]
      refine forall_congr' fun x => forall_congr' fun hx => ?_
      rw [hgt x hx, LatencyOp.holds, Atom.holds]

end meaning

section texts

/-- A selector with its number in quotes. -/
def quoted (keyword op : String) (n : ℕ) : JString :=
  java keyword ++ (java op ++ (doubleQuote :: (number n ++ [doubleQuote])))

/-- The stream selector with these parts. -/
def Selectors.text (sel : Selectors) : JString :=
  java "\x7b" ++
    (match sel with
    | ⟨none, none⟩ => []
    | ⟨some s, none⟩ => quoted "status" s.1.text s.2
    | ⟨none, some l⟩ => quoted "latency" l.1.text l.2
    | ⟨some s, some l⟩ =>
      quoted "status" s.1.text s.2 ++ (java ", " ++ quoted "latency" l.1.text l.2)) ++
    java "\x7d"

/-- A quoted number after an operator that is tried with success. -/
lemma written_quoted {ops : List String} {op : String} {d : JChar} (hd : (java op).head? = some d)
    (hspace : isSpace d = false)
    (hop : ∀ rest, first (.group (operators ops)) (java op ++ doubleQuote :: rest) =
      some ([java op], doubleQuote :: rest)) (n : ℕ) (tail : JString) :
    Written (.group (operators ops)) optionalQuote [java op] [] (java op) [] [doubleQuote]
      (number n) [doubleQuote] tail := by
  have hquote : ∀ rest : JString, first optionalQuote ([doubleQuote] ++ rest) = some ([], rest) :=
    fun rest => first_alt_left (first_char (decide_eq_true rfl))
  have hstop : isDigit doubleQuote = false ∧ isSpace doubleQuote = false := ⟨rfl, rfl⟩
  refine ⟨List.forall_mem_nil _, ⟨d, hd, hspace⟩, hop _, List.forall_mem_nil _, ?_, hquote _,
    fun _ hx => isDigit_of_mem_number hx, number_ne_nil n, ?_, hquote _⟩
  · intro x hx
    rw [← Option.some.inj hx]
    exact hstop.2
  · intro x hx
    rw [← Option.some.inj hx]
    exact hstop.1

/-- A quoted selector is extracted when no earlier alternative stands at its operator. -/
lemma extracts_quoted {keyword op : String} (before : List String) {after : List String} {n : ℕ}
    {c d : JChar} {pre : JString} (hn : n ≤ 2147483647) (tail : JString) (hc : (java keyword).head? = some c)
    (hpre : c ∉ pre) (hd : (java op).head? = some d) (hspace : isSpace d = false)
    (hbefore : ∀ v ∈ before, ∀ rest, ¬ java v <+: java op ++ doubleQuote :: rest) :
    Extracts (comparison keyword (.group (operators (before ++ op :: after))) optionalQuote)
      (pre ++ (quoted keyword op n ++ tail)) (some (op, n)) := by
  have hop : ∀ rest, first (.group (operators (before ++ op :: after)))
      (java op ++ doubleQuote :: rest) = some ([java op], doubleQuote :: rest) := by
    intro rest
    refine first_group ?_
    rw [operators, List.map_append, List.map_cons]
    refine first_oneOf (java op) fun v hv => ?_
    obtain ⟨v', hv', rfl⟩ := List.mem_map.mp hv
    exact hbefore v' hv' rest
  have htext : quoted keyword op n ++ tail = java keyword ++ ([] ++ (java op ++ ([] ++
      ([doubleQuote] ++ (number n ++ ([doubleQuote] ++ tail)))))) := by
    simp [quoted]
  refine ⟨number n, ?_, ?_⟩
  · rw [find_skip_letter hc hpre, htext]
    exact find_of_first (first_comparison (written_quoted hd hspace hop n tail))
  · rw [parseInt_number, if_pos hn]

lemma extracts_status (op : StatusOp) {n : ℕ} {pre : JString} (hn : n ≤ 2147483647)
    (tail : JString) (hpre : (0x73#16) ∉ pre) :
    Extracts statusPattern (pre ++ (quoted "status" op.text n ++ tail)) (some (op.text, n)) := by
  cases op with
  | isLike => exact extracts_quoted [] hn tail rfl hpre rfl rfl (by simp)
  | ne =>
    refine extracts_quoted ["=~"] hn tail rfl hpre rfl rfl ?_
    simp [java, widen, ByteText.ascii]
  | eqeq =>
    refine extracts_quoted ["=~", "!="] hn tail rfl hpre rfl rfl ?_
    simp [java, widen, ByteText.ascii]
  | eq =>
    refine extracts_quoted ["=~", "!=", "=="] hn tail rfl hpre rfl rfl ?_
    simp [java, widen, ByteText.ascii, doubleQuote]

lemma extracts_latency (op : LatencyOp) {n : ℕ} {pre : JString} (hn : n ≤ 2147483647)
    (tail : JString) (hpre : (0x6c#16) ∉ pre) :
    Extracts latencyPattern (pre ++ (quoted "latency" op.text n ++ tail)) (some (op.text, n)) := by
  cases op with
  | ge => exact extracts_quoted [] hn tail rfl hpre rfl rfl (by simp)
  | le =>
    refine extracts_quoted [">="] hn tail rfl hpre rfl rfl ?_
    simp [java, widen, ByteText.ascii]
  | gt =>
    refine extracts_quoted [">=", "<="] hn tail rfl hpre rfl rfl ?_
    simp [java, widen, ByteText.ascii, doubleQuote]
  | lt =>
    refine extracts_quoted [">=", "<=", ">"] hn tail rfl hpre rfl rfl ?_
    simp [java, widen, ByteText.ascii, doubleQuote]

lemma notMem_quoted {c : JChar} {keyword op : String} (hkeyword : c ∉ java keyword)
    (hop : c ∉ java op) (hquote : c ≠ doubleQuote) (hc : isDigit c = false) (n : ℕ) :
    c ∉ quoted keyword op n := by
  simp only [quoted, List.mem_append, List.mem_cons, List.not_mem_nil, or_false, not_or]
  exact ⟨hkeyword, hop, hquote, notMem_number hc n, hquote⟩

lemma notMem_status_part (op : StatusOp) (n : ℕ) : (0x6c#16) ∉ quoted "status" op.text n := by
  refine notMem_quoted (by decide) ?_ (by decide) rfl n
  cases op <;> decide

lemma notMem_latency_part (op : LatencyOp) (n : ℕ) : (0x73#16) ∉ quoted "latency" op.text n := by
  refine notMem_quoted (by decide) ?_ (by decide) rfl n
  cases op <;> decide

lemma notMem_append {c : JChar} {a b : JString} (ha : c ∉ a) (hb : c ∉ b) : c ∉ a ++ b := by
  intro h
  rcases List.mem_append.mp h with h | h
  · exact ha h
  · exact hb h

/-- The selectors of a text that is written from them are those it was written from. -/
theorem standIn_text {sel : Selectors} (hs : ∀ x ∈ sel.status, x.2 ≤ 2147483647)
    (hl : ∀ x ∈ sel.latency, x.2 ≤ 2147483647) : sel.StandIn sel.text := by
  obtain ⟨status, latency⟩ := sel
  have hopen : ∀ c, c ≠ 0x7b#16 → c ∉ java "\x7b" := fun c hc h => hc (List.mem_singleton.mp h)
  have hclose : ∀ c, c ≠ 0x7d#16 → c ∉ java "\x7d" := fun c hc h => hc (List.mem_singleton.mp h)
  have hcomma : (0x6c#16) ∉ java ", " := by decide
  cases status with
  | none =>
    cases latency with
    | none =>
      have hstatus : find statusPattern (java "\x7b\x7d") = none := by decide
      have hlatency : find latencyPattern (java "\x7b\x7d") = none := by decide
      exact ⟨hstatus, hlatency, Or.inr (Or.inr (by decide))⟩
    | some l =>
      refine ⟨?_, ?_, Or.inr (Or.inl (by simp))⟩
      · refine find_eq_none (not_keyword (c := 0x73#16) (by decide) ?_)
        exact notMem_append (notMem_append (hopen _ (by decide)) (notMem_latency_part l.1 l.2))
          (hclose _ (by decide))
      · have h := extracts_latency l.1 (hl l rfl) (java "\x7d") (hopen 0x6c#16 (by decide))
        rwa [← List.append_assoc] at h
  | some s =>
    have hstatus : ∀ rest, Extracts statusPattern
        (java "\x7b" ++ (quoted "status" s.1.text s.2 ++ rest)) (some (s.1.text, s.2)) :=
      fun rest => extracts_status s.1 (hs s rfl) rest (hopen 0x73#16 (by decide))
    cases latency with
    | none =>
      refine ⟨?_, ?_, Or.inl (by simp)⟩
      · have h := hstatus (java "\x7d")
        rwa [← List.append_assoc] at h
      · refine find_eq_none (not_keyword (c := 0x6c#16) (by decide) ?_)
        exact notMem_append (notMem_append (hopen _ (by decide)) (notMem_status_part s.1 s.2))
          (hclose _ (by decide))
    | some l =>
      refine ⟨?_, ?_, Or.inl (by simp)⟩
      · have h := hstatus (java ", " ++ quoted "latency" l.1.text l.2 ++ java "\x7d")
        simpa only [Selectors.text, List.append_assoc, Option.map_some] using h
      · have hbefore : (0x6c#16) ∉ java "\x7b" ++ (quoted "status" s.1.text s.2 ++ java ", ") :=
          notMem_append (hopen _ (by decide)) (notMem_append (notMem_status_part s.1 s.2) hcomma)
        have h := extracts_latency l.1 (hl l rfl) (java "\x7d") hbefore
        simpa only [Selectors.text, List.append_assoc, Option.map_some] using h

end texts

/-- The output means what the selectors mean exactly when their operators are an equality and
a `>`. -/
theorem meaning_preserved_iff {sel : Selectors} {logql : JString} (h : sel.StandIn logql) :
    PreservesMeaning sel logql ↔ sel.Kept :=
  (preservesMeaning_iff h).trans (meaning_kept_iff h.status_le h.latency_le)

section samples

def notServerError : Selectors := ⟨some (.ne, 500), none⟩

lemma notServerError_standIn : notServerError.StandIn notServerError.text := by
  refine standIn_text (fun x hx => ?_) (fun x hx => absurd hx (by simp [notServerError]))
  obtain rfl : (.ne, 500) = x := Option.some.inj hx
  decide

theorem meaning_preserved_iff_sample :
    PreservesMeaning notServerError notServerError.text ↔ notServerError.Kept :=
  meaning_preserved_iff notServerError_standIn

/-- The selector excludes the status 500 and its translation asks for it. -/
theorem negated_selector_inverted : notServerError.text = java "\x7bstatus!=\"500\"\x7d" ∧
    notServerError.StandIn notServerError.text ∧
    ¬ PreservesMeaning notServerError notServerError.text := by
  refine ⟨by decide, notServerError_standIn, fun h => ?_⟩
  have hmeaning := (preservesMeaning_iff notServerError_standIn).mp h (recordWith 500 0)
  have hconj : Conjunction (some 500) none (recordWith 500 0) :=
    ⟨fun n hn => by obtain rfl := Option.some.inj hn; decide, fun m hm => absurd hm (by simp)⟩
  have hholds := (hmeaning.mpr hconj).1 (.ne, 500) rfl
  exact absurd hholds (by decide)

end samples

end Eureka.LogQL
