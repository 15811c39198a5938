import Mathlib
import Eureka.SynthesizedQuery

/-! The translation of a translation. A query of numbers is its own translation, so what the parser
makes of any text settles after two applications. -/
namespace Eureka.LogQL
open RegexSearch Regex JavaText

variable {logql : JString} {status latency : Option ℕ}

/-- An operator before a space is matched unless an earlier one stands there. -/
lemma first_group_operators {before after : List String} {op : String}
    (hbefore : ∀ v ∈ before, ∀ rest, ¬ java v <+: java op ++ (java " " ++ rest)) (rest : JString) :
    first (.group (operators (before ++ op :: after))) (java op ++ (java " " ++ rest)) =
      some ([java op], java " " ++ rest) := by
  refine first_group ?_
  rw [operators, List.map_append, List.map_cons]
  refine first_oneOf (java op) fun v hv => ?_
  obtain ⟨v', hv', rfl⟩ := List.mem_map.mp hv
  exact hbefore v' hv' rest

lemma groupInt_found {pattern : Regex JChar} {op s : JString} {target : Option ℕ}
    (hfind : find pattern s = target.map fun n => [op] ++ [number n])
    (hle : ∀ n, target = some n → n ≤ 2147483647) : groupInt pattern 2 s = target := by
  rw [groupInt, hfind]
  cases target with
  | none => rfl
  | some n =>
    show parseInt (number n) = some n
    rw [parseInt_number, if_pos (hle n rfl)]

/-- The numbers are read back by the patterns that found them. -/
lemma numbers_synthesize (hs : ∀ n, status = some n → n ≤ 2147483647)
    (hl : ∀ m, latency = some m → m ≤ 2147483647) :
    statusVal (synthesize status latency) = status ∧
      latencyVal (synthesize status latency) = latency := by
  have hequal := @first_group_operators ["=~", "!="] ["="] "==" (by
    intro v hv rest
    fin_cases hv <;> simp [java, widen, ByteText.ascii])
  have habove := @first_group_operators [">=", "<="] ["<", "==", "="] ">" (by
    intro v hv rest
    fin_cases hv <;> simp [java, widen, ByteText.ascii])
  exact ⟨groupInt_found (find_status_written mayOmit_optionalQuote hequal status latency) hs,
    groupInt_found (find_latency_written mayOmit_optionalQuote habove status latency) hl⟩

/-- A query of numbers is its own translation. -/
theorem parse_synthesize (hs : ∀ n, status = some n → n ≤ 2147483647)
    (hl : ∀ m, latency = some m → m ≤ 2147483647) :
    parse (synthesize status latency) = synthesize status latency := by
  obtain ⟨hstatus, hlatency⟩ := numbers_synthesize hs hl
  by_cases hsome : status.isSome = true ∨ latency.isSome = true
  · rw [parse_numbers (by rwa [hstatus, hlatency]), hstatus, hlatency]
  · obtain ⟨hn, hm⟩ := not_or.mp hsome
    rw [Option.not_isSome_iff_eq_none.mp hn, Option.not_isSome_iff_eq_none.mp hm]
    rfl

/-- The text of a line filter holds no quote. -/
lemma quote_notMem_lineFilter {text : JString} (h : lineFilterText logql = some text) :
    doubleQuote ∉ text := by
  obtain ⟨groups, hfind, hgroup⟩ := Option.bind_eq_some_iff.mp h
  obtain ⟨s, rest, ho⟩ := exists_outcome_of_find hfind
  obtain ⟨o₁, ho₁, o₂, ho₂, heq⟩ := mem_outcomes_seq.mp ho
  obtain ⟨o₃, ho₃, o₄, ho₄, rfl⟩ := mem_outcomes_seq.mp ho₂
  obtain ⟨o₅, ho₅, o₆, ho₆, rfl⟩ := mem_outcomes_seq.mp ho₄
  obtain ⟨o₇, ho₇, o₈, ho₈, rfl⟩ := mem_outcomes_seq.mp ho₆
  obtain ⟨w, hw, hcapture⟩ := outcomes_group_star ho₇
  have hgroups : groups = [w] := by
    rw [(Prod.mk.inj heq).1, captures_eq_nil (by decide) ho₁, captures_eq_nil rfl ho₃,
      captures_eq_nil rfl ho₅, captures_eq_nil rfl ho₈, hcapture]
    rfl
  rw [hgroups, List.getElem?_cons_zero, Option.some.injEq] at hgroup
  intro hmem
  exact of_decide_eq_true (hw doubleQuote (hgroup ▸ hmem)) rfl

lemma lineFilterText_none {text : JString} (h : doubleQuote ∉ text) : lineFilterText text = none := by
  rw [lineFilterText, Option.bind_eq_none_iff]
  intro groups hfind
  have hsome : (find lineFilterPattern text).isSome = true := by rw [hfind]; rfl
  obtain ⟨w, hw, hpart⟩ := find_isSome_iff.mp hsome
  obtain ⟨a, -, b, hb, rfl⟩ := mem_lang_seq.mp hw
  obtain ⟨gap, -, d, hd, rfl⟩ := mem_lang_seq.mp hb
  obtain ⟨q, ⟨c, hc, rfl⟩, e, -, rfl⟩ := mem_lang_seq.mp hd
  refine absurd (hpart.subset ?_) h
  rw [← of_decide_eq_true hc]
  simp

/-- The translation of a text without quotes is the query of its numbers. -/
lemma parse_unquoted {text : JString} (h : doubleQuote ∉ text) :
    parse text = synthesize (statusVal text) (latencyVal text) := by
  by_cases hsome : (statusVal text).isSome = true ∨ (latencyVal text).isSome = true
  · exact parse_numbers hsome
  · obtain ⟨hn, hm⟩ := not_or.mp hsome
    rw [Option.not_isSome_iff_eq_none] at hn hm
    rw [parse_text hn hm, lineFilterText_none h, hn, hm, Option.getD_none, ite_self]
    rfl

/-- Whatever the text, its second translation is final; the first one is where it has a number. -/
theorem parse_settles (logql : JString) : parse (parse (parse logql)) = parse (parse logql) ∧
    ((statusVal logql).isSome = true ∨ (latencyVal logql).isSome = true →
      parse (parse logql) = parse logql) := by
  have hfinal : ∀ text, parse (synthesize (statusVal text) (latencyVal text)) =
      synthesize (statusVal text) (latencyVal text) :=
    fun text => parse_synthesize (fun _ => groupInt_le) (fun _ => groupInt_le)
  by_cases hsome : (statusVal logql).isSome = true ∨ (latencyVal logql).isSome = true
  · have hfirst : parse (parse logql) = parse logql := by
      rw [parse_numbers hsome]
      exact hfinal logql
    exact ⟨by rw [hfirst, hfirst], fun _ => hfirst⟩
  · obtain ⟨hn, hm⟩ := not_or.mp hsome
    rw [Option.not_isSome_iff_eq_none] at hn hm
    have hquote : doubleQuote ∉ parse logql := by
      rw [parse_text hn hm]
      split_ifs
      · exact List.not_mem_nil
      · cases hfilter : lineFilterText logql with
        | none => exact List.not_mem_nil
        | some text => exact quote_notMem_lineFilter hfilter
    refine ⟨?_, fun h => absurd h hsome⟩
    rw [parse_unquoted hquote]
    exact hfinal (parse logql)

end Eureka.LogQL
