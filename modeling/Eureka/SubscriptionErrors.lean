import Mathlib
import Eureka.TailSubscription

/-! When the constructor of `TailSubscription` throws. It reads its numbers with an unguarded
`parseInt`; the parser, which guards its own, hands on a line filter as it was written. -/
namespace Eureka.Gateway
open RegexSearch Regex JavaText LogQL

variable {q : JString}

/-- The digits that a pattern finds are an int. -/
def FitsInt (pattern : Regex JChar) (text : JString) : Prop :=
  ∀ digits, find pattern text = some [digits] → digitsValue digits ≤ 2147483647

/-- The constructor returns, and both digit runs that it finds are ints. -/
structure Subscribes (q : JString) : Prop where
  returns : (TailSubscription.create q).isSome = true
  status_fits : FitsInt tailStatusPattern (parse q)
  latency_fits : FitsInt tailLatencyPattern (parse q)

/-- The parser has a number of its own, or the line filter has no number that is too large. -/
def Subscribable (q : JString) : Prop :=
  statusVal q = none → latencyVal q = none →
    ∀ text ∈ lineFilterText q, FitsInt tailStatusPattern text ∧ FitsInt tailLatencyPattern text

lemma parseInt_isSome (digits : JString) :
    (parseInt digits).isSome = true ↔ digitsValue digits ≤ 2147483647 := by
  rw [parseInt]
  split_ifs with hle
  · exact iff_of_true rfl hle
  · exact iff_of_false Bool.false_ne_true hle

lemma tailTarget_isSome (pattern : Regex JChar) (text : JString) :
    (tailTarget pattern text).isSome = true ↔ FitsInt pattern text := by
  by_cases hone : ∃ digits, find pattern text = some [digits]
  · obtain ⟨digits, hfind⟩ := hone
    rw [tailTarget, hfind, Option.isSome_map, parseInt_isSome]
    constructor
    · intro hle digits' hfind'
      rw [← List.singleton_inj.mp (Option.some.inj (hfind.symm.trans hfind'))]
      exact hle
    · exact fun hfits => hfits digits hfind
  · have hfits : FitsInt pattern text := fun digits hfind => absurd ⟨digits, hfind⟩ hone
    refine iff_of_true ?_ hfits
    rw [tailTarget]
    split
    · rename_i digits hfind
      exact absurd ⟨digits, hfind⟩ hone
    · rfl

lemma create_isSome (q : JString) : (TailSubscription.create q).isSome = true ↔
    FitsInt tailStatusPattern (parse q) ∧ FitsInt tailLatencyPattern (parse q) := by
  rw [← tailTarget_isSome, ← tailTarget_isSome, TailSubscription.create]
  cases tailTarget tailStatusPattern (parse q) with
  | none => exact iff_of_false Bool.false_ne_true fun h => Bool.false_ne_true h.1
  | some statusTarget =>
    rw [Option.bind_some, Option.isSome_map]
    exact (and_iff_right rfl).symm

lemma subscribes_iff (q : JString) : Subscribes q ↔
    FitsInt tailStatusPattern (parse q) ∧ FitsInt tailLatencyPattern (parse q) :=
  ⟨fun h => ⟨h.status_fits, h.latency_fits⟩, fun h => ⟨(create_isSome q).mpr h, h.1, h.2⟩⟩

lemma fitsInt_nil {keyword : String} {op quotes : Regex JChar} {c : JChar} (h : c ∈ java keyword) :
    FitsInt (comparison keyword op quotes) [] := by
  intro digits hfind
  rw [find_eq_none (not_keyword h List.not_mem_nil)] at hfind
  exact absurd hfind.symm (Option.some_ne_none _)

/-- A query with a line filter is not blank. -/
lemma lineFilterText_blank (h : isBlank q = true) : lineFilterText q = none := by
  rw [lineFilterText, Option.bind_eq_none_iff]
  intro groups hfind
  have hsome : (find lineFilterPattern q).isSome = true := by rw [hfind]; rfl
  obtain ⟨w, hw, hin⟩ := find_isSome_iff.mp hsome
  obtain ⟨bar, hbar, rest, -, rfl⟩ := mem_lang_seq.mp hw
  rw [(mem_lang_lit _).mp hbar] at hin
  have hmem : 0x7c#16 ∈ q := hin.subset (List.mem_append_left rest (by decide))
  exact absurd (of_decide_eq_true (List.all_eq_true.mp h _ hmem)) (by decide)

/-- Without a number of its own the parser returns the line filter. -/
lemma parse_lineFilter (hs : statusVal q = none) (hl : latencyVal q = none) :
    parse q = (lineFilterText q).getD [] := by
  rw [parse_text hs hl]
  split_ifs with hblank
  · rw [lineFilterText_blank hblank]
    rfl
  · rfl

/-- The text that the constructor searches is the parser's own or the line filter. -/
lemma fitsInt_parse_iff (q : JString) :
    FitsInt tailStatusPattern (parse q) ∧ FitsInt tailLatencyPattern (parse q) ↔ Subscribable q := by
  by_cases hnumber : (statusVal q).isSome = true ∨ (latencyVal q).isSome = true
  · obtain ⟨hs, hl, -⟩ := create_numbers hnumber
    have hfits : FitsInt tailStatusPattern (parse q) ∧ FitsInt tailLatencyPattern (parse q) :=
      ⟨(tailTarget_isSome _ _).mp (by rw [hs]; rfl), (tailTarget_isSome _ _).mp (by rw [hl]; rfl)⟩
    refine iff_of_true hfits fun hnoStatus hnoLatency => ?_
    rw [hnoStatus, hnoLatency] at hnumber
    exact absurd hnumber (by simp)
  · simp only [not_or, Option.not_isSome_iff_eq_none] at hnumber
    obtain ⟨hs, hl⟩ := hnumber
    rw [Subscribable, forall_prop_of_true hs, forall_prop_of_true hl, parse_lineFilter hs hl]
    cases htext : lineFilterText q with
    | none =>
      refine iff_of_true ⟨?_, ?_⟩ fun text h => absurd h.symm (Option.some_ne_none text)
      · exact fitsInt_nil (c := 0x73#16) (by decide)
      · exact fitsInt_nil (c := 0x6c#16) (by decide)
    | some text =>
      rw [Option.getD_some]
      constructor
      · intro h text' htext'
        rwa [← Option.some.inj htext']
      · exact fun h => h text rfl

lemma create_isSome_iff_subscribable (q : JString) :
    (TailSubscription.create q).isSome = true ↔ Subscribable q :=
  (create_isSome q).trans (fitsInt_parse_iff q)

/-- A query can be subscribed exactly when the parser finds a number in it or its line filter
compares with no number above the int range. -/
theorem subscribes_iff_subscribable (q : JString) : Subscribes q ↔ Subscribable q :=
  (subscribes_iff q).trans (fitsInt_parse_iff q)

/-- The status of the line filter is above the int range. -/
def wideFilter : JString := java "\x7bjob=\"a\"\x7d |= \"status == 99999999999\""

/-- The parser hands on the digits, and the constructor throws at them. -/
theorem wide_filter_throws : parse wideFilter = java "status == 99999999999" ∧
    TailSubscription.create wideFilter = none ∧ ¬ Subscribes wideFilter := by
  have hthrows : TailSubscription.create wideFilter = none := by decide
  refine ⟨by decide, hthrows, fun h => ?_⟩
  have hreturns := h.returns
  rw [hthrows] at hreturns
  exact Bool.false_ne_true hreturns

end Eureka.Gateway
