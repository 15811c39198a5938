import Mathlib

/-! Backtracking search for a regular expression with capturing groups. The outcomes of a match
are listed in the order in which a matcher tries them; a search takes the first outcome at the
first position that has one. -/
namespace Eureka.RegexSearch

inductive Regex (α : Type*)
  | eps
  | char (p : α → Bool)
  | seq (r t : Regex α)
  | alt (r t : Regex α)
  | star (p : α → Bool)
  | group (r : Regex α)

variable {α : Type*}

namespace Regex

def lit [DecidableEq α] : List α → Regex α
  | [] => .eps
  | c :: cs => .seq (.char (· = c)) (lit cs)

def opt (r : Regex α) : Regex α := .alt r .eps

def plus (p : α → Bool) : Regex α := .seq (.char p) (.star p)

/-- Alternatives from left to right; none of them if the list is empty. -/
def oneOf [DecidableEq α] : List (List α) → Regex α
  | [] => .char fun _ => false
  | w :: ws => .alt (lit w) (oneOf ws)

end Regex

open Regex

/-- What a greedy run can leave, the longest run first. -/
def runs (p : α → Bool) : List α → List (List α)
  | [] => [[]]
  | c :: cs => if p c then runs p cs ++ [c :: cs] else [c :: cs]

/-- The captured texts with what is left of the input, for every way to match at its start. -/
def outcomes : Regex α → List α → List (List (List α) × List α)
  | .eps, s => [([], s)]
  | .char p, s =>
    match s with
    | [] => []
    | c :: cs => if p c then [([], cs)] else []
  | .seq r t, s =>
    (outcomes r s).flatMap fun o => (outcomes t o.2).map fun o' => (o.1 ++ o'.1, o'.2)
  | .alt r t, s => outcomes r s ++ outcomes t s
  | .star p, s => (runs p s).map fun rest => ([], rest)
  | .group r, s => (outcomes r s).map fun o => (s.take (s.length - o.2.length) :: o.1, o.2)

def first (r : Regex α) (s : List α) : Option (List (List α) × List α) := (outcomes r s).head?

/-- The captured texts of the leftmost match. -/
def find (r : Regex α) : List α → Option (List (List α))
  | [] => (first r []).map Prod.fst
  | c :: cs =>
    match first r (c :: cs) with
    | some o => some o.1
    | none => find r cs

/-- The first outcome at the first position that has one. -/
def leftmost (r : Regex α) : List α → Option (List (List α) × List α)
  | [] => first r []
  | c :: cs => (first r (c :: cs)).or (leftmost r cs)

/-- Some test of the expression accepts the symbol. -/
def accepts (c : α) : Regex α → Bool
  | .eps => false
  | .char p => p c
  | .seq r t => accepts c r || accepts c t
  | .alt r t => accepts c r || accepts c t
  | .star p => p c
  | .group r => accepts c r

/-- The words that an expression describes. -/
def lang : Regex α → Language α
  | .eps => 1
  | .char p => ({w | ∃ c, p c = true ∧ w = [c]} : Set (List α))
  | .seq r t => lang r * lang t
  | .alt r t => lang r + lang t
  | .star p => ({w | ∀ c ∈ w, p c = true} : Set (List α))
  | .group r => lang r

section language
variable {r t : Regex α} {p : α → Bool} {s rest w : List α}

lemma mem_lang_star : w ∈ lang (.star p) ↔ ∀ c ∈ w, p c = true := Iff.rfl

lemma mem_lang_seq : w ∈ lang (.seq r t) ↔ ∃ a ∈ lang r, ∃ b ∈ lang t, a ++ b = w :=
  Language.mem_mul

lemma mem_lang_alt : w ∈ lang (.alt r t) ↔ w ∈ lang r ∨ w ∈ lang t := Language.mem_add ..

lemma mem_lang_lit [DecidableEq α] (v : List α) : w ∈ lang (lit v) ↔ w = v := by
  induction v generalizing w with
  | nil => exact Language.mem_one w
  | cons c cs ih =>
    rw [lit, mem_lang_seq]
    constructor
    · rintro ⟨a, ⟨d, hd, rfl⟩, b, hb, rfl⟩
      rw [ih.mp hb, of_decide_eq_true hd]
      rfl
    · rintro rfl
      exact ⟨[c], ⟨c, decide_eq_true rfl, rfl⟩, cs, ih.mpr rfl, rfl⟩

lemma mem_lang_oneOf [DecidableEq α] (ws : List (List α)) : w ∈ lang (oneOf ws) ↔ w ∈ ws := by
  induction ws with
  | nil =>
    refine iff_of_false ?_ List.not_mem_nil
    rintro ⟨c, hc, -⟩
    exact Bool.false_ne_true hc
  | cons v ws ih => rw [oneOf, mem_lang_alt, mem_lang_lit, ih, List.mem_cons]

lemma mem_runs : rest ∈ runs p s ↔ ∃ w, (∀ c ∈ w, p c = true) ∧ s = w ++ rest := by
  induction s with
  | nil =>
    rw [runs, List.mem_singleton]
    constructor
    · rintro rfl
      exact ⟨[], List.forall_mem_nil _, rfl⟩
    · rintro ⟨w, -, heq⟩
      exact (List.append_eq_nil_iff.mp heq.symm).2
  | cons c cs ih =>
    rw [runs]
    constructor
    · intro h
      split_ifs at h with hc
      · rcases List.mem_append.mp h with h | h
        · obtain ⟨w, hw, rfl⟩ := ih.mp h
          exact ⟨c :: w, List.forall_mem_cons.mpr ⟨hc, hw⟩, rfl⟩
        · exact ⟨[], List.forall_mem_nil _, (List.mem_singleton.mp h).symm⟩
      · exact ⟨[], List.forall_mem_nil _, (List.mem_singleton.mp h).symm⟩
    · rintro ⟨w, hw, heq⟩
      cases w with
      | nil =>
        obtain rfl : c :: cs = rest := heq
        split_ifs <;> simp
      | cons d w =>
        obtain ⟨rfl, hcs⟩ := List.cons.inj heq
        obtain ⟨hd, hw⟩ := List.forall_mem_cons.mp hw
        rw [if_pos hd]
        exact List.mem_append_left _ (ih.mpr ⟨w, hw, hcs⟩)

lemma mem_outcomes_char {o : List (List α) × List α} :
    o ∈ outcomes (.char p) s ↔ ∃ c cs, p c = true ∧ s = c :: cs ∧ o = ([], cs) := by
  cases s with
  | nil => simp [outcomes]
  | cons c cs =>
    simp only [outcomes]
    split_ifs with hc
    · simp [hc]
    · simp only [List.not_mem_nil, false_iff]
      rintro ⟨c', cs', hc', hcons, -⟩
      exact hc ((List.cons.inj hcons).1 ▸ hc')

lemma mem_outcomes_seq {o : List (List α) × List α} : o ∈ outcomes (.seq r t) s ↔
    ∃ o₁ ∈ outcomes r s, ∃ o₂ ∈ outcomes t o₁.2, o = (o₁.1 ++ o₂.1, o₂.2) := by
  simp only [outcomes, List.mem_flatMap, List.mem_map, eq_comm]

lemma mem_outcomes_group {o : List (List α) × List α} : o ∈ outcomes (.group r) s ↔
    ∃ o' ∈ outcomes r s, o = (s.take (s.length - o'.2.length) :: o'.1, o'.2) := by
  simp only [outcomes, List.mem_map, eq_comm]

/-- The outcomes leave exactly what follows the words of the language. -/
theorem exists_outcome_iff : (∃ g, (g, rest) ∈ outcomes r s) ↔ ∃ w ∈ lang r, s = w ++ rest := by
  induction r generalizing s rest with
  | eps =>
    simp only [outcomes, lang, Language.mem_one, exists_eq_left, List.mem_singleton, Prod.mk.injEq,
      List.nil_append]
    exact eq_comm
  | char p =>
    simp only [mem_outcomes_char, Prod.mk.injEq]
    constructor
    · rintro ⟨g, c, cs, hc, rfl, -, rfl⟩
      exact ⟨[c], ⟨c, hc, rfl⟩, rfl⟩
    · rintro ⟨w, ⟨c, hc, rfl⟩, rfl⟩
      exact ⟨[], c, rest, hc, rfl, rfl, rfl⟩
  | seq r t ihr iht =>
    simp only [mem_outcomes_seq]
    constructor
    · rintro ⟨g, ⟨g₁, mid⟩, hr, ⟨g₂, rest'⟩, ht, heq⟩
      obtain ⟨-, rfl⟩ := Prod.mk.inj heq
      obtain ⟨a, ha, rfl⟩ := ihr.mp ⟨g₁, hr⟩
      obtain ⟨b, hb, rfl⟩ := iht.mp ⟨g₂, ht⟩
      exact ⟨a ++ b, mem_lang_seq.mpr ⟨a, ha, b, hb, rfl⟩, (List.append_assoc ..).symm⟩
    · rintro ⟨w, hw, rfl⟩
      obtain ⟨a, ha, b, hb, rfl⟩ := mem_lang_seq.mp hw
      obtain ⟨g₁, hr⟩ := ihr.mpr ⟨a, ha, List.append_assoc a b rest⟩
      obtain ⟨g₂, ht⟩ := iht.mpr ⟨b, hb, rfl⟩
      exact ⟨g₁ ++ g₂, _, hr, _, ht, rfl⟩
  | alt r t ihr iht =>
    simp only [outcomes, List.mem_append, exists_or, ihr, iht, mem_lang_alt, or_and_right]
  | star p =>
    simp only [outcomes, List.mem_map, Prod.mk.injEq, mem_lang_star]
    refine Iff.trans ?_ mem_runs
    exact ⟨fun ⟨_, _, h, _, heq⟩ => heq ▸ h, fun h => ⟨[], rest, h, rfl, rfl⟩⟩
  | group r ih =>
    refine Iff.trans ?_ ih
    simp only [mem_outcomes_group]
    constructor
    · rintro ⟨g, ⟨g', rest'⟩, h, heq⟩
      obtain ⟨-, rfl⟩ := Prod.mk.inj heq
      exact ⟨g', h⟩
    · rintro ⟨g, hg⟩
      exact ⟨_, _, hg, rfl⟩

lemma first_isSome_iff : (first r s).isSome = true ↔ ∃ w ∈ lang r, w <+: s := by
  rw [first, List.isSome_head?]
  constructor
  · intro hne
    obtain ⟨⟨g, rest⟩, ho⟩ := List.exists_mem_of_ne_nil _ hne
    obtain ⟨w, hw, rfl⟩ := exists_outcome_iff.mp ⟨g, ho⟩
    exact ⟨w, hw, List.prefix_append w rest⟩
  · rintro ⟨w, hw, rest, rfl⟩
    obtain ⟨g, hg⟩ := exists_outcome_iff.mpr ⟨w, hw, rfl⟩
    exact List.ne_nil_of_mem hg

/-- A search succeeds exactly on the texts that contain a word of the language. -/
theorem find_isSome_iff : (find r s).isSome = true ↔ ∃ w ∈ lang r, w <:+: s := by
  induction s with
  | nil =>
    rw [find, Option.isSome_map, first_isSome_iff]
    simp only [List.prefix_nil, List.infix_nil]
  | cons c cs ih =>
    simp only [List.infix_cons_iff, and_or_left, exists_or]
    rw [← first_isSome_iff, ← ih, find]
    cases first r (c :: cs) with
    | none => simp
    | some o => simp

/-- A larger language is found in every longer text. -/
theorem find_isSome_mono {s' : List α} (hlang : lang r ≤ lang t) (hs : s <:+: s')
    (h : (find r s).isSome = true) : (find t s').isSome = true := by
  obtain ⟨w, hw, hin⟩ := find_isSome_iff.mp h
  exact find_isSome_iff.mpr ⟨w, hlang hw, hin.trans hs⟩

end language

section captures
variable {r : Regex α} {s : List α}

/-- What is left and what is captured stand in the text. -/
lemma outcome_within {o : List (List α) × List α} (h : o ∈ outcomes r s) :
    o.2 <:+ s ∧ ∀ w ∈ o.1, w <:+: s := by
  induction r generalizing s o with
  | eps =>
    obtain rfl := List.mem_singleton.mp h
    exact ⟨List.suffix_refl s, List.forall_mem_nil _⟩
  | char p =>
    obtain ⟨c, cs, -, rfl, rfl⟩ := mem_outcomes_char.mp h
    exact ⟨List.suffix_cons c cs, List.forall_mem_nil _⟩
  | seq r t ihr iht =>
    obtain ⟨o₁, h₁, o₂, h₂, rfl⟩ := mem_outcomes_seq.mp h
    obtain ⟨hleft, hcaptured⟩ := ihr h₁
    obtain ⟨hleft', hcaptured'⟩ := iht h₂
    refine ⟨hleft'.trans hleft, fun w hw => ?_⟩
    rcases List.mem_append.mp hw with hw | hw
    · exact hcaptured w hw
    · exact (hcaptured' w hw).trans hleft.isInfix
  | alt r t ihr iht =>
    rcases List.mem_append.mp h with h | h
    · exact ihr h
    · exact iht h
  | star p =>
    obtain ⟨rest, hrest, rfl⟩ := List.mem_map.mp h
    obtain ⟨w, -, rfl⟩ := mem_runs.mp hrest
    exact ⟨List.suffix_append w rest, List.forall_mem_nil _⟩
  | group r ih =>
    obtain ⟨o', ho', rfl⟩ := mem_outcomes_group.mp h
    obtain ⟨hleft, hcaptured⟩ := ih ho'
    exact ⟨hleft, List.forall_mem_cons.mpr ⟨(List.take_prefix _ _).isInfix, hcaptured⟩⟩

theorem capture_within {g : List (List α)} (h : find r s = some g) : ∀ w ∈ g, w <:+: s := by
  induction s with
  | nil =>
    obtain ⟨o, ho, rfl⟩ := Option.map_eq_some_iff.mp h
    exact (outcome_within (List.mem_of_mem_head? ho)).2
  | cons c cs ih =>
    rw [find] at h
    cases hfirst : first r (c :: cs) with
    | none =>
      simp only [hfirst] at h
      exact fun w hw => (ih h w hw).trans (List.suffix_cons c cs).isInfix
    | some o =>
      simp only [hfirst] at h
      obtain rfl := Option.some.inj h
      exact (outcome_within (List.mem_of_mem_head? hfirst)).2

/-- A search returns the captures of an outcome. -/
lemma exists_outcome_of_find {g : List (List α)} (h : find r s = some g) :
    ∃ s' rest, (g, rest) ∈ outcomes r s' := by
  induction s with
  | nil =>
    obtain ⟨o, ho, rfl⟩ := Option.map_eq_some_iff.mp h
    exact ⟨[], o.2, List.mem_of_mem_head? ho⟩
  | cons c cs ih =>
    rw [find] at h
    cases hfirst : first r (c :: cs) with
    | none =>
      simp only [hfirst] at h
      exact ih h
    | some o =>
      simp only [hfirst] at h
      obtain rfl := Option.some.inj h
      exact ⟨c :: cs, o.2, List.mem_of_mem_head? hfirst⟩

/-- The expression has no group. -/
def groupless : Regex α → Bool
  | .seq r t => groupless r && groupless t
  | .alt r t => groupless r && groupless t
  | .group _ => false
  | _ => true

lemma captures_eq_nil (hr : groupless r = true) {o : List (List α) × List α}
    (h : o ∈ outcomes r s) : o.1 = [] := by
  induction r generalizing s o with
  | eps => rw [List.mem_singleton.mp h]
  | char p =>
    obtain ⟨c, cs, -, -, rfl⟩ := mem_outcomes_char.mp h
    rfl
  | seq r t ihr iht =>
    obtain ⟨hr, ht⟩ := Bool.and_eq_true_iff.mp hr
    obtain ⟨o₁, ho₁, o₂, ho₂, rfl⟩ := mem_outcomes_seq.mp h
    rw [ihr hr ho₁, iht ht ho₂, List.append_nil]
  | alt r t ihr iht =>
    obtain ⟨hr, ht⟩ := Bool.and_eq_true_iff.mp hr
    rcases List.mem_append.mp h with h | h
    · exact ihr hr h
    · exact iht ht h
  | star p =>
    obtain ⟨rest, -, rfl⟩ := List.mem_map.mp h
    rfl
  | group r => exact absurd hr (by simp [groupless])

/-- What a captured run holds passes its test. -/
lemma outcomes_group_star {p : α → Bool} {o : List (List α) × List α}
    (h : o ∈ outcomes (.group (.star p)) s) : ∃ w, (∀ c ∈ w, p c = true) ∧ o.1 = [w] := by
  obtain ⟨o', ho', rfl⟩ := mem_outcomes_group.mp h
  obtain ⟨rest, hrest, rfl⟩ := List.mem_map.mp ho'
  obtain ⟨w, hw, rfl⟩ := mem_runs.mp hrest
  refine ⟨w, hw, ?_⟩
  have hlen : (w ++ rest).length - rest.length = w.length := by simp
  rw [hlen, List.take_left]

end captures

section preferred
variable {r t : Regex α} {p : α → Bool} {s rest rest' w : List α} {g g' : List (List α)}

lemma first_eps : first (.eps : Regex α) s = some ([], s) := rfl

lemma first_char {c : α} (h : p c = true) : first (.char p) (c :: s) = some ([], s) := by
  simp [first, outcomes, h]

lemma first_seq (hr : first r s = some (g, rest)) (ht : first t rest = some (g', rest')) :
    first (.seq r t) s = some (g ++ g', rest') := by
  obtain ⟨os, hos⟩ := List.head?_eq_some_iff.mp hr
  obtain ⟨os', hos'⟩ := List.head?_eq_some_iff.mp ht
  rw [first, outcomes, hos, List.flatMap_cons, hos']
  rfl

lemma first_alt_left {o : List (List α) × List α} (h : first r s = some o) :
    first (.alt r t) s = some o := by
  rw [first, outcomes, List.head?_append, ← first, h]
  rfl

lemma first_alt_right (h : first r s = none) : first (.alt r t) s = first t s := by
  rw [first, outcomes, List.head?_eq_none_iff.mp h]
  rfl

/-- A greedy run stops where it must. -/
lemma first_star (hw : ∀ c ∈ w, p c = true) (hs : ∀ c, s.head? = some c → p c = false) :
    first (.star p) (w ++ s) = some ([], s) := by
  have hhead : (runs p (w ++ s)).head? = some s := by
    induction w with
    | nil =>
      cases s with
      | nil => rfl
      | cons c cs => simp [runs, hs c rfl]
    | cons c cs ih =>
      obtain ⟨hc, hcs⟩ := List.forall_mem_cons.mp hw
      rw [List.cons_append, runs, if_pos hc, List.head?_append, ih hcs]
      rfl
  rw [first, outcomes, List.head?_map, hhead]
  rfl

lemma first_plus (hw : ∀ c ∈ w, p c = true) (hne : w ≠ [])
    (hs : ∀ c, s.head? = some c → p c = false) : first (plus p) (w ++ s) = some ([], s) := by
  cases w with
  | nil => exact absurd rfl hne
  | cons c cs =>
    obtain ⟨hc, hcs⟩ := List.forall_mem_cons.mp hw
    exact first_seq (first_char hc) (first_star hcs hs)

lemma first_lit [DecidableEq α] (w : List α) : first (lit w) (w ++ s) = some ([], s) := by
  induction w with
  | nil => rfl
  | cons c cs ih =>
    have hc : first (.char (· = c)) (c :: (cs ++ s)) = some ([], cs ++ s) :=
      first_char (decide_eq_true rfl)
    exact first_seq hc ih

lemma first_group (h : first r (w ++ s) = some (g, s)) :
    first (.group r) (w ++ s) = some (w :: g, s) := by
  rw [first] at h
  rw [first, outcomes, List.head?_map, h, Option.map_some]
  simp

lemma first_eq_none (h : ∀ w ∈ lang r, ¬ w <+: s) : first r s = none := by
  rw [← Option.not_isSome_iff_eq_none, first_isSome_iff]
  rintro ⟨w, hw, hpre⟩
  exact h w hw hpre

/-- Of the alternatives the first that stands in the text is taken. -/
lemma first_oneOf [DecidableEq α] {before after : List (List α)} (w : List α)
    (h : ∀ v ∈ before, ¬ v <+: w ++ s) :
    first (oneOf (before ++ w :: after)) (w ++ s) = some ([], s) := by
  induction before with
  | nil => exact first_alt_left (first_lit w)
  | cons v before ih =>
    obtain ⟨hv, hbefore⟩ := List.forall_mem_cons.mp h
    rw [List.cons_append, oneOf, first_alt_right, ih hbefore]
    refine first_eq_none fun u hu => ?_
    rw [(mem_lang_lit v).mp hu]
    exact hv

lemma find_of_first {o : List (List α) × List α} (h : first r s = some o) :
    find r s = some o.1 := by
  cases s with
  | nil =>
    rw [find, h]
    rfl
  | cons c cs => simp only [find, h]

/-- Positions without a match are passed over. -/
lemma find_skip (w : List α) (h : ∀ k < w.length, first r ((w ++ s).drop k) = none) :
    find r (w ++ s) = find r s := by
  induction w with
  | nil => rfl
  | cons c cs ih =>
    have hhere : first r (c :: (cs ++ s)) = none := h 0 (Nat.succ_pos _)
    rw [List.cons_append, find]
    simp only [hhere]
    exact ih fun k hk => h (k + 1) (Nat.succ_lt_succ hk)

end preferred

section barriers
variable {r : Regex α} {p : α → Bool} {c : α}

lemma find_eq_leftmost (s : List α) : find r s = (leftmost r s).map Prod.fst := by
  induction s with
  | nil => rfl
  | cons c cs ih =>
    rw [find, leftmost]
    cases first r (c :: cs) with
    | none => exact ih
    | some o => rfl

lemma leftmost_of_first {s : List α} {o : List (List α) × List α} (h : first r s = some o) :
    leftmost r s = some o := by
  cases s with
  | nil => exact h
  | cons c cs => rw [leftmost, h, Option.some_or]

lemma runs_append (h : p c = false) (u v : List α) :
    runs p (u ++ c :: v) = (runs p u).map fun rest => rest ++ c :: v := by
  induction u with
  | nil => simp [runs, h]
  | cons d u ih =>
    rw [List.cons_append, runs, runs, ih]
    split_ifs <;> simp

/-- A match cannot go beyond a symbol that no test accepts. -/
theorem outcomes_append (h : accepts c r = false) (u v : List α) :
    outcomes r (u ++ c :: v) = (outcomes r u).map fun o => (o.1, o.2 ++ c :: v) := by
  induction r generalizing u with
  | eps => rfl
  | char p =>
    have hp : p c = false := h
    cases u with
    | nil => simp [outcomes, hp]
    | cons d u =>
      simp only [List.cons_append, outcomes]
      split_ifs <;> rfl
  | seq r t ihr iht =>
    obtain ⟨hr, ht⟩ := Bool.or_eq_false_iff.mp h
    simp only [outcomes, ihr hr, iht ht, List.flatMap_map, List.map_flatMap, List.map_map]
    rfl
  | alt r t ihr iht =>
    obtain ⟨hr, ht⟩ := Bool.or_eq_false_iff.mp h
    rw [outcomes, outcomes, ihr hr, iht ht, List.map_append]
  | star p =>
    have hp : p c = false := h
    rw [outcomes, outcomes, runs_append hp, List.map_map, List.map_map]
    rfl
  | group r ih =>
    rw [outcomes, outcomes, ih h, List.map_map, List.map_map]
    refine List.map_congr_left fun o ho => ?_
    have hle := (outcome_within ho).1.length_le
    have hcut : (u ++ c :: v).length - (o.2 ++ c :: v).length = u.length - o.2.length := by
      rw [List.length_append, List.length_append, Nat.add_sub_add_right]
    simp only [Function.comp_apply, hcut, List.take_append_of_le_length (Nat.sub_le _ _)]

lemma first_append (h : accepts c r = false) (u v : List α) :
    first r (u ++ c :: v) = (first r u).map fun o => (o.1, o.2 ++ c :: v) := by
  rw [first, outcomes_append h, List.head?_map, first]

/-- A search looks before the symbol and then from it on. -/
theorem leftmost_append (h : accepts c r = false) (u v : List α) :
    leftmost r (u ++ c :: v) =
      ((leftmost r u).map fun o => (o.1, o.2 ++ c :: v)).or (leftmost r (c :: v)) := by
  induction u with
  | nil =>
    have hfirst := first_append h [] v
    rw [List.nil_append] at hfirst ⊢
    rw [leftmost, leftmost, ← hfirst, ← Option.or_assoc, Option.or_self]
  | cons d u ih =>
    have hfirst := first_append h (d :: u) v
    rw [List.cons_append] at hfirst ⊢
    rw [leftmost, leftmost, hfirst, ih, Option.map_or, Option.or_assoc]

lemma find_append (h : accepts c r = false) (u v : List α) :
    find r (u ++ c :: v) = (find r u).or (find r (c :: v)) := by
  rw [find_eq_leftmost, find_eq_leftmost, find_eq_leftmost, leftmost_append h, Option.map_or,
    Option.map_map]
  rfl

end barriers

end Eureka.RegexSearch
