import Mathlib

/-! Occurrences of a word in a text: the left-to-right choice that takes every occurrence it
can, and its optimality among the families of pairwise disjoint occurrences. -/
namespace Eureka.Occurrences
variable {α : Type*}

def OccursAt (w t : List α) (i : ℕ) : Prop := w <+: t.drop i

instance [DecidableEq α] (w t : List α) (i : ℕ) : Decidable (OccursAt w t i) :=
  inferInstanceAs (Decidable (w <+: t.drop i))

/-- Start positions of occurrences whose intervals are pairwise disjoint. -/
structure Packing (w t : List α) where
  starts : Finset ℕ
  occurs : ∀ i ∈ starts, OccursAt w t i
  disjoint : (starts : Set ℕ).PairwiseDisjoint fun i => Finset.Ico i (i + w.length)

lemma OccursAt.lt_length {w t : List α} {i : ℕ} (hw : w ≠ []) (h : OccursAt w t i) :
    i < t.length := by
  have hl := List.IsPrefix.length_le h
  have hp := List.length_pos_of_ne_nil hw
  rw [List.length_drop] at hl
  omega

lemma OccursAt.end_le {w t : List α} {i : ℕ} (hw : w ≠ []) (h : OccursAt w t i) :
    i + w.length ≤ t.length := by
  have hl := List.IsPrefix.length_le h
  have hlt := h.lt_length hw
  rw [List.length_drop] at hl
  omega

/-- An occurrence begins with the first symbol of the word. -/
lemma OccursAt.head {c : α} {w t : List α} {i : ℕ} (h : OccursAt (c :: w) t i) :
    t[i]? = some c := by
  obtain ⟨s, hs⟩ := h
  rw [← List.head?_drop, ← hs]
  rfl

/-- Disjoint intervals of one length lie at least that length apart. -/
lemma Packing.apart {w t : List α} (P : Packing w t) {i j : ℕ} (hi : i ∈ P.starts)
    (hj : j ∈ P.starts) (hlt : i < j) : i + w.length ≤ j := by
  by_contra hn
  have hd := P.disjoint hi hj hlt.ne
  have hm : j ∈ Finset.Ico i (i + w.length) := Finset.mem_Ico.mpr (by omega)
  have hm' : j ∈ Finset.Ico j (j + w.length) := Finset.mem_Ico.mpr (by omega)
  exact Finset.disjoint_left.mp hd hm hm'

/-- The packing without the occurrences before a position. -/
def Packing.from {w t : List α} (P : Packing w t) (i : ℕ) : Packing w t where
  starts := P.starts.filter (i ≤ ·)
  occurs j hj := P.occurs j (Finset.mem_of_mem_filter j hj)
  disjoint := P.disjoint.subset fun _ hj => Finset.mem_of_mem_filter _ hj

lemma Packing.mem_from {w t : List α} (P : Packing w t) (i j : ℕ) :
    j ∈ (P.from i).starts ↔ j ∈ P.starts ∧ i ≤ j := Finset.mem_filter

section
variable [DecidableEq α] (w : List α)

/-- The starts chosen in the text from position `pos` on, its first `skip` symbols being
passed over. -/
def greedy (pos : ℕ) : ℕ → List α → List ℕ
  | _, [] => []
  | 0, c :: cs =>
    if w <+: c :: cs then pos :: greedy (pos + 1) (w.length - 1) cs
    else greedy (pos + 1) 0 cs
  | skip + 1, _ :: cs => greedy (pos + 1) skip cs

def greedyCount (t : List α) : ℕ := (greedy w 0 0 t).length

lemma greedy_skip (pos skip : ℕ) (t : List α) :
    greedy w pos skip t = greedy w (pos + skip) 0 (t.drop skip) := by
  induction t generalizing pos skip with
  | nil => simp [greedy]
  | cons c cs ih =>
    cases skip with
    | zero => rfl
    | succ skip => rw [greedy, ih, List.drop_succ_cons, Nat.add_right_comm, Nat.add_assoc]

variable {w}

lemma greedy_of_short {t : List α} (h : t.length < w.length) (pos skip : ℕ) :
    greedy w pos skip t = [] := by
  induction t generalizing pos skip with
  | nil => simp [greedy]
  | cons c cs ih =>
    rw [List.length_cons] at h
    cases skip with
    | zero =>
      have hn : ¬ w <+: c :: cs := fun hp => by
        have := hp.length_le
        rw [List.length_cons] at this
        omega
      rw [greedy, if_neg hn]
      exact ih (by omega) _ _
    | succ skip => exact ih (by omega) _ _

lemma greedy_of_end {t : List α} {pos : ℕ} (h : t.length ≤ pos) :
    greedy w pos 0 (t.drop pos) = [] := by
  rw [List.drop_eq_nil_of_le h]
  rfl

lemma greedy_of_not_occursAt {t : List α} {pos : ℕ} (h : ¬ OccursAt w t pos) :
    greedy w pos 0 (t.drop pos) = greedy w (pos + 1) 0 (t.drop (pos + 1)) := by
  rcases lt_or_ge pos t.length with hp | hp
  · rw [List.drop_eq_getElem_cons hp, greedy, if_neg]
    rwa [← List.drop_eq_getElem_cons hp]
  · rw [greedy_of_end hp, greedy_of_end (by omega)]

/-- Positions without an occurrence are passed over. -/
lemma greedy_eq_of_not_occursAt {t : List α} {pos q : ℕ} (hq : pos ≤ q)
    (h : ∀ i, pos ≤ i → i < q → ¬ OccursAt w t i) :
    greedy w pos 0 (t.drop pos) = greedy w q 0 (t.drop q) := by
  induction q, hq using Nat.le_induction with
  | base => rfl
  | succ q hq ih =>
    rw [ih fun i hi hlt => h i hi (by omega), greedy_of_not_occursAt (h q hq q.lt_succ_self)]

lemma greedy_eq_nil {t : List α} {pos : ℕ} (h : ∀ i, pos ≤ i → ¬ OccursAt w t i) :
    greedy w pos 0 (t.drop pos) = [] := by
  rw [greedy_eq_of_not_occursAt (Nat.le_max_left pos t.length) fun i hi _ => h i hi]
  exact greedy_of_end (Nat.le_max_right pos t.length)

lemma greedy_of_occursAt (hw : w ≠ []) {t : List α} {pos : ℕ} (h : OccursAt w t pos) :
    greedy w pos 0 (t.drop pos) =
      pos :: greedy w (pos + w.length) 0 (t.drop (pos + w.length)) := by
  have hp := h.lt_length hw
  have hl := List.length_pos_of_ne_nil hw
  have hpre : w <+: t[pos] :: t.drop (pos + 1) := by
    rwa [← List.drop_eq_getElem_cons hp]
  rw [List.drop_eq_getElem_cons hp, greedy, if_pos hpre, greedy_skip, List.drop_drop,
    Nat.add_assoc, Nat.add_sub_cancel' hl]

/-- No packing from `pos` on beats the choice: at an occurrence, at most one member of the
packing starts before the chosen occurrence ends. -/
lemma card_from_le (hw : w ≠ []) {t : List α} (P : Packing w t) (pos : ℕ) :
    (P.from pos).starts.card ≤ (greedy w pos 0 (t.drop pos)).length := by
  by_cases hend : t.length ≤ pos
  · have he : (P.from pos).starts = ∅ := by
      apply Finset.eq_empty_of_forall_notMem
      intro i hi
      obtain ⟨hi, hle⟩ := (P.mem_from pos i).mp hi
      have hlt := (P.occurs i hi).lt_length hw
      omega
    simp [he]
  have hl := List.length_pos_of_ne_nil hw
  by_cases hocc : OccursAt w t pos
  · have hone : ((P.from pos).starts.filter (· < pos + w.length)).card ≤ 1 := by
      rw [Finset.card_le_one]
      intro a ha b hb
      rw [Finset.mem_filter, P.mem_from] at ha hb
      rcases lt_trichotomy a b with hab | hab | hab
      · have := P.apart ha.1.1 hb.1.1 hab
        omega
      · exact hab
      · have := P.apart hb.1.1 ha.1.1 hab
        omega
    have hrest : (P.from pos).starts.filter (¬ · < pos + w.length) =
        (P.from (pos + w.length)).starts := by
      ext i
      rw [Finset.mem_filter, P.mem_from, P.mem_from, not_lt]
      exact ⟨fun ⟨⟨hi, _⟩, hle⟩ => ⟨hi, hle⟩, fun ⟨hi, hle⟩ => ⟨⟨hi, by omega⟩, hle⟩⟩
    have ih := card_from_le hw P (pos + w.length)
    have hsum := Finset.card_filter_add_card_filter_not (s := (P.from pos).starts)
      (· < pos + w.length)
    rw [hrest] at hsum
    rw [greedy_of_occursAt hw hocc, List.length_cons]
    omega
  · have he : (P.from pos).starts = (P.from (pos + 1)).starts := by
      ext i
      rw [P.mem_from, P.mem_from]
      constructor
      · rintro ⟨hi, hle⟩
        have hne : i ≠ pos := fun h => hocc (h ▸ P.occurs i hi)
        exact ⟨hi, by omega⟩
      · rintro ⟨hi, hle⟩
        exact ⟨hi, by omega⟩
    rw [he, greedy_of_not_occursAt hocc]
    exact card_from_le hw P (pos + 1)
termination_by t.length - pos

/-- The chosen starts form a packing. -/
lemma greedy_spec (hw : w ≠ []) (t : List α) (pos : ℕ) :
    (∀ i ∈ greedy w pos 0 (t.drop pos), pos ≤ i ∧ OccursAt w t i) ∧
      (greedy w pos 0 (t.drop pos)).Pairwise fun i j => i + w.length ≤ j := by
  by_cases hend : t.length ≤ pos
  · simp [greedy_of_end hend]
  by_cases hocc : OccursAt w t pos
  · have hl := List.length_pos_of_ne_nil hw
    obtain ⟨ih, ihp⟩ := greedy_spec hw t (pos + w.length)
    rw [greedy_of_occursAt hw hocc]
    constructor
    · intro i hi
      rcases List.mem_cons.mp hi with rfl | hi
      · exact ⟨le_rfl, hocc⟩
      · exact ⟨by have := (ih i hi).1; omega, (ih i hi).2⟩
    · exact List.pairwise_cons.mpr ⟨fun j hj => (ih j hj).1, ihp⟩
  · obtain ⟨ih, ihp⟩ := greedy_spec hw t (pos + 1)
    rw [greedy_of_not_occursAt hocc]
    exact ⟨fun i hi => ⟨by have := (ih i hi).1; omega, (ih i hi).2⟩, ihp⟩
termination_by t.length - pos

def greedyPacking (hw : w ≠ []) (t : List α) : Packing w t where
  starts := (greedy w 0 0 t).toFinset
  occurs i hi := ((greedy_spec hw t 0).1 i (List.mem_toFinset.mp hi)).2
  disjoint := by
    intro i hi j hj hne
    have hsym : Std.Symm fun i j => i + w.length ≤ j ∨ j + w.length ≤ i := ⟨fun _ _ => Or.symm⟩
    have hs : (greedy w 0 0 t).Pairwise fun i j => i + w.length ≤ j ∨ j + w.length ≤ i :=
      (greedy_spec hw t 0).2.imp Or.inl
    have hij := hs.forall (List.mem_toFinset.mp hi) (List.mem_toFinset.mp hj) hne
    rw [Function.onFun, Finset.disjoint_left]
    intro x hx hx'
    rw [Finset.mem_Ico] at hx hx'
    omega

/-- The left-to-right choice takes as many occurrences as any packing has. -/
theorem isGreatest_greedyCount (hw : w ≠ []) (t : List α) :
    IsGreatest (Set.range fun P : Packing w t => P.starts.card) (greedyCount w t) := by
  constructor
  · refine ⟨greedyPacking hw t, List.toFinset_card_of_nodup ?_⟩
    have hl := List.length_pos_of_ne_nil hw
    exact (greedy_spec hw t 0).2.imp fun h => by omega
  · rintro _ ⟨P, rfl⟩
    have he : (P.from 0).starts = P.starts := Finset.filter_true_of_mem fun i _ => i.zero_le
    have h := card_from_le hw P 0
    rw [he] at h
    exact h

end

end Eureka.Occurrences
