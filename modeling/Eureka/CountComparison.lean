import Mathlib

/-! Two predicates on one list: when they hold equally often. -/
namespace Eureka.CountComparison
variable {α : Type*} {p q : α → Bool} {xs : List α}

lemma countP_split (p q : α → Bool) (xs : List α) :
    xs.countP p + xs.countP (fun x => q x && !p x) =
      xs.countP q + xs.countP (fun x => p x && !q x) := by
  induction xs with
  | nil => rfl
  | cons x xs ih =>
    simp only [List.countP_cons]
    cases hp : p x <;> cases hq : q x <;> simp <;> omega

/-- Two counts agree exactly when each exceeds the other equally often. -/
theorem countP_eq_iff_diff : xs.countP p = xs.countP q ↔
    xs.countP (fun x => p x && !q x) = xs.countP (fun x => q x && !p x) := by
  have h := countP_split p q xs
  omega

lemma countP_diff_eq_zero : xs.countP (fun x => p x && !q x) = 0 ↔ ∀ x ∈ xs, p x → q x := by
  rw [List.countP_eq_zero]
  refine forall_congr' fun x => forall_congr' fun _ => ?_
  cases p x <;> cases q x <;> simp

/-- Counts of a predicate and a stronger one agree exactly when the predicates do. -/
theorem countP_eq_iff_of_imp (h : ∀ x ∈ xs, p x → q x) :
    xs.countP p = xs.countP q ↔ ∀ x ∈ xs, q x → p x := by
  rw [countP_eq_iff_diff, countP_diff_eq_zero.mpr h, eq_comm, countP_diff_eq_zero]

theorem countP_eq_iff_forall_eq (h : (∀ x ∈ xs, p x → q x) ∨ ∀ x ∈ xs, q x → p x) :
    xs.countP p = xs.countP q ↔ ∀ x ∈ xs, q x = p x := by
  rcases h with h | h
  · rw [countP_eq_iff_of_imp h]
    exact forall_congr' fun x => forall_congr' fun hx =>
      ⟨fun hqp => Bool.eq_iff_iff.mpr ⟨hqp, h x hx⟩, fun he => (Bool.eq_iff_iff.mp he).mp⟩
  · rw [eq_comm, countP_eq_iff_of_imp h]
    exact forall_congr' fun x => forall_congr' fun hx =>
      ⟨fun hpq => Bool.eq_iff_iff.mpr ⟨h x hx, hpq⟩, fun he => (Bool.eq_iff_iff.mp he).mpr⟩

end Eureka.CountComparison
