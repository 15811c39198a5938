import Mathlib

/-! Runs of a system. A deterministic run folds a step function over its calls; an
interleaved one is a path of a step relation. -/
namespace Eureka.TransitionRuns

section calls
variable {σ κ : Type*} {step : σ → κ → σ} {Inv Good : σ → Prop} {Safe : σ → κ → Prop}
  {Ok : κ → Prop}

lemma foldl_take_succ (s : σ) (calls : List κ) {k : ℕ} (hk : k < calls.length) :
    (calls.take (k + 1)).foldl step s = step ((calls.take k).foldl step s) calls[k] := by
  rw [← List.take_concat_get' calls k hk, List.foldl_append]
  rfl

lemma foldl_take_invariant (hinv : ∀ s c, Inv s → Ok c → Inv (step s c)) {s : σ} (hs : Inv s)
    {calls : List κ} (hok : ∀ c ∈ calls, Ok c) {k : ℕ} (hk : k ≤ calls.length) :
    Inv ((calls.take k).foldl step s) := by
  induction k with
  | zero => exact hs
  | succ k ih =>
    rw [foldl_take_succ s calls hk]
    exact hinv _ _ (ih (Nat.le_of_succ_le hk)) (hok _ (List.getElem_mem hk))

/-- What every call keeps, a run keeps. -/
theorem foldl_invariant (hinv : ∀ s c, Inv s → Ok c → Inv (step s c)) {s : σ} (hs : Inv s)
    {calls : List κ} (hok : ∀ c ∈ calls, Ok c) : Inv (calls.foldl step s) := by
  have hrun := foldl_take_invariant hinv hs hok le_rfl
  rwa [List.take_length] at hrun

/-- If under an invariant some call goes on towards the goal, as a measure shows, calls lead to it. -/
theorem exists_calls {μ : σ → ℕ} (hinv : ∀ s c, Inv s → Ok c → Inv (step s c))
    (hprogress : ∀ s, Inv s → ¬ Good s → ∃ c, Ok c ∧ μ (step s c) < μ s) {s : σ} (hs : Inv s) :
    ∃ calls : List κ, (∀ c ∈ calls, Ok c) ∧ Good (calls.foldl step s) := by
  induction hμ : μ s using Nat.strong_induction_on generalizing s with
  | h n ih =>
    by_cases hgood : Good s
    · exact ⟨[], List.forall_mem_nil _, hgood⟩
    · obtain ⟨c, hc, hless⟩ := hprogress s hs hgood
      obtain ⟨calls, hcalls, hend⟩ := ih _ (hμ ▸ hless) (hinv s c hs hc) rfl
      exact ⟨c :: calls, List.forall_mem_cons.mpr ⟨hc, hcalls⟩, hend⟩

/-- When safe calls keep the property, a run of calls that are safe where they are made has it
in every state. -/
theorem good_throughout (hinv : ∀ s c, Inv s → Ok c → Inv (step s c))
    (hstep : ∀ s c, Inv s → Ok c → Good s → Safe s c → Good (step s c))
    {s : σ} (hs : Inv s) (hgood : Good s) {calls : List κ} (hok : ∀ c ∈ calls, Ok c)
    (hsafe : ∀ k (hk : k < calls.length), Safe ((calls.take k).foldl step s) calls[k]) :
    ∀ k ≤ calls.length, Good ((calls.take k).foldl step s) := by
  intro k hk
  induction k with
  | zero => exact hgood
  | succ k ih =>
    rw [foldl_take_succ s calls hk]
    exact hstep _ _ (foldl_take_invariant hinv hs hok (Nat.le_of_succ_le hk))
      (hok _ (List.getElem_mem hk)) (ih (Nat.le_of_succ_le hk)) (hsafe k hk)

/-- When a call keeps the property exactly if it is safe, all states of a run have it exactly
if every call of the run is safe where it is made. -/
theorem good_throughout_iff (hinv : ∀ s c, Inv s → Ok c → Inv (step s c))
    (hstep : ∀ s c, Inv s → Ok c → Good s → (Good (step s c) ↔ Safe s c))
    {s : σ} (hs : Inv s) (hgood : Good s) {calls : List κ} (hok : ∀ c ∈ calls, Ok c) :
    (∀ k ≤ calls.length, Good ((calls.take k).foldl step s)) ↔
      ∀ k (hk : k < calls.length), Safe ((calls.take k).foldl step s) calls[k] := by
  constructor
  · intro h k hk
    have hnext := h (k + 1) hk
    rw [foldl_take_succ s calls hk] at hnext
    exact (hstep _ _ (foldl_take_invariant hinv hs hok hk.le) (hok _ (List.getElem_mem hk))
      (h k hk.le)).mp hnext
  · exact good_throughout hinv (fun s c hi ho hg => (hstep s c hi ho hg).mpr) hs hgood hok

/-- What the steps of two systems keep between them, two runs of the same calls keep. -/
theorem foldl_simulates {τ : Type*} {step' : τ → κ → τ} {R : σ → τ → Prop}
    (hstep : ∀ s t c, R s t → Safe s c → R (step s c) (step' t c)) {s : σ} {t : τ} (h : R s t)
    {calls : List κ}
    (hsafe : ∀ k (hk : k < calls.length), Safe ((calls.take k).foldl step s) calls[k]) :
    R (calls.foldl step s) (calls.foldl step' t) := by
  induction calls generalizing s t with
  | nil => exact h
  | cons c calls ih =>
    refine ih (hstep s t c h (hsafe 0 (Nat.succ_pos _))) fun k hk => ?_
    exact hsafe (k + 1) (Nat.succ_lt_succ hk)

end calls

section partialRuns
variable {σ κ : Type*} {f : σ → κ → Option σ} {R : σ → σ → Prop}

/-- A run of a partial step function relates its ends by what every step relates. -/
theorem foldlM_related (hrefl : ∀ s, R s s) (htrans : ∀ s t u, R s t → R t u → R s u)
    (hstep : ∀ s c t, f s c = some t → R s t) (calls : List κ) {s t : σ}
    (h : calls.foldlM f s = some t) : R s t := by
  induction calls generalizing s with
  | nil =>
    obtain rfl := Option.some.inj h
    exact hrefl s
  | cons c calls ih =>
    rw [List.foldlM_cons] at h
    obtain ⟨u, hu, ht⟩ := Option.bind_eq_some_iff.mp h
    exact htrans s u t (hstep s c u hu) (ih ht)

/-- A counted loop that can fail ends when every pass under the invariant does. -/
theorem foldlM_range_induction {P : ℕ → σ → Prop} {f : σ → ℕ → Option σ} {s : σ} {n : ℕ}
    (init : P 0 s) (step : ∀ k s, k < n → P k s → ∃ t, f s k = some t ∧ P (k + 1) t) :
    ∃ t, (List.range n).foldlM f s = some t ∧ P n t := by
  have h : ∀ m ≤ n, ∃ t, (List.range m).foldlM f s = some t ∧ P m t := by
    intro m hm
    induction m with
    | zero => exact ⟨s, rfl, init⟩
    | succ m ih =>
      obtain ⟨u, hu, hP⟩ := ih (Nat.le_of_succ_le hm)
      obtain ⟨t, ht, hQ⟩ := step m u hm hP
      refine ⟨t, ?_, hQ⟩
      rw [List.range_succ, List.foldlM_append, hu]
      simpa using ht
  exact h n le_rfl

/-- Passes that change nothing leave the state. -/
lemma foldlM_eq_self {f : σ → κ → Option σ} {s : σ} {calls : List κ}
    (h : ∀ c ∈ calls, f s c = some s) : calls.foldlM f s = some s := by
  induction calls with
  | nil => rfl
  | cons c calls ih =>
    rw [List.foldlM_cons, h c List.mem_cons_self]
    exact ih fun d hd => h d (List.mem_cons_of_mem _ hd)

/-- When a pass under the invariant is defined exactly on the calls that are in order, a run is
defined exactly if all its calls are. -/
theorem foldlM_isSome_iff {I : σ → Prop} {P : κ → Prop}
    (hinv : ∀ s c t, I s → f s c = some t → I t) (hok : ∀ s c, I s → ((f s c).isSome = true ↔ P c))
    (calls : List κ) {s : σ} (hs : I s) :
    (calls.foldlM f s).isSome = true ↔ ∀ c ∈ calls, P c := by
  induction calls generalizing s with
  | nil => exact iff_of_true rfl (List.forall_mem_nil _)
  | cons c calls ih =>
    rw [List.foldlM_cons, List.forall_mem_cons, ← hok s c hs]
    cases hc : f s c with
    | none => simp
    | some t =>
      rw [Option.bind_eq_bind, Option.bind_some, ih (hinv s c t hs hc), Option.isSome_some]
      exact (and_iff_right rfl).symm

end partialRuns

section paths
variable {σ : Type*} {R : σ → σ → Prop} {μ : σ → ℕ}

/-- A measure that every step decreases leads each state to one without a successor. -/
theorem exists_stuck (hμ : ∀ s t, R s t → μ t < μ s) (s : σ) :
    ∃ t, Relation.ReflTransGen R s t ∧ ∀ u, ¬ R t u := by
  induction hn : μ s using Nat.strong_induction_on generalizing s with
  | h n ih =>
    by_cases hstep : ∃ u, R s u
    · obtain ⟨u, hu⟩ := hstep
      obtain ⟨t, hut, ht⟩ := ih (μ u) (hn ▸ hμ s u hu) u rfl
      exact ⟨t, .head hu hut, ht⟩
    · exact ⟨s, .refl, not_exists.mp hstep⟩

end paths

end Eureka.TransitionRuns
