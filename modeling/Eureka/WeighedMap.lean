import Mathlib

/-! Finite maps whose values have a weight, and the removal of keys in a given order until what is
left weighs less than a limit. -/
namespace Eureka.WeighedMap
variable {κ ν : Type*} [DecidableEq κ]

/-- The entries whose keys are not listed. -/
def without (ks : List κ) (m : AList fun _ : κ => ν) : AList fun _ : κ => ν :=
  ⟨m.entries.filter fun e => e.1 ∉ ks, m.nodupKeys.sublist List.filter_sublist⟩

def weight (w : ν → ℕ) (m : AList fun _ : κ => ν) : ℕ := (m.entries.map fun e => w e.2).sum

/-- The shortest part at the front of the listed keys without which the map weighs less than the
limit, or the whole list if there is none. -/
structure ShortestCut (w : ν → ℕ) (limit : ℤ) (ks : List κ) (m : AList fun _ : κ => ν) (n : ℕ) :
    Prop where
  le : n ≤ ks.length
  before : ∀ j < n, limit ≤ weight w (without (ks.take j) m)
  stop : (weight w (without (ks.take n) m) : ℤ) < limit ∨ n = ks.length

variable {w : ν → ℕ} {limit : ℤ} {k : κ} {ks : List κ} {m : AList fun _ : κ => ν} {v : ν}

section removal

lemma without_nil : without [] m = m := AList.ext (List.filter_eq_self.mpr fun _ _ => by simp)

lemma kerase_eq_filter {l : List (Sigma fun _ : κ => ν)} (h : l.NodupKeys) :
    l.kerase k = l.filter fun e => e.1 ∉ [k] := by
  induction l with
  | nil => rfl
  | cons e l ih =>
    obtain ⟨hnot, hl⟩ := List.nodupKeys_cons.mp h
    by_cases hk : k = e.1
    · subst hk
      rw [List.kerase_cons_eq rfl, List.filter_cons_of_neg (by simp)]
      refine (List.filter_eq_self.mpr fun f hf => ?_).symm
      rw [decide_eq_true_eq, List.mem_singleton]
      exact fun heq => hnot (heq ▸ List.mem_keys_of_mem hf)
    · rw [List.kerase_cons_ne hk, List.filter_cons_of_pos (by simpa using Ne.symm hk), ih hl]

/-- Listed keys are removed one after the other. -/
lemma without_cons : without (k :: ks) m = without ks (m.erase k) := by
  refine AList.ext ?_
  change m.entries.filter _ = (m.entries.kerase k).filter _
  rw [kerase_eq_filter m.nodupKeys, List.filter_filter]
  refine List.filter_congr fun e _ => ?_
  simp [Bool.and_comm]

lemma mem_entries_without {e : Sigma fun _ : κ => ν} :
    e ∈ (without ks m).entries ↔ e ∈ m.entries ∧ e.1 ∉ ks := by
  rw [without, List.mem_filter, decide_eq_true_eq]

lemma lookup_without_of_mem (h : k ∈ ks) : (without ks m).lookup k = none := by
  rw [AList.lookup_eq_none]
  intro hmem
  obtain ⟨e, he, rfl⟩ := List.mem_map.mp (AList.mem_keys.mp hmem)
  exact (mem_entries_without.mp he).2 h

lemma lookup_without_of_notMem (h : k ∉ ks) : (without ks m).lookup k = m.lookup k := by
  refine Option.ext fun v => ?_
  rw [← Option.mem_def, ← Option.mem_def, AList.mem_lookup_iff, AList.mem_lookup_iff,
    mem_entries_without]
  exact and_iff_left h

end removal

section cut

lemma ShortestCut.nil : ShortestCut w limit [] m 0 :=
  ⟨le_rfl, fun _ hj => absurd hj (Nat.not_lt_zero _), Or.inr rfl⟩

/-- No key has to go. -/
lemma ShortestCut.zero (h : (weight w m : ℤ) < limit) : ShortestCut w limit ks m 0 :=
  ⟨Nat.zero_le _, fun _ hj => absurd hj (Nat.not_lt_zero _),
    Or.inl (by rwa [List.take_zero, without_nil])⟩

/-- The first key has to go, and then what is left decides. -/
lemma ShortestCut.cons {n : ℕ} (h : limit ≤ weight w m) (hcut : ShortestCut w limit ks (m.erase k) n) :
    ShortestCut w limit (k :: ks) m (n + 1) := by
  refine ⟨Nat.succ_le_succ hcut.le, fun j hj => ?_, ?_⟩
  · cases j with
    | zero => rwa [List.take_zero, without_nil]
    | succ j =>
      rw [List.take_succ_cons, without_cons]
      exact hcut.before j (Nat.succ_lt_succ_iff.mp hj)
  · rw [List.take_succ_cons, without_cons, List.length_cons, Nat.succ_inj]
    exact hcut.stop

/-- There is only one. -/
theorem ShortestCut.unique {n n' : ℕ} (h : ShortestCut w limit ks m n)
    (h' : ShortestCut w limit ks m n') : n = n' := by
  have hno : ∀ a b, ShortestCut w limit ks m a → ShortestCut w limit ks m b → ¬ a < b := by
    intro a b ha hb hlt
    rcases ha.stop with hstop | hall
    · exact absurd (hb.before a hlt) (not_le.mpr hstop)
    · exact absurd hb.le (by omega)
  exact Nat.le_antisymm (not_lt.mp (hno n' n h' h)) (not_lt.mp (hno n n' h h'))

end cut

end Eureka.WeighedMap
