import Mathlib

/-! Recency of use. The distinct keys of a history stand with the latest used first, and the
first few of them are what a least-recently-used policy keeps. -/
namespace Eureka.RecencyOrder
variable {α : Type*} [DecidableEq α]

/-- The distinct keys of a history, the most recently used one first. -/
def recencyOf (uses : List α) : List α := uses.dedup.reverse

/-- A use moves a key to the front. -/
def touch (k : α) (ks : List α) : List α := k :: ks.erase k

lemma recencyOf_nodup (uses : List α) : (recencyOf uses).Nodup :=
  List.nodup_reverse.mpr (List.nodup_dedup uses)

lemma dedup_concat (uses : List α) (k : α) :
    (uses ++ [k]).dedup = uses.dedup.erase k ++ [k] := by
  induction uses with
  | nil => rfl
  | cons u us ih =>
    by_cases hu : u ∈ us
    · have hmem : u ∈ us ++ [k] := List.mem_append_left _ hu
      rw [List.cons_append, List.dedup_cons_of_mem hmem, List.dedup_cons_of_mem hu, ih]
    · rw [List.dedup_cons_of_notMem hu]
      by_cases huk : u = k
      · subst huk
        have hmem : u ∈ us ++ [u] := List.mem_append_right _ List.mem_cons_self
        have herase : us.dedup.erase u = us.dedup :=
          List.erase_of_not_mem (mt List.mem_dedup.mp hu)
        rw [List.cons_append, List.dedup_cons_of_mem hmem, ih, List.erase_cons_head, herase]
      · have hnot : u ∉ us ++ [k] := by simp [hu, huk]
        rw [List.cons_append, List.dedup_cons_of_notMem hnot, ih,
          List.erase_cons_tail (by simpa using huk), List.cons_append]

/-- One more use touches its key. -/
theorem recencyOf_concat (uses : List α) (k : α) :
    recencyOf (uses ++ [k]) = touch k (recencyOf uses) := by
  have hdedup := List.nodup_dedup uses
  have hrecency := recencyOf_nodup uses
  rw [recencyOf, dedup_concat, List.reverse_append, List.reverse_singleton, touch,
    hdedup.erase_eq_filter, hrecency.erase_eq_filter, recencyOf, List.filter_reverse]
  rfl

/-- A use of a kept key reorders the kept keys. -/
lemma take_touch_of_mem {k : α} {ks : List α} {n : ℕ} (h : k ∈ ks.take n) :
    (touch k ks).take n = touch k (ks.take n) := by
  induction ks generalizing n with
  | nil => simp at h
  | cons a ks ih =>
    cases n with
    | zero => simp at h
    | succ n =>
      rw [List.take_succ_cons] at h
      by_cases ha : a = k
      · simp [touch, ha]
      · have hk : k ∈ ks.take n := (List.mem_cons.mp h).resolve_left (Ne.symm ha)
        cases n with
        | zero => simp at hk
        | succ n =>
          have hrest : (ks.erase k).take n = (ks.take (n + 1)).erase k :=
            List.tail_eq_of_cons_eq (ih hk)
          rw [touch, touch, List.take_succ_cons, List.take_succ_cons,
            List.erase_cons_tail (by simpa using ha), List.erase_cons_tail (by simpa using ha),
            List.take_succ_cons, hrest]

/-- A use of any other key drops what no longer fits. -/
lemma take_touch_of_notMem {k : α} {ks : List α} {n : ℕ} (h : k ∉ ks.take n) :
    (touch k ks).take (n + 1) = k :: ks.take n := by
  have hrest : (ks.erase k).take n = ks.take n := by
    induction ks generalizing n with
    | nil => simp
    | cons a ks ih =>
      cases n with
      | zero => simp
      | succ n =>
        rw [List.take_succ_cons, List.mem_cons, not_or] at h
        rw [List.erase_cons_tail (by simpa using Ne.symm h.1), List.take_succ_cons,
          List.take_succ_cons, ih h.2]
  rw [touch, List.take_succ_cons, hrest]

section sizes

/-- A use that counts for a kept key only. -/
def visit (k : α) (ks : List α) : List α := if k ∈ ks then touch k ks else ks

/-- A use that keeps its key, within a capacity. -/
def letIn (capacity : ℕ) (k : α) (ks : List α) : List α :=
  if k ∈ ks then touch k ks else k :: ks.take (capacity - 1)

/-- The keys that a smaller capacity keeps are among those of a larger one, in the same order, and
they are the same as long as the smaller one has room. -/
structure Within (n : ℕ) (ks ks' : List α) : Prop where
  sublist : ks.Sublist ks'
  full : n ≤ ks.length ∨ ks = ks'

variable {k : α} {ks ks' : List α} {n n' : ℕ}

lemma length_touch (h : k ∈ ks) : (touch k ks).length = ks.length := by
  rw [touch, List.length_cons, List.length_erase_of_mem h]
  exact Nat.sub_add_cancel (List.length_pos_of_mem h)

lemma Within.touch (h : Within n ks ks') (hk : k ∈ ks) :
    Within n (RecencyOrder.touch k ks) (RecencyOrder.touch k ks') := by
  refine ⟨(h.sublist.erase k).cons_cons k, ?_⟩
  rw [length_touch hk]
  exact h.full.imp_right fun heq => by rw [heq]

/-- A key that only the larger capacity keeps. -/
lemma Within.sublist_touch (h : Within n ks ks') (hk : k ∉ ks) :
    ks.Sublist (ks'.erase k) ∧ (k ∈ ks' → n ≤ ks.length) := by
  refine ⟨?_, fun hk' => h.full.resolve_right fun heq => hk (heq ▸ hk')⟩
  have herase := h.sublist.erase k
  rwa [List.erase_of_not_mem hk] at herase

lemma Within.visit (h : Within n ks ks') (k : α) :
    Within n (RecencyOrder.visit k ks) (RecencyOrder.visit k ks') := by
  rw [RecencyOrder.visit, RecencyOrder.visit]
  by_cases hk : k ∈ ks
  · rw [if_pos hk, if_pos (h.sublist.subset hk)]
    exact h.touch hk
  · rw [if_neg hk]
    obtain ⟨hsub, hfull⟩ := h.sublist_touch hk
    split_ifs with hk'
    · exact ⟨hsub.cons k, Or.inl (hfull hk')⟩
    · exact h

omit [DecidableEq α] in
lemma dropLast_sublist_dropLast (h : ks.Sublist ks') : ks.dropLast.Sublist ks'.dropLast := by
  have htail := h.reverse.tail.reverse
  rwa [List.tail_reverse, List.tail_reverse, List.reverse_reverse, List.reverse_reverse] at htail

omit [DecidableEq α] in
/-- Room for one more key is made by dropping the last one where all places are taken. -/
lemma take_pred (hn : 1 ≤ n) (h : ks.length ≤ n) :
    ks.take (n - 1) = if ks.length = n then ks.dropLast else ks := by
  split_ifs with hlength
  · rw [List.dropLast_eq_take, hlength]
  · exact List.take_of_length_le (by omega)

lemma Within.letIn (hn : 1 ≤ n) (hle : n ≤ n') (h : Within n ks ks') (hlength : ks.length ≤ n)
    (hlength' : ks'.length ≤ n') (k : α) :
    Within n (RecencyOrder.letIn n k ks) (RecencyOrder.letIn n' k ks') := by
  rw [RecencyOrder.letIn, RecencyOrder.letIn]
  by_cases hk : k ∈ ks
  · rw [if_pos hk, if_pos (h.sublist.subset hk)]
    exact h.touch hk
  · rw [if_neg hk]
    obtain ⟨hsub, hfull⟩ := h.sublist_touch hk
    have htake : (ks.take (n - 1)).length + 1 = min n (ks.length + 1) := by
      rw [List.length_take]
      omega
    split_ifs with hk'
    · have hroom := hfull hk'
      refine ⟨((List.take_sublist _ _).trans hsub).cons_cons k, Or.inl ?_⟩
      rw [List.length_cons]
      omega
    · rw [take_pred hn hlength, take_pred (hn.trans hle) hlength']
      rcases h.full with hroom | rfl
      · have heq : ks.length = n := le_antisymm hlength hroom
        rw [if_pos heq]
        refine ⟨List.Sublist.cons_cons k ?_, Or.inl ?_⟩
        · split_ifs
          · exact dropLast_sublist_dropLast h.sublist
          · exact (List.dropLast_sublist ks).trans h.sublist
        · rw [List.length_cons, List.length_dropLast]
          omega
      · by_cases heq : ks.length = n
        · rw [if_pos heq]
          refine ⟨List.Sublist.cons_cons k ?_, Or.inl ?_⟩
          · split_ifs
            · exact List.Sublist.refl _
            · exact List.dropLast_sublist ks
          · rw [List.length_cons, List.length_dropLast]
            omega
        · rw [if_neg heq, if_neg (by omega)]
          exact ⟨List.Sublist.refl _, Or.inr rfl⟩

end sizes

end Eureka.RecencyOrder
