import Mathlib
import Eureka.PlanCache

/-! Plan caches of different capacities under the same calls. The smaller one keeps part of what
the larger one keeps, so more room never loses a plan. -/
namespace Eureka.Jit
open WordBytes RecencyOrder

section steps
variable {F : Type*} {capacity : ℕ} {c c' : PlanCache F} {trace : List (Served F)}

def PlanCache.keys (c : PlanCache F) : List Word := c.lruList.map Node.key

/-- A call that used its key moves or admits it. -/
lemma keys_used (hcap : 1 ≤ capacity) (h : Refines capacity c trace) {s : Served F} {k : Word}
    (hs : usedKey s = some k) (h' : Refines capacity c' (trace ++ [s])) :
    c'.keys = letIn capacity k c.keys := by
  have horder : c.keys = (recencyOf (trace.filterMap usedKey)).take capacity := h.order
  have horder' : c'.keys = (touch k (recencyOf (trace.filterMap usedKey))).take capacity := by
    rw [← usedKeys_concat trace hs]
    exact h'.order
  rw [letIn, horder', horder]
  split_ifs with hk
  · exact take_touch_of_mem hk
  · obtain ⟨m, rfl⟩ := Nat.exists_eq_add_of_le' hcap
    have hnot : k ∉ (recencyOf (trace.filterMap usedKey)).take m := fun hmem =>
      hk ((List.take_subset_take_left _ (Nat.le_succ m)) hmem)
    rw [take_touch_of_notMem hnot, Nat.add_sub_cancel, List.take_take, min_eq_left (Nat.le_succ m)]

/-- What a lookup finds and where it leaves the keys. -/
lemma lookup_spec (hcap : 1 ≤ capacity) (h : Refines capacity c trace) (k : Word) :
    ∃ found c', lookupPlan c k = some (found, c') ∧
      Refines capacity c' (trace ++ [(.lookup k, found)]) ∧ c'.keys = visit k c.keys ∧
      found = if k ∈ c.keys then lastInserted (trace.map Prod.fst) k else none := by
  obtain ⟨found, c', hlookup, hfound, hlast, href⟩ := h.lookup k
  have hmem : found.isSome = true ↔ k ∈ c.keys := by
    rw [hfound, ← h.order]
    rfl
  refine ⟨found, c', hlookup, href, ?_, ?_⟩
  · cases found with
    | none =>
      have hk : k ∉ c.keys := fun hk => Bool.false_ne_true (hmem.mpr hk)
      have horder := href.order
      rw [List.filterMap_append, List.filterMap_cons_none rfl, List.filterMap_nil, List.append_nil,
        ← h.order] at horder
      rw [visit, if_neg hk]
      exact horder
    | some func =>
      have hk : k ∈ c.keys := hmem.mp rfl
      rw [keys_used hcap h (k := k) rfl href, letIn, visit, if_pos hk, if_pos hk]
  · cases found with
    | none => rw [if_neg fun hk => Bool.false_ne_true (hmem.mpr hk)]
    | some func => rw [if_pos (hmem.mp rfl), hlast func rfl]

lemma insert_spec (hcap : 1 ≤ capacity) (h : Refines capacity c trace) (k : Word) (func : F) :
    ∃ c', insertPlan c k func = some c' ∧
      Refines capacity c' (trace ++ [(.insert k func, none)]) ∧ c'.keys = letIn capacity k c.keys := by
  obtain ⟨c', hinsert, href⟩ := h.insert hcap k func
  exact ⟨c', hinsert, href, keys_used hcap h (k := k) rfl href⟩

end steps

section runs
variable {F : Type*} {n n' : ℕ} {c c' : PlanCache F} {trace trace' : List (Served F)}

/-- Two caches after the same calls, the second with at least the room of the first. -/
structure SmallerOf (n n' : ℕ) (c c' : PlanCache F) (trace trace' : List (Served F)) : Prop where
  small : Refines n c trace
  large : Refines n' c' trace'
  calls : trace.map Prod.fst = trace'.map Prod.fst
  keys : Within n c.keys c'.keys

/-- The same call, and what the smaller cache finds the larger one finds. -/
def FoundAlso (s s' : Served F) : Prop := s.1 = s'.1 ∧ ∀ func, s.2 = some func → s'.2 = some func

lemma SmallerOf.serve (hn : 1 ≤ n) (hle : n ≤ n') (h : SmallerOf n n' c c' trace trace')
    (call : PlanCall F) : ∃ found found' d d', serve c call = some (found, d) ∧
      serve c' call = some (found', d') ∧ FoundAlso (call, found) (call, found') ∧
      SmallerOf n n' d d' (trace ++ [(call, found)]) (trace' ++ [(call, found')]) := by
  have hcalls : ∀ found found' : Option F, (trace ++ [(call, found)]).map Prod.fst =
      (trace' ++ [(call, found')]).map Prod.fst := by
    intro found found'
    rw [List.map_append, List.map_append, h.calls, List.map_singleton, List.map_singleton]
  cases call with
  | insert k func =>
    obtain ⟨d, hd, href, hkeys⟩ := insert_spec hn h.small k func
    obtain ⟨d', hd', href', hkeys'⟩ := insert_spec (hn.trans hle) h.large k func
    refine ⟨none, none, d, d', by rw [Jit.serve, hd, Option.map_some],
      by rw [Jit.serve, hd', Option.map_some], ⟨rfl, fun _ hfound => hfound⟩, href, href',
      hcalls none none, ?_⟩
    have hlength : c.keys.length ≤ n := by
      rw [PlanCache.keys, List.length_map]
      exact h.small.length_le
    have hlength' : c'.keys.length ≤ n' := by
      rw [PlanCache.keys, List.length_map]
      exact h.large.length_le
    rw [hkeys, hkeys']
    exact h.keys.letIn hn hle hlength hlength' k
  | lookup k =>
    obtain ⟨found, d, hd, href, hkeys, hfound⟩ := lookup_spec hn h.small k
    obtain ⟨found', d', hd', href', hkeys', hfound'⟩ := lookup_spec (hn.trans hle) h.large k
    refine ⟨found, found', d, d', hd, hd', ⟨rfl, fun func hfunc => ?_⟩, href, href',
      hcalls found found', ?_⟩
    · -- a key of the smaller cache is one of the larger, with the same last insertion
      have hk : k ∈ c.keys := by
        by_contra hk
        rw [hfound, if_neg hk] at hfunc
        exact Option.some_ne_none func hfunc.symm
      rw [hfound, if_pos hk, h.calls] at hfunc
      rw [hfound', if_pos (h.keys.sublist.subset hk), hfunc]
    · rw [hkeys, hkeys']
      exact h.keys.visit k

lemma SmallerOf.run (hn : 1 ≤ n) (hle : n ≤ n') (h : SmallerOf n n' c c' trace trace')
    (calls : List (PlanCall F)) : ∃ d d' served served', runCalls c calls = some (d, served) ∧
      runCalls c' calls = some (d', served') ∧ List.Forall₂ FoundAlso served served' ∧
      SmallerOf n n' d d' (trace ++ served) (trace' ++ served') := by
  induction calls generalizing c c' trace trace' with
  | nil =>
    refine ⟨c, c', [], [], rfl, rfl, List.Forall₂.nil, ?_⟩
    rwa [List.append_nil, List.append_nil]
  | cons call calls ih =>
    obtain ⟨found, found', d, d', hserve, hserve', hfound, hstep⟩ := h.serve hn hle call
    obtain ⟨e, e', served, served', hrun, hrun', hall, hend⟩ := ih hstep
    refine ⟨e, e', (call, found) :: served, (call, found') :: served', ?_, ?_,
      List.Forall₂.cons hfound hall, ?_⟩
    · simp [runCalls, hserve, hrun]
    · simp [runCalls, hserve', hrun']
    · rwa [List.append_assoc, List.append_assoc] at hend

/-- A larger plan cache never loses a hit: under the same calls, every lookup that finds a plan in a
cache of some capacity finds the same plan in any cache with at least that capacity, and at the end
the keys of the smaller cache stand among those of the larger one in the same order. -/
theorem larger_cache_finds (hn : 1 ≤ n) (hle : n ≤ n') (calls : List (PlanCall F)) :
    ∃ d d' served served', runCalls (.new n) calls = some (d, served) ∧
      runCalls (.new n') calls = some (d', served') ∧ List.Forall₂ FoundAlso served served' ∧
      d.keys.Sublist d'.keys := by
  have hstart : SmallerOf n n' (.new n : PlanCache F) (.new n') [] [] :=
    ⟨Refines.nil n, Refines.nil n', rfl, List.Sublist.refl _, Or.inr rfl⟩
  obtain ⟨d, d', served, served', hrun, hrun', hfound, hend⟩ := hstart.run hn hle calls
  exact ⟨d, d', served, served', hrun, hrun', hfound, hend.keys.sublist⟩

/-- With one place the second plan drives out the first, with two places both are found. -/
theorem larger_cache_finds_sample :
    ∃ d d' served served',
      runCalls (.new 1) [.insert 7 true, .insert 8 false, .lookup 7, .lookup 8] = some (d, served) ∧
      runCalls (.new 2) [.insert 7 true, .insert 8 false, .lookup 7, .lookup 8] = some (d', served') ∧
      List.Forall₂ FoundAlso served served' ∧ d.keys.Sublist d'.keys :=
  larger_cache_finds le_rfl (by norm_num) _

end runs

end Eureka.Jit
