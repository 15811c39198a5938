import Mathlib
import Eureka.RecencyOrder
import Eureka.WordBytes

/-! `PlanCache`: a list of plans with the latest used first, and a map from a subset hash to
the list node that holds it. -/
namespace Eureka.Jit
open WordBytes RecencyOrder

section model
variable {F : Type*}

structure PlanEntry (F : Type*) where
  subsetHash : Word
  func : F
  hitCount : BitVec 32

/-- A list node. An iterator is the identity of the node, which no splice changes. -/
structure Node (F : Type*) where
  id : ℕ
  entry : PlanEntry F

def Node.key (n : Node F) : Word := n.entry.subsetHash

/-- The map entry of a node. -/
def Node.link (n : Node F) : Σ _ : Word, ℕ := ⟨n.key, n.id⟩

structure PlanCache (F : Type*) where
  capacity : ℕ
  lruList : List (Node F)
  cacheMap : AList fun _ : Word => ℕ
  nextNode : ℕ

def PlanCache.new (maxPlans : ℕ) : PlanCache F := ⟨maxPlans, [], ∅, 0⟩

/-- The node that an iterator points to, and the other nodes. -/
def detach (it : ℕ) : List (Node F) → Option (Node F × List (Node F))
  | [] => none
  | n :: ns =>
    if n.id = it then some (n, ns)
    else (detach it ns).map fun r => (r.1, n :: r.2)

/-- The result is undefined for a map entry whose node is gone. -/
def lookupPlan (c : PlanCache F) (subsetHash : Word) : Option (Option F × PlanCache F) :=
  match c.cacheMap.lookup subsetHash with
  | none => some (none, c)
  | some it => (detach it c.lruList).map fun (n, others) =>
    let entry := { n.entry with hitCount := n.entry.hitCount + 1 }
    (some entry.func, { c with lruList := ⟨n.id, entry⟩ :: others })

/-- `--lru_list.end()` is undefined on an empty list. -/
def evictLast (c : PlanCache F) : Option (PlanCache F) :=
  c.lruList.getLast?.map fun last =>
    { c with
      cacheMap := c.cacheMap.erase last.entry.subsetHash
      lruList := c.lruList.dropLast }

def pushPlan (c : PlanCache F) (subsetHash : Word) (func : F) : PlanCache F :=
  { c with
    lruList := ⟨c.nextNode, subsetHash, func, 1⟩ :: c.lruList
    cacheMap := c.cacheMap.insert subsetHash c.nextNode
    nextNode := c.nextNode + 1 }

def insertPlan (c : PlanCache F) (subsetHash : Word) (func : F) : Option (PlanCache F) :=
  match c.cacheMap.lookup subsetHash with
  | some it => (detach it c.lruList).map fun (n, others) =>
    { c with lruList := ⟨n.id, { n.entry with func := func }⟩ :: others }
  | none =>
    if c.capacity ≤ c.cacheMap.entries.length then
      (evictLast c).map (pushPlan · subsetHash func)
    else some (pushPlan c subsetHash func)

inductive PlanCall (F : Type*)
  | insert (subsetHash : Word) (func : F)
  | lookup (subsetHash : Word)

/-- A call and the function that a lookup found. -/
abbrev Served (F : Type*) := PlanCall F × Option F

def serve (c : PlanCache F) : PlanCall F → Option (Option F × PlanCache F)
  | .insert subsetHash func => (insertPlan c subsetHash func).map fun c' => (none, c')
  | .lookup subsetHash => lookupPlan c subsetHash

def runCalls (c : PlanCache F) : List (PlanCall F) → Option (PlanCache F × List (Served F))
  | [] => some (c, [])
  | call :: calls => do
    let (found, c) ← serve c call
    let (c, trace) ← runCalls c calls
    some (c, (call, found) :: trace)

/-- The key that a call used: an insertion always does, a lookup when it finds something. -/
def usedKey : Served F → Option Word
  | (.insert h _, _) => some h
  | (.lookup h, some _) => some h
  | (.lookup _, none) => none

/-- The function of the last insertion for a key. -/
def lastInserted (calls : List (PlanCall F)) (h : Word) : Option F :=
  (calls.filterMap fun
    | .insert k func => if k = h then some func else none
    | .lookup _ => none).getLast?

/-- The list and the map are in bijection: the map's entries are those of the nodes. -/
structure Linked (c : PlanCache F) : Prop where
  bijection : c.cacheMap.entries.Perm (c.lruList.map Node.link)
  ids : (c.lruList.map Node.id).Nodup
  fresh : ∀ n ∈ c.lruList, n.id < c.nextNode

end model

namespace Linked
variable {F : Type*} {c : PlanCache F}

lemma keys_eq (l : List (Node F)) : (l.map Node.link).keys = l.map Node.key := by
  simp [List.keys, Node.link, Function.comp_def]

lemma keys_perm (h : Linked c) : c.cacheMap.keys.Perm (c.lruList.map Node.key) := by
  rw [← keys_eq]
  exact h.bijection.map Sigma.fst

/-- Each key once. -/
lemma keys_nodup (h : Linked c) : (c.lruList.map Node.key).Nodup :=
  h.keys_perm.nodup_iff.mp c.cacheMap.keys_nodup

lemma length_eq (h : Linked c) : c.cacheMap.entries.length = c.lruList.length := by
  rw [h.bijection.length_eq, List.length_map]

/-- The map points at the node that holds the key. -/
lemma lookup_iff (h : Linked c) (k : Word) (it : ℕ) :
    c.cacheMap.lookup k = some it ↔ ∃ n ∈ c.lruList, n.id = it ∧ n.key = k := by
  rw [← Option.mem_def, AList.mem_lookup_iff, h.bijection.mem_iff, List.mem_map]
  constructor
  · rintro ⟨n, hn, hlink⟩
    cases hlink
    exact ⟨n, hn, rfl, rfl⟩
  · rintro ⟨n, hn, rfl, rfl⟩
    exact ⟨n, hn, rfl⟩

lemma lookup_none (h : Linked c) (k : Word) :
    c.cacheMap.lookup k = none ↔ k ∉ c.lruList.map Node.key := by
  rw [AList.lookup_eq_none, AList.mem_keys, h.keys_perm.mem_iff]

lemma detach_split {front back : List (Node F)} {n : Node F}
    (h : ∀ m ∈ front, m.id ≠ n.id) :
    detach n.id (front ++ n :: back) = some (n, front ++ back) := by
  induction front with
  | nil => simp [detach]
  | cons m ms ih =>
    rw [List.cons_append, detach, if_neg (h m List.mem_cons_self),
      ih fun m' hm' => h m' (List.mem_cons_of_mem _ hm')]
    rfl

/-- A key of the list leads the map to its node, which is detached from its neighbours. -/
lemma find (h : Linked c) {k : Word} (hk : k ∈ c.lruList.map Node.key) :
    ∃ front n back, c.lruList = front ++ n :: back ∧ n.key = k ∧
      c.cacheMap.lookup k = some n.id ∧ detach n.id c.lruList = some (n, front ++ back) := by
  obtain ⟨n, hn, rfl⟩ := List.mem_map.mp hk
  obtain ⟨front, back, hl⟩ := List.append_of_mem hn
  refine ⟨front, n, back, hl, rfl, (h.lookup_iff n.key n.id).mpr ⟨n, hn, rfl, rfl⟩, ?_⟩
  have hids := h.ids
  rw [hl, List.map_append, List.map_cons, List.nodup_append] at hids
  rw [hl]
  refine detach_split fun m hm => ?_
  exact hids.2.2 m.id (List.mem_map_of_mem hm) n.id List.mem_cons_self

/-- A splice to the front that keeps the key of the node. -/
lemma splice (h : Linked c) {front back : List (Node F)} {n : Node F}
    (hl : c.lruList = front ++ n :: back) {e : PlanEntry F} (he : e.subsetHash = n.key) :
    Linked { c with lruList := ⟨n.id, e⟩ :: (front ++ back) } := by
  have hlink : Node.link ⟨n.id, e⟩ = n.link := by rw [Node.link, Node.key, he]; rfl
  have hperm : (n :: (front ++ back)).Perm c.lruList := by
    rw [hl]
    exact List.perm_middle.symm
  constructor
  · refine h.bijection.trans ((hperm.map Node.link).symm.trans ?_)
    rw [List.map_cons, List.map_cons, hlink]
  · exact (hperm.map Node.id).nodup_iff.mpr h.ids
  · intro m hm
    rcases List.mem_cons.mp hm with rfl | hm
    · exact h.fresh n (hl ▸ by simp)
    · exact h.fresh m (hperm.subset (List.mem_cons_of_mem _ hm))

lemma splice_keys (h : Linked c) {front back : List (Node F)} {n : Node F}
    (hl : c.lruList = front ++ n :: back) {e : PlanEntry F} (he : e.subsetHash = n.key) :
    ((⟨n.id, e⟩ : Node F) :: (front ++ back)).map Node.key =
      touch n.key (c.lruList.map Node.key) := by
  have hkeys := h.keys_nodup
  rw [hl, List.map_append, List.map_cons] at hkeys
  have hfront : n.key ∉ front.map Node.key := fun hn =>
    (List.nodup_append.mp hkeys).2.2 _ hn _ List.mem_cons_self rfl
  have hrest : (c.lruList.map Node.key).erase n.key = (front ++ back).map Node.key := by
    rw [hl, List.map_append, List.map_cons, List.erase_append_right _ hfront,
      List.erase_cons_head, List.map_append]
  have hkey : Node.key ⟨n.id, e⟩ = n.key := he
  rw [touch, hrest, List.map_cons, hkey]

lemma push (h : Linked c) {k : Word} (hk : k ∉ c.lruList.map Node.key) (func : F) :
    Linked (pushPlan c k func) := by
  have hmem : k ∉ c.cacheMap := by
    rw [AList.mem_keys, h.keys_perm.mem_iff]
    exact hk
  constructor
  · rw [pushPlan, AList.entries_insert_of_notMem hmem]
    exact h.bijection.cons _
  · refine List.nodup_cons.mpr ⟨?_, h.ids⟩
    intro hid
    obtain ⟨n, hn, hid⟩ := List.mem_map.mp hid
    have hlt := h.fresh n hn
    dsimp only at hid
    omega
  · intro n hn
    rcases List.mem_cons.mp hn with rfl | hn
    · exact Nat.lt_succ_self _
    · exact Nat.lt_succ_of_lt (h.fresh n hn)

/-- Eviction of the last node of a list that has one. -/
lemma evict (h : Linked c) (hne : c.lruList ≠ []) :
    ∃ c', evictLast c = some c' ∧ Linked c' ∧ c'.lruList = c.lruList.dropLast ∧
      c'.capacity = c.capacity := by
  obtain ⟨init, last, hl⟩ := (List.eq_nil_or_concat c.lruList).resolve_left hne
  rw [List.concat_eq_append] at hl
  have hlast : c.lruList.getLast? = some last := by rw [hl, List.getLast?_concat]
  have hdrop : c.lruList.dropLast = init := by rw [hl, List.dropLast_concat]
  refine ⟨{ c with
      cacheMap := c.cacheMap.erase last.entry.subsetHash
      lruList := c.lruList.dropLast }, by rw [evictLast, hlast, Option.map_some], ?_, rfl, rfl⟩
  have hkeys := h.keys_nodup
  have hids := h.ids
  rw [hl, List.map_append, List.nodup_append] at hkeys hids
  have hnot : last.key ∉ (init.map Node.link).keys := by
    rw [keys_eq]
    exact fun hmem => hkeys.2.2 _ hmem _ List.mem_cons_self rfl
  constructor
  · have hperm := h.bijection.kerase (a := last.key) c.cacheMap.nodupKeys
    rw [hl, List.map_append, List.kerase_append_right hnot] at hperm
    have htail : List.kerase last.key ([last].map Node.link) = [] := by
      simp [Node.link]
    rw [htail, List.append_nil] at hperm
    dsimp only
    rw [hdrop]
    exact hperm
  · dsimp only
    rw [hdrop]
    exact hids.1
  · intro n hn
    exact h.fresh n (List.mem_of_mem_dropLast hn)

end Linked

section refinement
variable {F : Type*} {capacity : ℕ}

/-- What the cache holds after a run: the most recent keys in order, each with the function
last inserted for it. -/
structure Refines (capacity : ℕ) (c : PlanCache F) (trace : List (Served F)) : Prop where
  linked : Linked c
  limit : c.capacity = capacity
  order : c.lruList.map Node.key = (recencyOf (trace.filterMap usedKey)).take capacity
  funcs : ∀ n ∈ c.lruList, lastInserted (trace.map Prod.fst) n.key = some n.entry.func

lemma lastInserted_lookup (calls : List (PlanCall F)) (k h : Word) :
    lastInserted (calls ++ [.lookup k]) h = lastInserted calls h := by
  simp [lastInserted]

lemma lastInserted_insert_self (calls : List (PlanCall F)) (k : Word) (func : F) :
    lastInserted (calls ++ [.insert k func]) k = some func := by
  simp [lastInserted]

lemma lastInserted_insert_ne (calls : List (PlanCall F)) {k h : Word} (hne : k ≠ h) (func : F) :
    lastInserted (calls ++ [.insert k func]) h = lastInserted calls h := by
  simp [lastInserted, hne]

variable {c : PlanCache F} {trace : List (Served F)}

lemma Refines.nil (capacity : ℕ) : Refines capacity (.new capacity : PlanCache F) [] where
  linked := ⟨List.Perm.refl _, List.nodup_nil, fun n hn => absurd hn List.not_mem_nil⟩
  limit := rfl
  order := by simp [PlanCache.new, recencyOf]
  funcs := fun n hn => absurd hn List.not_mem_nil

lemma Refines.length_le (h : Refines capacity c trace) : c.lruList.length ≤ capacity := by
  have hlen := congrArg List.length h.order
  rw [List.length_map, List.length_take] at hlen
  omega

/-- The uses after one more call that used its key. -/
lemma usedKeys_concat (trace : List (Served F)) {s : Served F} {k : Word} (hs : usedKey s = some k) :
    recencyOf ((trace ++ [s]).filterMap usedKey) = touch k (recencyOf (trace.filterMap usedKey)) := by
  rw [List.filterMap_append, List.filterMap_cons_some hs, List.filterMap_nil, recencyOf_concat]

/-- A call that finds its key moves the node to the front and may replace its function. -/
lemma Refines.hit (h : Refines capacity c trace) {front back : List (Node F)} {n : Node F}
    (hl : c.lruList = front ++ n :: back) {e : PlanEntry F} (he : e.subsetHash = n.key)
    {s : Served F} (hs : usedKey s = some n.key)
    (hself : lastInserted ((trace ++ [s]).map Prod.fst) n.key = some e.func)
    (hother : ∀ k, k ≠ n.key → lastInserted ((trace ++ [s]).map Prod.fst) k =
      lastInserted (trace.map Prod.fst) k) :
    Refines capacity { c with lruList := ⟨n.id, e⟩ :: (front ++ back) } (trace ++ [s]) where
  linked := h.linked.splice hl he
  limit := h.limit
  order := by
    have hmem : n.key ∈ (recencyOf (trace.filterMap usedKey)).take capacity := by
      rw [← h.order, hl]
      simp
    rw [usedKeys_concat trace hs, take_touch_of_mem hmem, ← h.order]
    exact h.linked.splice_keys hl he
  funcs := by
    have hkeys := h.linked.keys_nodup
    rw [hl, (List.perm_middle.map Node.key).nodup_iff, List.map_cons, List.nodup_cons] at hkeys
    intro m hm
    rcases List.mem_cons.mp hm with rfl | hm
    · rw [← hself, Node.key, he]
    · have hne : m.key ≠ n.key := fun heq => hkeys.1 (heq ▸ List.mem_map_of_mem hm)
      have hold : m ∈ c.lruList := by
        rw [hl]
        exact List.perm_middle.symm.subset (List.mem_cons_of_mem _ hm)
      rw [hother m.key hne]
      exact h.funcs m hold

/-- A lookup succeeds exactly for the kept keys and returns the last insertion. -/
theorem Refines.lookup (h : Refines capacity c trace) (k : Word) :
    ∃ found c', lookupPlan c k = some (found, c') ∧
      (found.isSome = true ↔ k ∈ (recencyOf (trace.filterMap usedKey)).take capacity) ∧
      (∀ func, found = some func → lastInserted (trace.map Prod.fst) k = some func) ∧
      Refines capacity c' (trace ++ [(.lookup k, found)]) := by
  by_cases hk : k ∈ c.lruList.map Node.key
  · obtain ⟨front, n, back, hl, rfl, hmap, hdetach⟩ := h.linked.find hk
    have hn := h.funcs n (hl ▸ by simp)
    refine ⟨some n.entry.func, _, by rw [lookupPlan, hmap]; dsimp only; rw [hdetach, Option.map_some],
      ?_, ?_, ?_⟩
    · rw [← h.order]
      exact iff_of_true rfl hk
    · intro func hfunc
      rw [hn, hfunc]
    · have hcalls : ∀ k', lastInserted
          ((trace ++ [(PlanCall.lookup n.key, some n.entry.func)]).map Prod.fst) k' =
            lastInserted (trace.map Prod.fst) k' := by
        intro k'
        rw [List.map_append, List.map_singleton, lastInserted_lookup]
      exact h.hit (e := { n.entry with hitCount := n.entry.hitCount + 1 }) hl rfl rfl
        ((hcalls n.key).trans hn) fun k' _ => hcalls k'
  · refine ⟨none, c, by rw [lookupPlan, (h.linked.lookup_none k).mpr hk], ?_, ?_, ?_⟩
    · rw [← h.order]
      exact iff_of_false (by simp) hk
    · exact fun func hfunc => absurd hfunc (by simp)
    · refine ⟨h.linked, h.limit, ?_, fun n hn => ?_⟩
      · have hunused : ([(PlanCall.lookup k, none)] : List (Served F)).filterMap usedKey = [] := rfl
        rw [List.filterMap_append, hunused, List.append_nil, h.order]
      · rw [List.map_append, List.map_singleton, lastInserted_lookup]
        exact h.funcs n hn

/-- A new key enters a list that holds all recent keys that fit beside it. -/
lemma Refines.push (h : Refines capacity c trace) {c' : PlanCache F} (hlinked : Linked c')
    (hlimit : c'.capacity = capacity) {k : Word} (hk : k ∉ c.lruList.map Node.key)
    (hsub : c'.lruList.Sublist c.lruList) (hcap : 1 ≤ capacity)
    (hkeys : c'.lruList.map Node.key = (recencyOf (trace.filterMap usedKey)).take (capacity - 1))
    (func : F) : Refines capacity (pushPlan c' k func) (trace ++ [(.insert k func, none)]) where
  linked := hlinked.push (fun hmem => hk ((hsub.map Node.key).subset hmem)) func
  limit := hlimit
  order := by
    obtain ⟨n, rfl⟩ := Nat.exists_eq_add_of_le' hcap
    rw [Nat.add_sub_cancel] at hkeys
    have hnot : k ∉ (recencyOf (trace.filterMap usedKey)).take n := by
      rw [← hkeys]
      exact fun hmem => hk ((hsub.map Node.key).subset hmem)
    rw [usedKeys_concat trace (k := k) rfl, take_touch_of_notMem hnot, ← hkeys]
    rfl
  funcs := by
    intro m hm
    rw [List.map_append, List.map_singleton]
    rcases List.mem_cons.mp hm with rfl | hm
    · exact lastInserted_insert_self _ k func
    · have hne : k ≠ m.key := fun heq => hk (heq ▸ List.mem_map_of_mem (hsub.subset hm))
      rw [lastInserted_insert_ne _ hne]
      exact h.funcs m (hsub.subset hm)

theorem Refines.insert (hcap : 1 ≤ capacity) (h : Refines capacity c trace) (k : Word) (func : F) :
    ∃ c', insertPlan c k func = some c' ∧
      Refines capacity c' (trace ++ [(.insert k func, none)]) := by
  by_cases hk : k ∈ c.lruList.map Node.key
  · obtain ⟨front, n, back, hl, rfl, hmap, hdetach⟩ := h.linked.find hk
    refine ⟨_, by rw [insertPlan, hmap]; dsimp only; rw [hdetach, Option.map_some], ?_⟩
    refine h.hit (e := { n.entry with func := func }) hl rfl rfl ?_ fun k' hk' => ?_
    · rw [List.map_append, List.map_singleton, lastInserted_insert_self]
    · rw [List.map_append, List.map_singleton, lastInserted_insert_ne _ hk'.symm]
  · have hmap := (h.linked.lookup_none k).mpr hk
    have hlen := h.length_le
    have hsize := congrArg List.length h.order
    rw [List.length_map, List.length_take] at hsize
    by_cases hfull : c.capacity ≤ c.cacheMap.entries.length
    · rw [h.limit, h.linked.length_eq] at hfull
      have hne : c.lruList ≠ [] := List.ne_nil_of_length_pos (by omega)
      obtain ⟨c', hevict, hlinked, hdrop, hlimit⟩ := h.linked.evict hne
      refine ⟨pushPlan c' k func, ?_, ?_⟩
      · rw [insertPlan, hmap]
        dsimp only
        rw [h.limit, h.linked.length_eq, if_pos hfull, hevict, Option.map_some]
      · refine h.push hlinked (hlimit.trans h.limit) hk ?_ hcap ?_ func
        · rw [hdrop]
          exact List.dropLast_sublist _
        · rw [hdrop, List.map_dropLast, h.order, List.dropLast_eq_take, List.take_take]
          congr 1
          rw [List.length_take]
          omega
    · refine ⟨pushPlan c k func, ?_, ?_⟩
      · rw [insertPlan, hmap]
        exact if_neg hfull
      · rw [h.limit, h.linked.length_eq] at hfull
        refine h.push h.linked h.limit hk (List.Sublist.refl _) hcap ?_ func
        rw [h.order, List.take_of_length_le (by omega), List.take_of_length_le (by omega)]

/-- A run from a cache that refines its history is defined, and refines the longer history. -/
theorem Refines.run (hcap : 1 ≤ capacity) (h : Refines capacity c trace)
    (calls : List (PlanCall F)) :
    ∃ c' trace', runCalls c calls = some (c', trace') ∧ trace'.map Prod.fst = calls ∧
      Refines capacity c' (trace ++ trace') := by
  induction calls generalizing c trace with
  | nil => exact ⟨c, [], rfl, rfl, by rwa [List.append_nil]⟩
  | cons call calls ih =>
    have hserve : ∃ found c', serve c call = some (found, c') ∧
        Refines capacity c' (trace ++ [(call, found)]) := by
      cases call with
      | insert k func =>
        obtain ⟨c', hc', href⟩ := h.insert hcap k func
        exact ⟨none, c', by rw [serve, hc', Option.map_some], href⟩
      | lookup k =>
        obtain ⟨found, c', hc', -, -, href⟩ := h.lookup k
        exact ⟨found, c', hc', href⟩
    obtain ⟨found, c', hc', href⟩ := hserve
    obtain ⟨c'', trace', hrun, hcalls, href'⟩ := ih href
    refine ⟨c'', (call, found) :: trace', ?_, ?_, ?_⟩
    · simp [runCalls, hc', hrun]
    · rw [List.map_cons, hcalls]
    · rw [List.append_assoc] at href'
      exact href'

/-- The plan cache after any calls: list and map are in bijection and within the capacity, and
a lookup finds exactly the most recently used distinct keys, with what was last inserted. -/
theorem planCache_lru (hcap : 1 ≤ capacity) (calls : List (PlanCall F)) :
    ∃ c trace, runCalls (.new capacity) calls = some (c, trace) ∧ trace.map Prod.fst = calls ∧
      Linked c ∧ (c.lruList.map Node.key).Nodup ∧
      (∀ k it, c.cacheMap.lookup k = some it ↔ ∃ n ∈ c.lruList, n.id = it ∧ n.key = k) ∧
      c.lruList.length ≤ capacity ∧ c.cacheMap.entries.length ≤ capacity ∧
      ∀ k, ∃ found c', lookupPlan c k = some (found, c') ∧
        (found.isSome = true ↔ k ∈ (recencyOf (trace.filterMap usedKey)).take capacity) ∧
        ∀ func, found = some func → lastInserted calls k = some func := by
  obtain ⟨c, trace, hrun, hcalls, href⟩ := (Refines.nil capacity).run hcap calls
  rw [List.nil_append] at href
  refine ⟨c, trace, hrun, hcalls, href.linked, href.linked.keys_nodup, href.linked.lookup_iff,
    href.length_le, href.linked.length_eq ▸ href.length_le, fun k => ?_⟩
  obtain ⟨found, c', hc', hfound, hlast, -⟩ := href.lookup k
  rw [hcalls] at hlast
  exact ⟨found, c', hc', hfound, hlast⟩

theorem planCache_lru_sample :
    ∃ c trace, runCalls (.new 1) [.insert 7 true, .lookup 7] = some (c, trace) ∧
      trace.map Prod.fst = [.insert 7 true, .lookup 7] ∧
      Linked c ∧ (c.lruList.map Node.key).Nodup ∧
      (∀ k it, c.cacheMap.lookup k = some it ↔ ∃ n ∈ c.lruList, n.id = it ∧ n.key = k) ∧
      c.lruList.length ≤ 1 ∧ c.cacheMap.entries.length ≤ 1 ∧
      ∀ k, ∃ found c', lookupPlan c k = some (found, c') ∧
        (found.isSome = true ↔ k ∈ (recencyOf (trace.filterMap usedKey)).take 1) ∧
        ∀ func, found = some func → lastInserted [.insert 7 true, .lookup 7] k = some func :=
  planCache_lru le_rfl [.insert 7 true, .lookup 7]

end refinement

end Eureka.Jit
