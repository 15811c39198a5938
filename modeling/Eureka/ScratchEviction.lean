import Mathlib
import Eureka.ScratchStorage

/-! What an eviction deletes. The loop is the shortest cut of the tracked files that exist, in the
order of their access times. -/
namespace Eureka.Scratch
open WordBytes JavaText WeighedMap

/-- Without some files and their access times. -/
def ScratchStorage.without (s : ScratchStorage) (keys : List JString) : ScratchStorage :=
  ⟨WeighedMap.without keys s.files, WeighedMap.without keys s.accessTimes⟩

/-- The tracked files that exist, the one that was accessed first in front. -/
structure EvictionOrder (s : ScratchStorage) (keys : List JString) : Prop where
  sorted : keys.Pairwise fun a b =>
    ∃ t ∈ s.accessTimes.lookup a, ∃ u ∈ s.accessTimes.lookup b, t < u
  complete : ∀ key, key ∈ keys ↔ key ∈ s.accessTimes ∧ key ∈ s.files

variable {cfg : ScratchConfig} {env : FetchEnv} {s : ScratchStorage}

section loop
variable {limitBytes : ℤ} {entry : AccessTime} {rest : List AccessTime} {key : JString} {content : Bytes}

/-- One deletion. -/
def ScratchStorage.evict (s : ScratchStorage) (key : JString) : ScratchStorage :=
  ⟨s.files.erase key, s.accessTimes.erase key⟩

end loop

section order

lemma sortedAccess_perm (env : FetchEnv) (s : ScratchStorage) :
    (sortedAccess env s).Perm s.accessTimes.entries :=
  (List.perm_insertionSort _ _).trans (env.entryOrder.perm _)

end order

/-- What an eviction must do: the files in front of the eviction order go, as few as bring the
directory below the limit or all of them, and their access times with them. -/
structure EvictedLeastRecent (limitBytes : ℤ) (s s' : ScratchStorage) (keys : List JString) (n : ℕ) :
    Prop where
  order : EvictionOrder s keys
  cut : ShortestCut List.length limitBytes keys s.files n
  deleted : ∀ key ∈ keys.take n,
    s'.files.lookup key = none ∧ s'.accessTimes.lookup key = none
  kept : ∀ key ∉ keys.take n,
    s'.files.lookup key = s.files.lookup key ∧ s'.accessTimes.lookup key = s.accessTimes.lookup key

/-- The order is fixed by the files and the access times. -/
lemma EvictionOrder.unique {keys keys' : List JString} (h : EvictionOrder s keys)
    (h' : EvictionOrder s keys') : keys = keys' := by
  have hasymm : ∀ a b : JString, (∃ t ∈ s.accessTimes.lookup a, ∃ u ∈ s.accessTimes.lookup b, t < u) →
      ¬ ∃ t ∈ s.accessTimes.lookup b, ∃ u ∈ s.accessTimes.lookup a, t < u := by
    rintro a b ⟨t, ht, u, hu, htu⟩ ⟨u', hu', t', ht', hut⟩
    have hu := Option.some.inj (hu.symm.trans hu')
    have ht := Option.some.inj (ht.symm.trans ht')
    omega
  have hantisymm : Std.Asymm fun a b : JString =>
      ∃ t ∈ s.accessTimes.lookup a, ∃ u ∈ s.accessTimes.lookup b, t < u := ⟨hasymm⟩
  exact h.sorted.eq_of_mem_iff h'.sorted fun key => (h.complete key).trans (h'.complete key).symm

/-- What an eviction must do leaves no choice. -/
theorem EvictedLeastRecent.unique {limitBytes : ℤ} {s' s'' : ScratchStorage} {keys keys' : List JString}
    {n n' : ℕ} (h : EvictedLeastRecent limitBytes s s' keys n)
    (h' : EvictedLeastRecent limitBytes s s'' keys' n') : keys = keys' ∧ n = n' ∧
      ∀ key, s'.files.lookup key = s''.files.lookup key ∧
        s'.accessTimes.lookup key = s''.accessTimes.lookup key := by
  obtain rfl := h.order.unique h'.order
  obtain rfl := h.cut.unique h'.cut
  refine ⟨rfl, rfl, fun key => ?_⟩
  by_cases hkey : key ∈ keys.take n
  · rw [(h.deleted key hkey).1, (h.deleted key hkey).2, (h'.deleted key hkey).1,
      (h'.deleted key hkey).2]
    exact ⟨rfl, rfl⟩
  · rw [(h.kept key hkey).1, (h.kept key hkey).2, (h'.kept key hkey).1, (h'.kept key hkey).2]
    exact ⟨rfl, rfl⟩

section samples

/-- Nothing fails, and a map lists its entries as they stand. -/
def workingEnv (content : Bytes) : FetchEnv where
  currentTimeMillis := 0
  entryOrder := ⟨id, fun _ => .refl _⟩
  deleteFails _ := false
  workspaceFile _ := some content
  stream := some content
  creates := true
  breaksAfter := none

end samples

end Eureka.Scratch
