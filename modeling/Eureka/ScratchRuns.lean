import Mathlib
import Eureka.ScratchEviction

/-! Runs of calls and restarts. A restart forgets the access times and keeps the directory, so the
files that it leaves behind are no victims until they are requested again. -/
namespace Eureka.Scratch
open WordBytes ByteText JavaText WeighedMap

inductive ScratchAction
  | fetch (env : FetchEnv) (filePath : JString)
  | restart

def ScratchStorage.step (cfg : ScratchConfig) (s : ScratchStorage) : ScratchAction → ScratchStorage
  | .fetch env filePath => (resolveAndFetch cfg env s filePath).2
  | .restart => { s with accessTimes := ∅ }

def run (cfg : ScratchConfig) (s : ScratchStorage) (actions : List ScratchAction) : ScratchStorage :=
  actions.foldl (ScratchStorage.step cfg) s

/-- The call downloads a file. -/
def Misses (s : ScratchStorage) (filePath : JString) : Prop :=
  isCloud filePath = true ∧ generateCacheKey filePath ∉ s.files

instance (s : ScratchStorage) (filePath : JString) : Decidable (Misses s filePath) :=
  inferInstanceAs (Decidable (_ ∧ _))

/-- What `evictIfNecessary` returns with in the course of a call. -/
def evictedState (cfg : ScratchConfig) (env : FetchEnv) (s : ScratchStorage) (filePath : JString) :
    ScratchStorage :=
  evictIfNecessary cfg env (s.touch (generateCacheKey filePath) env.currentTimeMillis)

/-- The files that no access time names. -/
def untracked (s : ScratchStorage) : AList fun _ : JString => Bytes :=
  without s.accessTimes.keys s.files

/-- An eviction takes some of the tracked files with their access times. -/
def EvictedFrom (s s' : ScratchStorage) : Prop :=
  ∀ key, (s'.files.lookup key = s.files.lookup key ∧
      s'.accessTimes.lookup key = s.accessTimes.lookup key) ∨
    (key ∈ s.accessTimes ∧ key ∈ s.files ∧ s'.files.lookup key = none ∧
      s'.accessTimes.lookup key = none)

variable {cfg : ScratchConfig} {env : FetchEnv} {s s' : ScratchStorage} {filePath : JString}

section calls

/-- The three ways of a call on a cloud URI or a local path. -/
lemma step_local (h : ¬ isCloud filePath = true) :
    (resolveAndFetch cfg env s filePath).2 = s := by
  rw [resolveAndFetch, if_pos h]
  split_ifs <;> rfl

lemma ne_nil_of_isCloud (h : isCloud filePath = true) : filePath ≠ [] := by
  rintro rfl
  exact absurd h (by decide)

lemma step_hit (h : isCloud filePath = true) (hfile : generateCacheKey filePath ∈ s.files) :
    resolveAndFetch cfg env s filePath = (.ok (cachedPath cfg (generateCacheKey filePath)),
      s.touch (generateCacheKey filePath) env.currentTimeMillis) := by
  rw [resolveAndFetch, if_neg (ne_nil_of_isCloud h), if_neg (not_not.mpr h)]
  exact if_pos hfile

lemma step_miss (h : Misses s filePath) : resolveAndFetch cfg env s filePath =
    (if (download env filePath).2 then .ok (cachedPath cfg (generateCacheKey filePath))
      else .error .ioException,
      (evictedState cfg env s filePath).store (generateCacheKey filePath) (download env filePath).1) := by
  rw [resolveAndFetch, if_neg (ne_nil_of_isCloud h.1), if_neg (not_not.mpr h.1)]
  exact if_neg h.2

end calls

section evictions

lemma EvictedFrom.erase (h : EvictedFrom s s') {key : JString} (hkey : key ∈ s.accessTimes)
    {content : Bytes} (hfile : s'.files.lookup key = some content) :
    EvictedFrom s ⟨s'.files.erase key, s'.accessTimes.erase key⟩ := by
  intro other
  by_cases heq : other = key
  · subst heq
    refine Or.inr ⟨hkey, ?_, AList.lookup_erase other _, AList.lookup_erase other _⟩
    rcases h other with ⟨hsame, -⟩ | ⟨-, hfiles, -⟩
    · exact AList.lookup_isSome.mp (by rw [← hsame, hfile]; rfl)
    · exact hfiles
  · simp only [AList.lookup_erase_ne heq]
    exact h other

/-- Whatever fails, only tracked files go. -/
lemma evictedFrom_loop {entries : List AccessTime} (hkeys : ∀ e ∈ entries, e.1 ∈ s.accessTimes)
    (limitBytes currentSize : ℤ) (h : EvictedFrom s s') :
    EvictedFrom s (evictLoop env limitBytes entries currentSize s') := by
  induction entries generalizing s' currentSize with
  | nil => exact h
  | cons entry rest ih =>
    obtain ⟨hkey, hrest⟩ := List.forall_mem_cons.mp hkeys
    rw [evictLoop]
    cases hfile : s'.files.lookup entry.1 with
    | none => exact ih hrest _ h
    | some content =>
      have herased := h.erase hkey hfile
      dsimp only
      split_ifs
      · exact ih hrest _ h
      · exact herased
      · exact ih hrest _ herased

theorem evictedFrom_evictIfNecessary (cfg : ScratchConfig) (env : FetchEnv) (s : ScratchStorage) :
    EvictedFrom s (evictIfNecessary cfg env s) := by
  have hself : EvictedFrom s s := fun _ => Or.inl ⟨rfl, rfl⟩
  rw [evictIfNecessary]
  split_ifs
  · exact hself
  · refine evictedFrom_loop (fun e he => ?_) _ _ hself
    exact List.mem_keys_of_mem ((sortedAccess_perm env s).mem_iff.mp he)

end evictions

section history

lemma lookup_untracked (key : JString) : (untracked s).lookup key =
    if key ∈ s.accessTimes then none else s.files.lookup key := by
  split_ifs with h
  · exact lookup_without_of_mem (AList.mem_keys.mp h)
  · exact lookup_without_of_notMem fun hmem => h (AList.mem_keys.mpr hmem)

lemma untracked_restart (cfg : ScratchConfig) (s : ScratchStorage) :
    untracked (s.step cfg .restart) = s.files := without_nil

lemma mem_touch (s : ScratchStorage) (ck : JString) (time : ℤ) (key : JString) :
    key ∈ (s.touch ck time).accessTimes ↔ key = ck ∨ key ∈ s.accessTimes :=
  AList.mem_insert s.accessTimes

lemma lookup_touch_of_ne (s : ScratchStorage) {ck key : JString} (time : ℤ) (h : key ≠ ck) :
    (s.touch ck time).accessTimes.lookup key = s.accessTimes.lookup key :=
  AList.lookup_insert_ne h

lemma store_accessTimes (s : ScratchStorage) (ck : JString) (target : Option Bytes) :
    (s.store ck target).accessTimes = s.accessTimes := by
  cases target <;> rfl

lemma lookup_store_of_ne (s : ScratchStorage) {ck key : JString} (target : Option Bytes)
    (h : key ≠ ck) : (s.store ck target).files.lookup key = s.files.lookup key := by
  cases target with
  | none => rfl
  | some content => exact AList.lookup_insert_ne h

/-- The file that a call asks for is tracked afterwards. -/
lemma fetch_tracks (hcloud : isCloud filePath = true) :
    generateCacheKey filePath ∈ (s.step cfg (.fetch env filePath)).accessTimes := by
  have htouched : generateCacheKey filePath ∈
      (s.touch (generateCacheKey filePath) env.currentTimeMillis).accessTimes :=
    (mem_touch s _ _ _).mpr (Or.inl rfl)
  rw [ScratchStorage.step]
  by_cases hfile : generateCacheKey filePath ∈ s.files
  · rw [step_hit hcloud hfile]
    exact htouched
  · rw [step_miss ⟨hcloud, hfile⟩, store_accessTimes]
    rcases evictedFrom_evictIfNecessary cfg env
      (s.touch (generateCacheKey filePath) env.currentTimeMillis) (generateCacheKey filePath)
      with ⟨-, hsame⟩ | ⟨-, hfiles, -⟩
    · exact AList.lookup_isSome.mp (by rw [evictedState, hsame]; exact AList.lookup_isSome.mpr htouched)
    · exact absurd hfiles hfile

/-- Another file stays as it is, or it was tracked and is evicted. -/
lemma fetch_others {key : JString} (hkey : isCloud filePath = true → key ≠ generateCacheKey filePath) :
    ((s.step cfg (.fetch env filePath)).files.lookup key = s.files.lookup key ∧
      (s.step cfg (.fetch env filePath)).accessTimes.lookup key = s.accessTimes.lookup key) ∨
    (key ∈ s.accessTimes ∧ (s.step cfg (.fetch env filePath)).files.lookup key = none) := by
  rw [ScratchStorage.step]
  by_cases hcloud : isCloud filePath = true
  · have hne := hkey hcloud
    by_cases hfile : generateCacheKey filePath ∈ s.files
    · rw [step_hit hcloud hfile]
      exact Or.inl ⟨rfl, lookup_touch_of_ne s _ hne⟩
    · rw [step_miss ⟨hcloud, hfile⟩, store_accessTimes, lookup_store_of_ne _ _ hne]
      rcases evictedFrom_evictIfNecessary cfg env
        (s.touch (generateCacheKey filePath) env.currentTimeMillis) key
        with ⟨hfiles, htimes⟩ | ⟨htracked, -, hnone, -⟩
      · exact Or.inl ⟨hfiles, htimes.trans (lookup_touch_of_ne s _ hne)⟩
      · exact Or.inr ⟨((mem_touch s _ _ key).mp htracked).resolve_left hne, hnone⟩
  · rw [step_local hcloud]
    exact Or.inl ⟨rfl, rfl⟩

/-- A call takes the file that it asks for out of the untracked ones, and no other. -/
theorem untracked_fetch (cfg : ScratchConfig) (env : FetchEnv) (s : ScratchStorage)
    (filePath key : JString) : (untracked (s.step cfg (.fetch env filePath))).lookup key =
      if isCloud filePath = true ∧ key = generateCacheKey filePath then none
      else (untracked s).lookup key := by
  split_ifs with hrequested
  · obtain ⟨hcloud, rfl⟩ := hrequested
    rw [lookup_untracked, if_pos (fetch_tracks hcloud)]
  · rw [lookup_untracked, lookup_untracked]
    rcases @fetch_others cfg env s filePath key (fun hcloud heq => hrequested ⟨hcloud, heq⟩)
      with ⟨hfiles, htimes⟩ | ⟨htracked, hnone⟩
    · have hmem : key ∈ (s.step cfg (.fetch env filePath)).accessTimes ↔ key ∈ s.accessTimes := by
        rw [← AList.lookup_isSome, ← AList.lookup_isSome, htimes]
      rw [hfiles]
      exact if_congr hmem rfl rfl
    · rw [hnone, ite_self, if_pos htracked]

/-- After a restart the untracked files are those that the directory held and that no call has
asked for since. -/
theorem untracked_since_restart (cfg : ScratchConfig) (s : ScratchStorage)
    (calls : List (FetchEnv × JString)) (key : JString) :
    (untracked (run cfg (s.step cfg .restart) (calls.map fun c => .fetch c.1 c.2))).lookup key =
      if ∃ c ∈ calls, isCloud c.2 = true ∧ key = generateCacheKey c.2 then none
      else s.files.lookup key := by
  induction calls using List.reverseRecOn with
  | nil =>
    rw [List.map_nil, run, List.foldl_nil, untracked_restart]
    simp
  | append_singleton calls c ih =>
    rw [run, List.map_append, List.foldl_append, List.map_singleton, List.foldl_cons, List.foldl_nil,
      ← run, untracked_fetch, ih]
    have hsplit : (∃ d ∈ calls ++ [c], isCloud d.2 = true ∧ key = generateCacheKey d.2) ↔
        (∃ d ∈ calls, isCloud d.2 = true ∧ key = generateCacheKey d.2) ∨
          (isCloud c.2 = true ∧ key = generateCacheKey c.2) := by
      simp only [List.mem_append, List.mem_singleton, or_and_right, exists_or, exists_eq_left]
    by_cases hlast : isCloud c.2 = true ∧ key = generateCacheKey c.2
    · rw [if_pos hlast, if_pos (hsplit.mpr (Or.inr hlast))]
    · rw [if_neg hlast]
      exact if_congr (hsplit.trans (or_iff_left hlast)).symm rfl rfl

end history

section samples

def sampleConfig (limitBytes : ℤ) : ScratchConfig := ⟨java "/scratch", limitBytes, id⟩

end samples

end Eureka.Scratch
