import Mathlib
import Eureka.MappingCache

/-! The background pin threads of `PrewarmCache`. The whole call after the path check is one
section under `cache_mutex_`, and so is the end of a thread, which looks its path up again.
The start of a thread is taken to succeed. -/
namespace Eureka.Service

/-- What the thread captures. -/
structure PinThread where
  mapped : String
  fileBytes : ℕ
  path : String
  deriving DecidableEq, Repr

/-- `threads` are spawned and have not run their final section. -/
structure PinServer where
  cache : MappedFilesCache
  threads : List PinThread

/-- `size` is what `open` and `fstat` find and `mapped` what `mmap` returns, `none` where they
fail. The thread of a new file is spawned before the entry is stored, under the same lock. -/
def prewarmPins (names : PathNames) (s : PinServer) (rawFilepath : String) (pinMemory : Bool)
    (size : Option ℕ) (mapped : Option String) : PinServer :=
  let filepath := names.canonical rawFilepath
  if ¬ isAgb filepath then s
  else
    match s.cache filepath with
    | some m =>
      if pinMemory ∧ ¬ m.pinned ∧ ¬ m.pinInProgress then
        { cache := Function.update s.cache filepath (some { m with pinInProgress := true })
          threads := s.threads ++ [⟨m.addr, m.size, filepath⟩] }
      else s
    | none =>
      match size with
      | none => s
      | some fileBytes =>
        if fileBytes = 0 then s
        else
          match mapped with
          | none => s
          | some addr =>
            { cache := Function.update s.cache filepath (some ⟨addr, fileBytes, false, pinMemory⟩)
              threads :=
                if pinMemory then s.threads ++ [⟨addr, fileBytes, filepath⟩] else s.threads }

/-- The final section of a thread; `locked` is whether `mlock` succeeded. -/
def finishPin (cache : MappedFilesCache) (path : String) (locked : Bool) : MappedFilesCache :=
  match cache path with
  | none => cache
  | some m =>
    Function.update cache path (some
      (if locked then { m with pinned := true, pinInProgress := false }
      else { m with pinInProgress := false }))

inductive PinAction
  | prewarm (names : PathNames) (rawFilepath : String) (pinMemory : Bool) (size : Option ℕ)
      (mapped : Option String)
  | finish (thread : ℕ) (locked : Bool)

def PinServer.step (s : PinServer) : PinAction → PinServer
  | .prewarm names rawFilepath pinMemory size mapped =>
    prewarmPins names s rawFilepath pinMemory size mapped
  | .finish thread locked =>
    match s.threads[thread]? with
    | none => s
    | some t => ⟨finishPin s.cache t.path locked, s.threads.eraseIdx thread⟩

def PinServer.start : PinServer := ⟨fun _ => none, []⟩

def PinServer.run (s : PinServer) (actions : List PinAction) : PinServer :=
  actions.foldl PinServer.step s

/-- The unfinished threads of a path. -/
def PinServer.pending (s : PinServer) (path : String) : ℕ :=
  s.threads.countP fun t => t.path = path

/-- One unfinished thread for an entry that is being pinned, none for any other path. -/
def PinsPaired (entry : Option MappedFile) (pending : ℕ) : Prop :=
  match entry with
  | none => pending = 0
  | some m => pending = (if m.pinInProgress then 1 else 0) ∧ ¬ (m.pinned ∧ m.pinInProgress)

def PinServer.Paired (s : PinServer) : Prop := ∀ path, PinsPaired (s.cache path) (s.pending path)

/-- An entry stays, with its mapping, and stays pinned. -/
def EntryKept (entry entry' : Option MappedFile) : Prop :=
  ∀ m, entry = some m →
    ∃ m', entry' = some m' ∧ m'.addr = m.addr ∧ m'.size = m.size ∧ (m.pinned → m'.pinned)

lemma EntryKept.refl (entry : Option MappedFile) : EntryKept entry entry :=
  fun m hm => ⟨m, hm, rfl, rfl, id⟩

lemma EntryKept.trans {e e' e'' : Option MappedFile} (h : EntryKept e e') (h' : EntryKept e' e'') :
    EntryKept e e'' := by
  intro m hm
  obtain ⟨m', hm', haddr, hsize, hpinned⟩ := h m hm
  obtain ⟨m'', hm'', haddr', hsize', hpinned'⟩ := h' m' hm'
  exact ⟨m'', hm'', haddr'.trans haddr, hsize'.trans hsize, hpinned' ∘ hpinned⟩

/-- Without the threads, the call is the one that keeps only the cache. -/
theorem prewarmPins_cache (env : ServiceEnv) (s : PinServer) (raw : String) (pin : Bool) :
    (prewarmPins env.names s raw pin
        ((env.files.read (env.names.canonical raw)).map List.length)
        (some (env.names.canonical raw))).cache =
      prewarmCache env s.cache raw pin := by
  unfold prewarmPins prewarmCache
  by_cases hagb : isAgb (env.names.canonical raw) = true
  · simp only [hagb, not_true_eq_false, if_false]
    cases s.cache (env.names.canonical raw) with
    | some m =>
      dsimp only
      split_ifs <;> rfl
    | none =>
      cases env.files.read (env.names.canonical raw) with
      | none => rfl
      | some bytes =>
        simp only [Option.map_some, List.length_eq_zero_iff]
        split_ifs <;> rfl
  · simp only [if_pos hagb]

/-- The final section is the end of a pinning as the re-exports of a path see it. -/
lemma finishPin_eq (cache : MappedFilesCache) (path : String) (locked : Bool) :
    finishPin cache path locked = Function.update cache path
      ((cache path).map fun m => { m with pinned := m.pinned || locked, pinInProgress := false }) := by
  unfold finishPin
  cases hc : cache path with
  | none =>
    rw [Option.map_none, ← hc, Function.update_eq_self]
    simp [hc]
  | some m => cases locked <;> simp

variable {s : PinServer}

/-- What a call does: nothing, a pin request for a cached file, or a new entry. -/
lemma prewarmPins_cases (names : PathNames) (s : PinServer) (raw : String) (pin : Bool)
    (size : Option ℕ) (mapped : Option String) :
    prewarmPins names s raw pin size mapped = s ∨
    (∃ path m, s.cache path = some m ∧ m.pinned = false ∧ m.pinInProgress = false ∧
      prewarmPins names s raw pin size mapped =
        ⟨Function.update s.cache path (some { m with pinInProgress := true }),
          s.threads ++ [⟨m.addr, m.size, path⟩]⟩) ∨
    ∃ path addr fileBytes, s.cache path = none ∧
      prewarmPins names s raw pin size mapped =
        ⟨Function.update s.cache path (some ⟨addr, fileBytes, false, pin⟩),
          if pin then s.threads ++ [⟨addr, fileBytes, path⟩] else s.threads⟩ := by
  unfold prewarmPins
  by_cases hagb : isAgb (names.canonical raw) = true
  · simp only [hagb, not_true_eq_false, if_false]
    cases hc : s.cache (names.canonical raw) with
    | some m =>
      dsimp only
      by_cases hpin : pin = true ∧ ¬ m.pinned = true ∧ ¬ m.pinInProgress = true
      · rw [if_pos hpin]
        obtain ⟨-, hpinned, hprogress⟩ := hpin
        exact Or.inr (Or.inl ⟨_, m, hc, by simpa using hpinned, by simpa using hprogress, rfl⟩)
      · rw [if_neg hpin]
        exact Or.inl rfl
    | none =>
      cases size with
      | none => exact Or.inl rfl
      | some fileBytes =>
        dsimp only
        by_cases hzero : fileBytes = 0
        · rw [if_pos hzero]
          exact Or.inl rfl
        · rw [if_neg hzero]
          cases mapped with
          | none => exact Or.inl rfl
          | some addr => exact Or.inr (Or.inr ⟨_, addr, fileBytes, hc, rfl⟩)
  · simp only [if_pos hagb]
    exact Or.inl trivial

lemma pending_spawn (cache : MappedFilesCache) (t : PinThread) (path : String) :
    PinServer.pending ⟨cache, s.threads ++ [t]⟩ path =
      s.pending path + if t.path = path then 1 else 0 := by
  simp [PinServer.pending, List.countP_append]

lemma pending_finish (cache : MappedFilesCache) {i : ℕ} {t : PinThread}
    (ht : s.threads[i]? = some t) (path : String) :
    s.pending path =
      PinServer.pending ⟨cache, s.threads.eraseIdx i⟩ path + if t.path = path then 1 else 0 := by
  obtain ⟨hi, rfl⟩ := List.getElem?_eq_some_iff.mp ht
  have hperm := (List.getElem_cons_eraseIdx_perm hi).countP_eq fun t => decide (t.path = path)
  rw [List.countP_cons] at hperm
  simpa [PinServer.pending] using hperm.symm

/-- Only the pairing of the changed entry has to be shown. -/
lemma paired_of_update (h : s.Paired) {s' : PinServer} {p : String} {entry : Option MappedFile}
    (hcache : s'.cache = Function.update s.cache p entry) (hat : PinsPaired entry (s'.pending p))
    (hoff : ∀ path ≠ p, s'.pending path = s.pending path) : s'.Paired := by
  intro path
  rw [hcache]
  by_cases hpath : path = p
  · rw [hpath, Function.update_self]
    exact hat
  · rw [Function.update_of_ne hpath, hoff path hpath]
    exact h path

lemma pending_spawn_of_ne (cache : MappedFilesCache) (addr : String) (size : ℕ) {p path : String}
    (hpath : path ≠ p) :
    PinServer.pending ⟨cache, s.threads ++ [⟨addr, size, p⟩]⟩ path = s.pending path := by
  rw [pending_spawn, if_neg (Ne.symm hpath), Nat.add_zero]

lemma prewarmPins_paired (h : s.Paired) (names : PathNames) (raw : String) (pin : Bool)
    (size : Option ℕ) (mapped : Option String) :
    (prewarmPins names s raw pin size mapped).Paired := by
  rcases prewarmPins_cases names s raw pin size mapped with
    heq | ⟨p, m, hm, hpinned, hprogress, heq⟩ | ⟨p, addr, fileBytes, hnone, heq⟩
  · rw [heq]
    exact h
  · have hp := h p
    simp only [PinsPaired, hm, hprogress, Bool.false_eq_true, if_false] at hp
    rw [heq]
    refine paired_of_update h rfl ?_ fun path hpath => pending_spawn_of_ne _ _ _ hpath
    rw [pending_spawn]
    simp [PinsPaired, hp.1, hpinned]
  · have hp := h p
    simp only [PinsPaired, hnone] at hp
    rw [heq]
    cases pin with
    | true =>
      refine paired_of_update h rfl ?_ fun path hpath => pending_spawn_of_ne _ _ _ hpath
      rw [if_pos rfl, pending_spawn]
      simp [PinsPaired, hp]
    | false =>
      refine paired_of_update h rfl ?_ fun _ _ => rfl
      exact ⟨hp, by simp⟩

/-- The last thread of a path ends with its entry no longer in progress. -/
lemma finish_paired (h : s.Paired) (i : ℕ) (locked : Bool) : (s.step (.finish i locked)).Paired := by
  unfold PinServer.step
  dsimp only
  cases ht : s.threads[i]? with
  | none => exact h
  | some t =>
    have hpending := pending_finish (finishPin s.cache t.path locked) ht
    have hpath := h t.path
    refine paired_of_update h (finishPin_eq s.cache t.path locked) ?_ fun path hne => ?_
    · have hhere := hpending t.path
      rw [if_pos rfl] at hhere
      cases hc : s.cache t.path with
      | none =>
        simp only [PinsPaired, hc] at hpath
        omega
      | some m =>
        simp only [PinsPaired, hc] at hpath
        have hle : (if m.pinInProgress then 1 else 0) ≤ 1 := by split_ifs <;> omega
        simp only [PinsPaired, Option.map_some, Bool.false_eq_true, if_false, and_false,
          not_false_eq_true, and_true]
        omega
    · rw [hpending path, if_neg (Ne.symm hne), Nat.add_zero]

lemma step_paired (h : s.Paired) (action : PinAction) : (s.step action).Paired := by
  cases action with
  | prewarm names raw pin size mapped => exact prewarmPins_paired h names raw pin size mapped
  | finish i locked => exact finish_paired h i locked

lemma run_paired (h : s.Paired) (actions : List PinAction) : (s.run actions).Paired := by
  induction actions generalizing s with
  | nil => exact h
  | cons action actions ih => exact ih (step_paired h action)

lemma start_paired : PinServer.start.Paired := fun _ => rfl

lemma entryKept_update {cache : MappedFilesCache} {p : String} {m' : MappedFile}
    (h : EntryKept (cache p) (some m')) (path : String) :
    EntryKept (cache path) (Function.update cache p (some m') path) := by
  by_cases hpath : path = p
  · subst hpath
    rwa [Function.update_self]
  · rw [Function.update_of_ne hpath]
    exact .refl _

lemma step_entryKept (s : PinServer) (action : PinAction) (path : String) :
    EntryKept (s.cache path) ((s.step action).cache path) := by
  cases action with
  | prewarm names raw pin size mapped =>
    unfold PinServer.step
    rcases prewarmPins_cases names s raw pin size mapped with
      heq | ⟨p, m, hm, hpinned, hprogress, heq⟩ | ⟨p, addr, fileBytes, hnone, heq⟩
    · simp only [heq]
      exact .refl _
    · simp only [heq]
      refine entryKept_update (fun m₀ hm₀ => ?_) path
      obtain rfl := Option.some.inj (hm.symm.trans hm₀)
      exact ⟨_, rfl, rfl, rfl, id⟩
    · simp only [heq]
      refine entryKept_update (fun m₀ hm₀ => ?_) path
      exact absurd (hnone.symm.trans hm₀) (by simp)
  | finish i locked =>
    unfold PinServer.step
    dsimp only
    cases s.threads[i]? with
    | none => exact .refl _
    | some t =>
      dsimp only [finishPin]
      cases hc : s.cache t.path with
      | none => exact .refl _
      | some m =>
        refine entryKept_update (fun m₀ hm₀ => ?_) path
        obtain rfl := Option.some.inj (hc.symm.trans hm₀)
        cases locked with
        | true => exact ⟨_, rfl, rfl, rfl, fun _ => rfl⟩
        | false => exact ⟨_, rfl, rfl, rfl, id⟩

lemma run_entryKept (s : PinServer) (actions : List PinAction) (path : String) :
    EntryKept (s.cache path) ((s.run actions).cache path) := by
  induction actions generalizing s with
  | nil => exact .refl _
  | cons action actions ih => exact (step_entryKept s action path).trans (ih (s.step action))

/-- At every point of every run an entry is in progress exactly while one thread for it is
unfinished, it is not pinned meanwhile, and whatever follows leaves its mapping and keeps it
pinned. -/
theorem pin_bookkeeping (actions more : List PinAction) (path : String) (m : MappedFile)
    (h : (PinServer.start.run actions).cache path = some m) :
    (m.pinInProgress = true ↔ (PinServer.start.run actions).pending path = 1) ∧
    ¬ (m.pinned ∧ m.pinInProgress) ∧
    ∃ m', (PinServer.start.run (actions ++ more)).cache path = some m' ∧
      m'.addr = m.addr ∧ m'.size = m.size ∧ (m.pinned → m'.pinned) := by
  have hpaired := run_paired start_paired actions path
  simp only [PinsPaired, h] at hpaired
  refine ⟨?_, hpaired.2, ?_⟩
  · rw [hpaired.1]
    cases m.pinInProgress <;> simp
  · have hkept := run_entryKept (PinServer.start.run actions) more path m h
    rwa [PinServer.run, PinServer.run, ← List.foldl_append] at hkept

/-- A file is mapped without pinning, pinned by a second call, and its thread ends. -/
def pinnedTwice : List PinAction :=
  [.prewarm sampleService.names "a.agb" false (some 16) (some "a"),
    .prewarm sampleService.names "a.agb" true none none]

theorem pin_bookkeeping_sample :
    (true = true ↔ (PinServer.start.run pinnedTwice).pending "a.agb" = 1) ∧
    ¬ (false ∧ true) ∧
    ∃ m', (PinServer.start.run (pinnedTwice ++ [.finish 0 true])).cache "a.agb" = some m' ∧
      m'.addr = "a" ∧ m'.size = 16 ∧ (false → m'.pinned) :=
  pin_bookkeeping pinnedTwice [.finish 0 true] "a.agb" ⟨"a", 16, false, true⟩ (by decide)

end Eureka.Service
