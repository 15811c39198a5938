import Mathlib
import Eureka.ScratchRuns

/-! When two cloud URIs share a cache entry. The key keeps the last hundred characters, and of these
only letters, digits, dots and dashes. -/
namespace Eureka.Scratch
open WordBytes ByteText JavaText

/-- The `i`-th character from the end. -/
def fromEnd (s : JString) (i : ℕ) : Option ℕ := (codePoints s).reverse[i]?

/-- One of the two is missing, or they differ and at least one is a letter, a digit, a dot or a
dash. -/
def DifferAt : Option ℕ → Option ℕ → Prop
  | none, none => False
  | some p, some q => p ≠ q ∧ (isKeyChar p = true ∨ isKeyChar q = true)
  | _, _ => True

/-- The calls of a run that return a path, with their argument. -/
def returned (cfg : ScratchConfig) : ScratchStorage → List ScratchAction → List (JString × JString)
  | _, [] => []
  | s, .restart :: actions => returned cfg (s.step cfg .restart) actions
  | s, .fetch env filePath :: actions =>
    let rest := returned cfg (s.step cfg (.fetch env filePath)) actions
    match (resolveAndFetch cfg env s filePath).1 with
    | .ok path => (filePath, path) :: rest
    | .error _ => rest

/-- No run returns the same path for both. -/
def DistinctPaths (cfg : ScratchConfig) (u v : JString) : Prop :=
  ∀ s actions p q, (u, p) ∈ returned cfg s actions → (v, q) ∈ returned cfg s actions → p ≠ q

variable {cfg : ScratchConfig} {env : FetchEnv} {s : ScratchStorage} {u v path : JString}

section keys

lemma isKeyChar_bound {p : ℕ} (h : isKeyChar p = true) : p < 2 ^ 16 ∧ p ≠ 95 := by
  simp only [isKeyChar, decide_eq_true_eq] at h
  omega

lemma keyUnit_toNat (p : ℕ) : (keyUnit p).toNat = if isKeyChar p = true then p else 95 := by
  unfold keyUnit
  split_ifs with hp
  · rw [BitVec.toNat_ofNat, Nat.mod_eq_of_lt (isKeyChar_bound hp).1]
  · rfl

/-- Outside of the class every character becomes an underscore, which is not in it. -/
lemma keyUnit_eq_iff {p q : ℕ} :
    keyUnit p = keyUnit q ↔ p = q ∨ ¬ isKeyChar p = true ∧ ¬ isKeyChar q = true := by
  rw [← BitVec.toNat_inj, keyUnit_toNat, keyUnit_toNat]
  by_cases hp : isKeyChar p = true <;> by_cases hq : isKeyChar q = true
  · simp [hp, hq]
  · rw [if_pos hp, if_neg hq]
    refine iff_of_false (isKeyChar_bound hp).2 ?_
    rintro (rfl | ⟨hnot, -⟩)
    · exact hq hp
    · exact hnot hp
  · rw [if_neg hp, if_pos hq]
    refine iff_of_false (Ne.symm (isKeyChar_bound hq).2) ?_
    rintro (rfl | ⟨-, hnot⟩)
    · exact hp hq
    · exact hnot hq
  · simp [hp, hq]

lemma map_keyUnit_eq_iff (a b : Option ℕ) : a.map keyUnit = b.map keyUnit ↔ ¬ DifferAt a b := by
  cases a with
  | none => cases b <;> simp [DifferAt]
  | some p =>
    cases b with
    | none => simp [DifferAt]
    | some q =>
      rw [Option.map_some, Option.map_some, Option.some_inj, keyUnit_eq_iff, DifferAt]
      tauto

/-- The key is what the last hundred characters become. -/
lemma generateCacheKey_eq (s : JString) :
    generateCacheKey s = (((codePoints s).reverse.map keyUnit).take 100).reverse := by
  rw [List.map_reverse, List.take_reverse, List.reverse_reverse, generateCacheKey]
  split_ifs with hlong
  · rfl
  · rw [Nat.sub_eq_zero_of_le (not_lt.mp hlong), List.drop_zero]

theorem generateCacheKey_eq_iff :
    generateCacheKey u = generateCacheKey v ↔ ∀ i < 100, ¬ DifferAt (fromEnd u i) (fromEnd v i) := by
  rw [generateCacheKey_eq, generateCacheKey_eq, List.reverse_inj]
  have hget : ∀ w : JString, ∀ i, (((codePoints w).reverse.map keyUnit).take 100)[i]? =
      if i < 100 then (fromEnd w i).map keyUnit else none := by
    intro w i
    rw [List.getElem?_take, List.getElem?_map, fromEnd]
  constructor
  · intro h i hi
    have hi' := congrArg (fun l => l[i]?) h
    simp only [hget, if_pos hi] at hi'
    exact (map_keyUnit_eq_iff _ _).mp hi'
  · intro h
    refine List.ext_getElem? fun i => ?_
    rw [hget, hget]
    split_ifs with hi
    · exact (map_keyUnit_eq_iff _ _).mpr (h i hi)
    · rfl

end keys

section paths

/-- A path that is returned for a cloud URI is that of its key. -/
lemma result_path (h : isCloud u = true) (hresult : (resolveAndFetch cfg env s u).1 = .ok path) :
    path = cachedPath cfg (generateCacheKey u) := by
  by_cases hfile : generateCacheKey u ∈ s.files
  · rw [step_hit h hfile] at hresult
    exact (Except.ok.inj hresult).symm
  · rw [step_miss ⟨h, hfile⟩] at hresult
    split_ifs at hresult
    exact (Except.ok.inj hresult).symm

lemma returned_path (h : isCloud u = true) {actions : List ScratchAction}
    (hmem : (u, path) ∈ returned cfg s actions) : path = cachedPath cfg (generateCacheKey u) := by
  induction actions generalizing s with
  | nil => exact absurd hmem List.not_mem_nil
  | cons a actions ih =>
    cases a with
    | restart => exact ih hmem
    | fetch env filePath =>
      rw [returned] at hmem
      cases hresult : (resolveAndFetch cfg env s filePath).1 with
      | error e =>
        rw [hresult] at hmem
        exact ih hmem
      | ok p =>
        rw [hresult] at hmem
        rcases List.mem_cons.mp hmem with heq | hrest
        · obtain ⟨rfl, rfl⟩ := Prod.mk.inj heq
          exact result_path h hresult
        · exact ih hrest

/-- Where nothing fails, every call on a cloud URI returns. -/
lemma result_working (h : isCloud u = true) (s : ScratchStorage) (content : Bytes) :
    (resolveAndFetch cfg (workingEnv content) s u).1 =
      .ok (cachedPath cfg (generateCacheKey u)) := by
  have hdownload : (download (workingEnv content) u).2 = true := by
    unfold download simulateS3Download downloadHttpFile
    split_ifs <;> rfl
  by_cases hfile : generateCacheKey u ∈ s.files
  · rw [step_hit h hfile]
  · rw [step_miss ⟨h, hfile⟩, hdownload]
    rfl

lemma cachedPath_inj {key key' : JString} : cachedPath cfg key = cachedPath cfg key' ↔ key = key' := by
  rw [cachedPath, cachedPath, List.append_cancel_left_eq, List.cons.injEq, and_iff_right rfl]

/-- With one key, two calls in a row return the same path. -/
lemma not_distinctPaths (cfg : ScratchConfig) (hu : isCloud u = true) (hv : isCloud v = true)
    (hkeys : generateCacheKey u = generateCacheKey v) : ¬ DistinctPaths cfg u v := by
  intro h
  have hboth : returned cfg ⟨∅, ∅⟩ [.fetch (workingEnv []) u, .fetch (workingEnv []) v] =
      [(u, cachedPath cfg (generateCacheKey u)), (v, cachedPath cfg (generateCacheKey v))] := by
    simp only [returned, result_working hu, result_working hv]
  have hfirst : (u, cachedPath cfg (generateCacheKey u)) ∈
      returned cfg ⟨∅, ∅⟩ [.fetch (workingEnv []) u, .fetch (workingEnv []) v] := by
    rw [hboth]
    exact List.mem_cons_self
  have hsecond : (v, cachedPath cfg (generateCacheKey v)) ∈
      returned cfg ⟨∅, ∅⟩ [.fetch (workingEnv []) u, .fetch (workingEnv []) v] := by
    rw [hboth]
    exact List.mem_cons_of_mem _ List.mem_cons_self
  exact h ⟨∅, ∅⟩ _ _ _ hfirst hsecond (cachedPath_inj.mpr hkeys)

/-- The paths of two cloud URIs differ exactly if the URIs differ, within the last hundred
characters, where one of them has a letter, a digit, a dot or a dash, or has no more characters. -/
theorem distinct_paths_iff (cfg : ScratchConfig) (hu : isCloud u = true) (hv : isCloud v = true) :
    DistinctPaths cfg u v ↔ ∃ i < 100, DifferAt (fromEnd u i) (fromEnd v i) := by
  have hkeys : (∃ i < 100, DifferAt (fromEnd u i) (fromEnd v i)) ↔
      generateCacheKey u ≠ generateCacheKey v := by
    rw [Ne, generateCacheKey_eq_iff]
    push Not
    rfl
  rw [hkeys]
  constructor
  · exact fun h heq => not_distinctPaths cfg hu hv heq h
  · intro hne s actions p q hp hq
    rw [returned_path hu hp, returned_path hv hq, Ne, cachedPath_inj]
    exact hne

theorem distinct_paths_iff_sample :
    DistinctPaths (sampleConfig 5) (java "s3://logs/a.agb") (java "https://logs/b.agb") ↔
      ∃ i < 100, DifferAt (fromEnd (java "s3://logs/a.agb") i)
        (fromEnd (java "https://logs/b.agb") i) :=
  distinct_paths_iff (sampleConfig 5) (by decide) (by decide)

/-- A file in a directory and a file whose name has an underscore share one entry. -/
theorem keys_collide : isCloud (java "s3://logs/a.agb") = true ∧
    isCloud (java "s3://logs_a.agb") = true ∧
    java "s3://logs/a.agb" ≠ java "s3://logs_a.agb" ∧
    generateCacheKey (java "s3://logs/a.agb") = generateCacheKey (java "s3://logs_a.agb") ∧
    ¬ DistinctPaths (sampleConfig 5) (java "s3://logs/a.agb") (java "s3://logs_a.agb") :=
  ⟨by decide, by decide, by decide, by decide,
    not_distinctPaths (sampleConfig 5) (by decide) (by decide) (by decide)⟩

end paths

end Eureka.Scratch
