import Mathlib
import Eureka.ScratchKeys

/-! Where the scratch directory grows. A key is a plain name of letters, digits, dots, dashes and
underscores, so every file that a call writes lies directly in the directory. -/
namespace Eureka.Scratch
open WordBytes ByteText JavaText

/-- A name that no file system takes for the directory, its parent or a path of several names. -/
structure PlainName (key : JString) : Prop where
  units : ∀ c ∈ key, isKeyChar c.toNat = true ∨ c = 0x5f#16
  long : 5 ≤ key.length
  short : key.length ≤ 100

variable {cfg : ScratchConfig} {env : FetchEnv} {s s' : ScratchStorage} {filePath u path : JString}

section names

lemma PlainName.no_slash {key : JString} (h : PlainName key) : 0x2f#16 ∉ key := by
  intro hmem
  rcases h.units _ hmem with hchar | hunderscore
  · exact absurd hchar (by decide)
  · exact absurd hunderscore (by decide)

lemma keyUnit_plain (point : ℕ) :
    isKeyChar (keyUnit point).toNat = true ∨ keyUnit point = 0x5f#16 := by
  by_cases h : isKeyChar point = true
  · refine Or.inl ?_
    rw [keyUnit_toNat, if_pos h]
    exact h
  · exact Or.inr (if_neg h)

/-- A unit that starts no pair is a character. -/
lemma codePoints_cons {c : JChar} (h : isHighSurrogate c = false) (s : JString) :
    codePoints (c :: s) = c.toNat :: codePoints s := by
  cases s with
  | nil => rfl
  | cons d ds => rw [codePoints, if_neg fun hpair => by rw [h] at hpair; exact Bool.false_ne_true hpair.1]

lemma codePoints_length {scheme : JString} (h : ∀ c ∈ scheme, isHighSurrogate c = false)
    (s : JString) : (codePoints (scheme ++ s)).length = scheme.length + (codePoints s).length := by
  induction scheme with
  | nil => simp
  | cons c cs ih =>
    rw [List.cons_append, codePoints_cons (h c List.mem_cons_self), List.length_cons, List.length_cons,
      ih fun d hd => h d (List.mem_cons_of_mem _ hd)]
    omega

lemma java_no_surrogate (text : String) : ∀ c ∈ java text, isHighSurrogate c = false := by
  intro c hc
  obtain ⟨b, -, rfl⟩ := List.mem_map.mp hc
  have hlt := b.isLt
  have hsmall : b.toNat % 2 ^ 16 = b.toNat := Nat.mod_eq_of_lt (by omega)
  rw [isHighSurrogate, decide_eq_false_iff_not, BitVec.le_def, BitVec.toNat_setWidth, hsmall]
  rintro ⟨hlow, -⟩
  change 55296 ≤ b.toNat at hlow
  omega

/-- A cloud URI has the characters of its scheme. -/
lemma codePoints_cloud (h : isCloud u = true) : 5 ≤ (codePoints u).length := by
  have hscheme : ∃ scheme ∈ ["s3://", "http://", "https://"], java scheme <+: u := by
    simp only [isCloud, isS3, startsWith, decide_eq_true_eq] at h
    simp only [List.mem_cons, List.not_mem_nil, or_false, exists_eq_or_imp, exists_eq_left]
    tauto
  have hlength : ∀ scheme ∈ ["s3://", "http://", "https://"], 5 ≤ (java scheme).length := by decide
  obtain ⟨scheme, hmem, rest, rfl⟩ := hscheme
  have hfive := hlength scheme hmem
  rw [codePoints_length (java_no_surrogate scheme)]
  omega

/-- The key of a cloud URI. -/
lemma plainName_key (h : isCloud u = true) : PlainName (generateCacheKey u) := by
  have hpoints := codePoints_cloud h
  rw [generateCacheKey_eq]
  refine ⟨fun c hc => ?_, ?_, ?_⟩
  · obtain ⟨point, -, rfl⟩ := List.mem_map.mp (List.mem_of_mem_take (List.mem_reverse.mp hc))
    exact keyUnit_plain point
  · rw [List.length_reverse, List.length_take, List.length_map, List.length_reverse]
    omega
  · rw [List.length_reverse, List.length_take]
    exact min_le_left _ _

end names

section runs

/-- What a call changes in the directory: it may evict, and it may add the file of its own key. -/
lemma step_files (cfg : ScratchConfig) (env : FetchEnv) (s : ScratchStorage) (filePath key : JString) :
    (s.step cfg (.fetch env filePath)).files.lookup key = s.files.lookup key ∨
      (s.step cfg (.fetch env filePath)).files.lookup key = none ∨
      isCloud filePath = true ∧ key = generateCacheKey filePath ∧ key ∉ s.files := by
  by_cases hcloud : isCloud filePath = true
  · by_cases hfile : generateCacheKey filePath ∈ s.files
    · refine Or.inl ?_
      rw [ScratchStorage.step, step_hit hcloud hfile]
      rfl
    · by_cases hkey : key = generateCacheKey filePath
      · exact Or.inr (Or.inr ⟨hcloud, hkey, hkey ▸ hfile⟩)
      · have hevicted : (evictedState cfg env s filePath).files.lookup key = s.files.lookup key ∨
            (evictedState cfg env s filePath).files.lookup key = none := by
          rcases evictedFrom_evictIfNecessary cfg env
            (s.touch (generateCacheKey filePath) env.currentTimeMillis) key with h | h
          · exact Or.inl h.1
          · exact Or.inr h.2.2.1
        have hstore : ((evictedState cfg env s filePath).store (generateCacheKey filePath)
            (download env filePath).1).files.lookup key =
              (evictedState cfg env s filePath).files.lookup key := by
          cases (download env filePath).1 with
          | none => rfl
          | some content => exact AList.lookup_insert_ne hkey
        rw [ScratchStorage.step, step_miss ⟨hcloud, hfile⟩]
        dsimp only
        rw [hstore]
        exact hevicted.imp id Or.inl
  · refine Or.inl ?_
    rw [ScratchStorage.step, step_local hcloud]

/-- Where the files of a run come from. -/
structure Contained (cfg : ScratchConfig) (s : ScratchStorage) (actions : List ScratchAction) : Prop where
  files : ∀ key ∈ (run cfg s actions).files, key ∈ s.files ∨
    PlainName key ∧ ∃ env u, .fetch env u ∈ actions ∧ isCloud u = true ∧ key = generateCacheKey u
  untouched : ∀ key content, s.files.lookup key = some content →
    (∀ env u, .fetch env u ∈ actions → isCloud u = true → key ≠ generateCacheKey u) →
      (run cfg s actions).files.lookup key = some content ∨ (run cfg s actions).files.lookup key = none
  paths : ∀ u path, (u, path) ∈ returned cfg s actions → isCloud u = true →
    ∃ key, PlainName key ∧ path = cachedPath cfg key ∧ fileName path = key

lemma fileName_cachedPath {key : JString} (h : 0x2f#16 ∉ key) : fileName (cachedPath cfg key) = key := by
  have htail : key.reverse.takeWhile (· ≠ 0x2f#16) = key.reverse := by
    refine List.takeWhile_eq_self_iff.mpr fun c hc => ?_
    rw [decide_eq_true_eq]
    exact fun heq => h (heq ▸ List.mem_reverse.mp hc)
  rw [fileName, cachedPath, List.reverse_append, List.reverse_cons, List.append_assoc,
    List.takeWhile_append_of_pos fun c hc => ?_]
  · simp
  · rw [decide_eq_true_eq]
    exact fun heq => h (heq ▸ List.mem_reverse.mp hc)

/-- A key that was there, or one that a call of the run has put in. -/
lemma files_of_run (cfg : ScratchConfig) (s : ScratchStorage) (actions : List ScratchAction) :
    ∀ key ∈ (run cfg s actions).files, key ∈ s.files ∨
      ∃ env u, .fetch env u ∈ actions ∧ isCloud u = true ∧ key = generateCacheKey u := by
  induction actions generalizing s with
  | nil => exact fun key hkey => Or.inl hkey
  | cons a actions ih =>
    intro key hkey
    rcases ih (s.step cfg a) key hkey with hold | ⟨env, u, hmem, hu⟩
    · cases a with
      | restart => exact Or.inl hold
      | fetch env u =>
        obtain ⟨content, hcontent⟩ := Option.isSome_iff_exists.mp (AList.lookup_isSome.mpr hold)
        rcases step_files cfg env s u key with hsame | hnone | ⟨hcloud, hkey, -⟩
        · rw [hcontent] at hsame
          exact Or.inl (AList.lookup_isSome.mp (by rw [← hsame]; rfl))
        · exact absurd (hcontent.symm.trans hnone) (Option.some_ne_none content)
        · exact Or.inr ⟨env, u, List.mem_cons_self, hcloud, hkey⟩
    · exact Or.inr ⟨env, u, List.mem_cons_of_mem _ hmem, hu⟩

/-- Once gone, a file that no call asks for stays away. -/
lemma untouched_of_run {key : JString} (actions : List ScratchAction)
    (hother : ∀ env u, .fetch env u ∈ actions → isCloud u = true → key ≠ generateCacheKey u) :
    (run cfg s actions).files.lookup key = s.files.lookup key ∨
      (run cfg s actions).files.lookup key = none := by
  induction actions generalizing s with
  | nil => exact Or.inl rfl
  | cons a actions ih =>
    have hrest := @ih (s.step cfg a) fun env u hmem => hother env u (List.mem_cons_of_mem _ hmem)
    have hstep : (s.step cfg a).files.lookup key = s.files.lookup key ∨
        (s.step cfg a).files.lookup key = none := by
      cases a with
      | restart => exact Or.inl rfl
      | fetch env u =>
        rcases step_files cfg env s u key with hsame | hnone | ⟨hcloud, hkey, -⟩
        · exact Or.inl hsame
        · exact Or.inr hnone
        · exact absurd hkey (hother env u List.mem_cons_self hcloud)
    rcases hrest with hsame | hnone
    · rcases hstep with h | h
      · exact Or.inl (hsame.trans h)
      · exact Or.inr (hsame.trans h)
    · exact Or.inr hnone

/-- No URI leads out of the scratch directory: in every run of calls and restarts, whatever fails,
each new file has a plain name that is the key of a requested URI, a file that no call asks for
keeps its contents or is evicted, and each path returned for a cloud URI is that of a plain name in
the directory. -/
theorem scratch_contained (cfg : ScratchConfig) (s : ScratchStorage) (actions : List ScratchAction) :
    Contained cfg s actions where
  files key hkey := by
    rcases files_of_run cfg s actions key hkey with hold | ⟨env, u, hmem, hcloud, hu⟩
    · exact Or.inl hold
    · exact Or.inr ⟨hu ▸ plainName_key hcloud, env, u, hmem, hcloud, hu⟩
  untouched key content hcontent hother := by
    rw [← hcontent]
    exact untouched_of_run actions hother
  paths u path hmem hcloud := by
    have hplain := plainName_key hcloud
    have hpath := returned_path hcloud hmem
    refine ⟨generateCacheKey u, hplain, hpath, ?_⟩
    rw [hpath]
    exact fileName_cachedPath hplain.no_slash

end runs

end Eureka.Scratch
