import Mathlib
import Eureka.CoreService
import Eureka.Occurrences

/-! `run_scalar_string_search`: the pointer loop over the mapped file, every read of the
mapping checked, and its count as the best number of disjoint occurrences. -/
namespace Eureka.Service
open WordBytes Occurrences

section
variable (bytes : Bytes)

/-- `memchr(p, c, n)`; no result where a byte at or past the end is read. -/
def memchr (c : Byte) : ℕ → ℕ → Option (Option ℕ)
  | _, 0 => some none
  | p, n + 1 => do
    let b ← bytes[p]?
    if b = c then some (some p) else memchr c (p + 1) n

/-- `strncmp(p, pattern.c_str() + k, n) == 0`, with both arguments read byte by byte. -/
def strncmpAt (pattern : Bytes) : ℕ → ℕ → ℕ → Option Bool
  | _, _, 0 => some true
  | p, k, n + 1 => do
    let a ← bytes[p]?
    let b ← (pattern ++ [0])[k]?
    if a ≠ b then some false
    else if a = 0 then some true
    else strncmpAt pattern (p + 1) (k + 1) n

variable {bytes}

lemma memchr_none {c : Byte} {p n : ℕ} (h : memchr bytes c p n = some none) :
    ∀ i, p ≤ i → i < p + n → bytes[i]? ≠ some c := by
  induction n generalizing p with
  | zero => omega
  | succ n ih =>
    simp only [memchr, Option.bind_eq_bind, Option.bind_eq_some_iff] at h
    obtain ⟨b, hb, h⟩ := h
    split_ifs at h with hc
    · simp at h
    · intro i hi hlt
      rcases hi.eq_or_lt with rfl | hi
      · simp [hb, hc]
      · exact ih h i hi (by omega)

/-- The byte found is the first one. -/
lemma memchr_some {c : Byte} {p n q : ℕ} (h : memchr bytes c p n = some (some q)) :
    (p ≤ q ∧ q < p + n ∧ bytes[q]? = some c) ∧
      ∀ i, p ≤ i → i < q → bytes[i]? ≠ some c := by
  induction n generalizing p with
  | zero => simp [memchr] at h
  | succ n ih =>
    simp only [memchr, Option.bind_eq_bind, Option.bind_eq_some_iff] at h
    obtain ⟨b, hb, h⟩ := h
    split_ifs at h with hc
    · obtain rfl : p = q := by simpa using h
      exact ⟨⟨le_rfl, by omega, hc ▸ hb⟩, by omega⟩
    · obtain ⟨⟨hle, hlt, hq⟩, hfirst⟩ := ih h
      refine ⟨⟨by omega, by omega, hq⟩, ?_⟩
      intro i hi hiq
      rcases hi.eq_or_lt with rfl | hi
      · simp [hb, hc]
      · exact hfirst i hi hiq

lemma memchr_isSome (c : Byte) {p n : ℕ} (h : p + n ≤ bytes.length) :
    memchr bytes c p n ≠ none := by
  induction n generalizing p with
  | zero => simp [memchr]
  | succ n ih =>
    rw [memchr, List.getElem?_eq_getElem (by omega : p < bytes.length)]
    simp only [Option.bind_eq_bind, Option.bind_some]
    split_ifs
    · simp
    · exact ih (by omega)

lemma strncmpAt_eq {pattern : Bytes} {p k n : ℕ} (h0 : 0 ∉ pattern)
    (hp : p + n ≤ bytes.length) (hk : k + n = pattern.length) :
    strncmpAt bytes pattern p k n = some (decide (pattern.drop k <+: bytes.drop p)) := by
  induction n generalizing p k with
  | zero =>
    rw [List.drop_eq_nil_of_le (by omega : pattern.length ≤ k)]
    simp [strncmpAt]
  | succ n ih =>
    have hpl : p < bytes.length := by omega
    have hkl : k < pattern.length := by omega
    have hne : pattern[k] ≠ 0 := fun h => h0 (h ▸ List.getElem_mem hkl)
    rw [strncmpAt, List.getElem?_eq_getElem hpl, List.getElem?_append_left hkl,
      List.getElem?_eq_getElem hkl, List.drop_eq_getElem_cons hpl,
      List.drop_eq_getElem_cons hkl]
    simp only [Option.bind_eq_bind, Option.bind_some, List.cons_prefix_cons]
    split_ifs with hab ha
    · simp [Ne.symm hab]
    · rw [not_not] at hab
      exact absurd (hab ▸ ha) hne
    · rw [not_not] at hab
      rw [ih (by omega) (by omega)]
      simp [hab]

lemma strncmpAt_start {pattern : Bytes} {p : ℕ} (h0 : 0 ∉ pattern)
    (hp : p + pattern.length ≤ bytes.length) :
    strncmpAt bytes pattern p 0 pattern.length = some (decide (OccursAt pattern bytes p)) :=
  strncmpAt_eq h0 hp (Nat.zero_add _)

variable (bytes)

/-- The loop over `p`, for the pattern `first :: rest`; no result where a read of the
mapping falls outside it. -/
def scanLoop (first : Byte) (rest : Bytes) (p occurrences : ℕ) : Option ℕ :=
  let patLen := rest.length + 1
  if p + patLen ≤ bytes.length then
    match _h : memchr bytes first p (bytes.length - p) with
    | none => none
    | some none => some occurrences
    | some (some candidate) =>
      if bytes.length < candidate + patLen then some occurrences
      else
        match strncmpAt bytes (first :: rest) candidate 0 patLen with
        | none => none
        | some true => scanLoop first rest (candidate + patLen) (occurrences + 1)
        | some false => scanLoop first rest (candidate + 1) occurrences
  else some occurrences
termination_by bytes.length - p
decreasing_by
  all_goals
    have := (memchr_some _h).1
    omega

/-- The search of a file with these bytes; an empty file is not mapped. -/
def scanFile (pattern : Bytes) : Option ℕ :=
  if bytes = [] then some 0
  else
    match pattern with
    | [] => some 0
    | first :: rest => scanLoop bytes first rest 0 0

end

section
variable {bytes : Bytes} {first : Byte} {rest : Bytes}

/-- From a position on, the loop counts the occurrences that the left-to-right choice takes:
neither the jump nor the early exit passes over one. -/
lemma scanLoop_eq (h0 : 0 ∉ first :: rest) (p occurrences : ℕ) :
    scanLoop bytes first rest p occurrences =
      some (occurrences + (greedy (first :: rest) p 0 (bytes.drop p)).length) := by
  have hw : first :: rest ≠ [] := List.cons_ne_nil _ _
  have hend : ∀ i, bytes.length < i + (rest.length + 1) → ¬ OccursAt (first :: rest) bytes i := by
    intro i hi hocc
    have := hocc.end_le hw
    rw [List.length_cons] at this
    omega
  rw [scanLoop]
  by_cases hp : p + (rest.length + 1) ≤ bytes.length
  · simp only [hp, if_true]
    split
    · rename_i hm
      exact absurd hm (memchr_isSome first (by omega))
    · rename_i hm
      rw [greedy_eq_nil]
      · rfl
      intro i hi hocc
      have hlt := hocc.lt_length hw
      exact memchr_none hm i hi (by omega) hocc.head
    · rename_i candidate hm
      obtain ⟨⟨hle, hlt, _⟩, hfirst⟩ := memchr_some hm
      rw [greedy_eq_of_not_occursAt hle fun i hi hiq hocc => hfirst i hi hiq hocc.head]
      by_cases hnear : bytes.length < candidate + (rest.length + 1)
      · rw [if_pos hnear, greedy_eq_nil fun i hi => hend i (by omega)]
        rfl
      have hfits : candidate + (first :: rest).length ≤ bytes.length := by
        rw [List.length_cons]
        omega
      have hcmp := strncmpAt_start h0 hfits
      rw [List.length_cons] at hcmp
      rw [if_neg hnear, hcmp]
      by_cases hocc : OccursAt (first :: rest) bytes candidate
      · rw [decide_eq_true hocc, greedy_of_occursAt hw hocc, List.length_cons]
        simp only
        rw [scanLoop_eq h0, List.length_cons, Nat.add_assoc, Nat.add_comm 1]
      · rw [decide_eq_false hocc, greedy_of_not_occursAt hocc]
        simp only
        exact scanLoop_eq h0 _ _
  · rw [if_neg hp, greedy_eq_nil fun i hi => hend i (by omega)]
    rfl
termination_by bytes.length - p

lemma strncmpEq_eq {pattern : Bytes} (h0 : 0 ∉ pattern) (t : Bytes) :
    strncmpEq pattern.length t pattern = decide (pattern <+: t) := by
  induction pattern generalizing t with
  | nil => simp [strncmpEq]
  | cons a pattern ih =>
    rw [List.mem_cons, not_or] at h0
    obtain ⟨ha, h0⟩ := h0
    have ha : a ≠ 0#8 := Ne.symm ha
    cases t with
    | nil => simp [strncmpEq, ha]
    | cons b t =>
      by_cases hab : b = a
      · rw [hab]
        simp [strncmpEq, ih h0, ha]
      · simp [strncmpEq, hab, Ne.symm hab]

/-- The search of the service model counts the same occurrences. -/
lemma countFrom_eq {pattern : Bytes} (hw : pattern ≠ []) (h0 : 0 ∉ pattern) (pos skip : ℕ)
    (t : Bytes) : countFrom pattern skip t = (greedy pattern pos skip t).length := by
  induction t generalizing pos skip with
  | nil => simp [countFrom, greedy]
  | cons c cs ih =>
    cases skip with
    | succ skip => exact ih _ _
    | zero =>
      have hhead : pattern <+: c :: cs → pattern.head? = some c := by
        obtain ⟨a, w, rfl⟩ := List.exists_cons_of_ne_nil hw
        intro hp
        rw [(List.cons_prefix_cons.mp hp).1, List.head?_cons]
      simp only [countFrom, strncmpEq_eq h0, decide_eq_true_eq]
      split_ifs with hshort hocc
      · rw [greedy_of_short hshort]
        rfl
      · rw [greedy, if_pos hocc.2, List.length_cons, ih (pos + 1), Nat.add_comm]
      · rw [greedy, if_neg fun hp => hocc ⟨hhead hp, hp⟩]
        exact ih _ _

lemma scanFile_greedy {pattern : Bytes} (hw : pattern ≠ []) (h0 : 0 ∉ pattern) :
    scanFile bytes pattern = some (greedyCount pattern bytes) := by
  obtain ⟨first, rest, rfl⟩ := List.exists_cons_of_ne_nil hw
  unfold scanFile
  split_ifs with hb
  · rw [hb]
    rfl
  · have h := @scanLoop_eq bytes first rest h0 0 0
    rwa [Nat.zero_add] at h

/-- The search ends with a count, without a read outside the mapping; the count is the
number of occurrences chosen from the left, and no disjoint family of occurrences is larger. -/
theorem scanFile_eq {pattern : Bytes} (hw : pattern ≠ []) (h0 : 0 ∉ pattern) :
    scanFile bytes pattern = some (greedyCount pattern bytes) ∧
      IsGreatest (Set.range fun P : Packing pattern bytes => P.starts.card)
        (greedyCount pattern bytes) :=
  ⟨scanFile_greedy hw h0, isGreatest_greedyCount hw bytes⟩

/-- A self-overlapping pattern. -/
theorem scanFile_eq_overlapping :
    scanFile [97, 97, 97, 97, 97] [97, 97] = some 2 ∧
      IsGreatest (Set.range fun P : Packing (α := Byte) [97, 97] [97, 97, 97, 97, 97] =>
        P.starts.card) 2 :=
  scanFile_eq (List.cons_ne_nil _ _) (by decide)

/-- The search of a file reports the count of the scan. -/
theorem runScalarStringSearch_eq {fs : FileSystem} {filepath : String} {pattern : Bytes}
    (hw : pattern ≠ []) (h0 : 0 ∉ pattern) (hread : fs.read filepath = some bytes) :
    scanFile bytes pattern = some (runScalarStringSearch fs filepath pattern).1 := by
  rw [scanFile_greedy hw h0, runScalarStringSearch, hread]
  simp only [if_neg hw, countFrom_eq hw h0 0]
  rfl

end

end Eureka.Service
