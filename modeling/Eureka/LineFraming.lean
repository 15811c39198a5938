import Mathlib

/-! Separator-framed lines: what repeated reads up to a separator return, how that splits
at a line boundary, and what happens to a line written after an unfinished one. -/
namespace Eureka.LineFraming
variable {α : Type*} [DecidableEq α] {sep : α}

/-- Repeated `getline`: the separators are dropped and an unfinished last line is returned. -/
def splitLines (sep : α) : List α → List (List α)
  | [] => []
  | c :: cs =>
      if c = sep then [] :: splitLines sep cs
      else match splitLines sep cs with
        | [] => [[c]]
        | l :: ls => (c :: l) :: ls

def joinLines (sep : α) (ls : List (List α)) : List α := ls.flatMap (· ++ [sep])

/-- The text up to and including the last separator. -/
def closedPart (sep : α) (w : List α) : List α := w.rdropWhile (· ≠ sep)

/-- The unfinished line after the last separator. -/
def openTail (sep : α) (w : List α) : List α := w.rtakeWhile (· ≠ sep)

/-- The text ends at a line boundary. -/
def Closed (sep : α) (w : List α) : Prop := openTail sep w = []

instance (w : List α) : Decidable (Closed sep w) := inferInstanceAs (Decidable (_ = []))

lemma closedPart_append_openTail (sep : α) (w : List α) : closedPart sep w ++ openTail sep w = w :=
  List.rdropWhile_append_rtakeWhile

lemma sep_notMem_openTail (w : List α) : sep ∉ openTail sep w := by
  intro h
  simpa using List.mem_rtakeWhile_imp h

@[simp] lemma closed_nil : Closed sep ([] : List α) := by simp [Closed, openTail]

@[simp] lemma closed_concat (w : List α) : Closed sep (w ++ [sep]) := by
  simp [Closed, openTail, List.rtakeWhile_concat_neg]

lemma Closed.eq_nil_or_concat {w : List α} (h : Closed sep w) : w = [] ∨ ∃ v, w = v ++ [sep] := by
  induction w using List.reverseRecOn with
  | nil => exact Or.inl rfl
  | append_singleton v c _ =>
    by_cases hc : c = sep
    · exact Or.inr ⟨v, by rw [hc]⟩
    · rw [Closed, openTail, List.rtakeWhile_concat_pos _ _ _ (by simpa using hc)] at h
      simp at h

lemma closed_closedPart (w : List α) : Closed sep (closedPart sep w) := by
  rw [Closed, openTail, List.rtakeWhile_eq_nil_iff]
  exact List.rdropWhile_last_not _ _

lemma closed_joinLines_append {w : List α} {ls : List (List α)} (h : ls ≠ []) :
    Closed sep (w ++ joinLines sep ls) := by
  induction ls using List.reverseRecOn with
  | nil => exact absurd rfl h
  | append_singleton ls l _ =>
    have he : w ++ joinLines sep (ls ++ [l]) = (w ++ joinLines sep ls ++ l) ++ [sep] := by
      simp [joinLines]
    rw [he]
    exact closed_concat _

lemma splitLines_line {l : List α} (h : sep ∉ l) (rest : List α) :
    splitLines sep (l ++ sep :: rest) = l :: splitLines sep rest := by
  induction l with
  | nil => simp [splitLines]
  | cons c cs ih =>
    obtain ⟨hc, hcs⟩ := not_or.mp (mt List.mem_cons.mpr h)
    rw [List.cons_append, splitLines, if_neg (Ne.symm hc), ih hcs]

/-- Lines without a separator come back unchanged, followed by what the rest splits into. -/
theorem splitLines_joinLines {ls : List (List α)} (h : ∀ l ∈ ls, sep ∉ l) (rest : List α) :
    splitLines sep (joinLines sep ls ++ rest) = ls ++ splitLines sep rest := by
  induction ls with
  | nil => rfl
  | cons l ls ih =>
    have hl := splitLines_line (h l (by simp)) (joinLines sep ls ++ rest)
    rw [ih fun l' hl' => h l' (by simp [hl'])] at hl
    simpa [joinLines] using hl

lemma notMem_of_mem_splitLines {w l : List α} (h : l ∈ splitLines sep w) : sep ∉ l := by
  induction w generalizing l with
  | nil => simp [splitLines] at h
  | cons c cs ih =>
    rw [splitLines] at h
    split_ifs at h with hc
    · rcases List.mem_cons.mp h with rfl | h
      · exact List.not_mem_nil
      · exact ih h
    · split at h
      · rw [List.mem_singleton.mp h]
        simp [Ne.symm hc]
      · rename_i l' ls hl
        rcases List.mem_cons.mp h with rfl | h
        · rw [List.mem_cons, not_or]
          exact ⟨Ne.symm hc, ih (by simp [hl])⟩
        · exact ih (by simp [hl, h])

lemma splitLines_concat_append (v rest : List α) :
    splitLines sep (v ++ sep :: rest) = splitLines sep (v ++ [sep]) ++ splitLines sep rest := by
  induction v with
  | nil => simp [splitLines]
  | cons c cs ih =>
    by_cases hc : c = sep
    · simp [splitLines, hc, ih]
    · have hne : splitLines sep (cs ++ [sep]) ≠ [] := by
        cases cs with
        | nil => simp [splitLines]
        | cons d ds => rw [List.cons_append, splitLines]; split_ifs <;> [simp; split <;> simp]
      obtain ⟨l, ls, hl⟩ := List.exists_cons_of_ne_nil hne
      simp [splitLines, hc, ih, hl]

/-- Splitting distributes over an append at a line boundary. -/
theorem splitLines_append {w : List α} (h : Closed sep w) (rest : List α) :
    splitLines sep (w ++ rest) = splitLines sep w ++ splitLines sep rest := by
  rcases h.eq_nil_or_concat with rfl | ⟨v, rfl⟩
  · rfl
  · rw [List.append_assoc, List.singleton_append, splitLines_concat_append]

omit [DecidableEq α] in
lemma joinLines_append (ls ls' : List (List α)) :
    joinLines sep (ls ++ ls') = joinLines sep ls ++ joinLines sep ls' := List.flatMap_append

/-- Written lines come back cut at their own separators. -/
theorem splitLines_joinLines_pieces (ls : List (List α)) :
    splitLines sep (joinLines sep ls) = ls.flatMap fun l => splitLines sep (l ++ [sep]) := by
  induction ls with
  | nil => rfl
  | cons l ls ih =>
    have hcons : joinLines sep (l :: ls) = (l ++ [sep]) ++ joinLines sep ls := List.flatMap_cons
    rw [hcons, splitLines_append (closed_concat l), ih, List.flatMap_cons]

/-- Lines appended after an unfinished one: the first is glued to it. -/
theorem splitLines_append_joinLines (w : List α) {l : List α} {ls : List (List α)}
    (hl : sep ∉ l) (hls : ∀ x ∈ ls, sep ∉ x) :
    splitLines sep (w ++ joinLines sep (l :: ls)) =
      splitLines sep (closedPart sep w) ++ (openTail sep w ++ l) :: ls := by
  have hsplit : w ++ joinLines sep (l :: ls) =
      closedPart sep w ++ ((openTail sep w ++ l) ++ sep :: joinLines sep ls) := by
    conv_lhs => rw [← closedPart_append_openTail sep w]
    simp [joinLines]
  have hmem : sep ∉ openTail sep w ++ l := by
    rw [List.mem_append]
    exact not_or.mpr ⟨sep_notMem_openTail w, hl⟩
  rw [hsplit, splitLines_append (closed_closedPart w), splitLines_line hmem]
  congr 2
  simpa [splitLines] using splitLines_joinLines hls []

/-- A text as its finished lines and the unfinished one. -/
structure Framed (α : Type*) where
  lines : List (List α)
  pending : List α
  deriving DecidableEq

def Framed.text (sep : α) (f : Framed α) : List α := joinLines sep f.lines ++ f.pending

/-- A text written behind another: the first finished line is glued to the unfinished one. -/
def Framed.append (f g : Framed α) : Framed α :=
  match g.lines with
  | [] => ⟨f.lines, f.pending ++ g.pending⟩
  | l :: ls => ⟨f.lines ++ (f.pending ++ l) :: ls, g.pending⟩

/-- The first `k` symbols of the written lines. -/
def cut : List (List α) → ℕ → Framed α
  | [], _ => ⟨[], []⟩
  | l :: ls, k =>
    if k ≤ l.length then ⟨[], l.take k⟩
    else ⟨l :: (cut ls (k - (l.length + 1))).lines, (cut ls (k - (l.length + 1))).pending⟩

omit [DecidableEq α] in
lemma joinLines_cons (l : List α) (ls : List (List α)) :
    joinLines sep (l :: ls) = l ++ sep :: joinLines sep ls := by
  simp [joinLines]

omit [DecidableEq α] in
lemma Framed.text_append (f g : Framed α) : (f.append g).text sep = f.text sep ++ g.text sep := by
  obtain ⟨lines, pending⟩ := g
  cases lines with
  | nil => simp [Framed.append, Framed.text, joinLines]
  | cons l ls => simp [Framed.append, Framed.text, joinLines]

omit [DecidableEq α] in
lemma cut_text (ls : List (List α)) (k : ℕ) : (cut ls k).text sep = (joinLines sep ls).take k := by
  induction ls generalizing k with
  | nil => simp [cut, Framed.text, joinLines]
  | cons l ls ih =>
    rw [cut, joinLines_cons]
    split_ifs with hk
    · rw [List.take_append_of_le_length hk]
      rfl
    · obtain ⟨m, rfl⟩ := Nat.exists_eq_add_of_le (not_le.mp hk)
      have hrest := ih m
      rw [Framed.text] at hrest
      rw [Framed.text, joinLines_cons, Nat.succ_eq_add_one, Nat.add_sub_cancel_left, List.append_assoc,
        List.cons_append, hrest, Nat.add_assoc, List.take_length_add_append, Nat.add_comm 1 m,
        List.take_succ_cons]

omit [DecidableEq α] in
/-- The finished lines of a cut text are written lines. -/
lemma finished_of_cut (ls : List (List α)) (k : ℕ) : (cut ls k).lines <+: ls := by
  induction ls generalizing k with
  | nil => exact List.prefix_refl _
  | cons l ls ih =>
    rw [cut]
    split_ifs
    · exact List.nil_prefix
    · exact List.prefix_cons_inj l |>.mpr (ih _)

omit [DecidableEq α] in
/-- The unfinished line is a part of a written one. -/
lemma mem_cut_pending {ls : List (List α)} {k : ℕ} {c : α} (h : c ∈ (cut ls k).pending) :
    ∃ l ∈ ls, c ∈ l := by
  induction ls generalizing k with
  | nil => exact absurd h List.not_mem_nil
  | cons l ls ih =>
    rw [cut] at h
    split_ifs at h
    · exact ⟨l, List.mem_cons_self, List.mem_of_mem_take h⟩
    · obtain ⟨l', hl', hc⟩ := ih h
      exact ⟨l', List.mem_cons_of_mem l hl', hc⟩

/-- A reader returns the finished lines and the unfinished one if there is any. -/
lemma splitLines_text {f : Framed α} (hlines : ∀ l ∈ f.lines, sep ∉ l) (hpending : sep ∉ f.pending) :
    splitLines sep (f.text sep) = f.lines ++ [f.pending].filter (· ≠ []) := by
  rw [Framed.text, splitLines_joinLines hlines]
  refine congrArg (f.lines ++ ·) ?_
  generalize f.pending = w at hpending
  induction w with
  | nil => rfl
  | cons c cs ih =>
    obtain ⟨hc, hcs⟩ := not_or.mp (mt List.mem_cons.mpr hpending)
    rw [splitLines, if_neg (Ne.symm hc), ih hcs]
    cases cs <;> rfl

end Eureka.LineFraming
