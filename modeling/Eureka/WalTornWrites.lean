import Mathlib
import Eureka.WalRoundTrip

/-! Entries that the log takes only in part. Nothing marks the cut, so the next line is glued to
what was written of the last one: how much recovery loses by it. -/
namespace Eureka.Ingest
open WordBytes LineFraming TransitionRuns

/-- What happens to the log: an entry is appended, or a commit truncates it. -/
inductive LogAction
  | append (io : WalOutcome) (batch : List Bytes)
  | truncate (opens : Bool)
  deriving DecidableEq, Repr

def LogAction.apply (wal : WalFile) : LogAction → WalFile
  | .append io batch => (appendWalEntry io batch wal).2
  | .truncate opens => truncateWal opens wal

def LogAction.Plain : LogAction → Prop
  | .append _ batch => ∀ l ∈ batch, PlainLine l
  | .truncate _ => True

/-- The finished lines of an entry and the line in which it ends. -/
def written : WalOutcome → List Bytes → Framed Byte
  | .openFails, _ => ⟨[], []⟩
  | .writes none, batch => ⟨batch, []⟩
  | .writes (some k), batch => cut batch k

/-- The lines that no cut reaches, the number of entries cut inside a line, and whether the log
ends in such a line. -/
structure Ledger where
  intact : List Bytes
  torn : ℕ
  unfinished : Bool
  deriving DecidableEq, Repr

def Ledger.step (l : Ledger) : LogAction → Ledger
  | .append io batch =>
    let entry := written io batch
    { intact := l.intact ++ if l.unfinished then entry.lines.tail else entry.lines
      torn := l.torn + if entry.pending = [] then 0 else 1
      unfinished := if entry.lines = [] then l.unfinished || entry.pending ≠ [] else entry.pending ≠ [] }
  | .truncate opens => if opens then ⟨[], 0, false⟩ else l

def ledgerOf (actions : List LogAction) : Ledger := actions.foldl Ledger.step ⟨[], 0, false⟩

def logOf (actions : List LogAction) : WalFile := actions.foldl LogAction.apply none

variable {io : WalOutcome} {batch : List Bytes} {f : Framed Byte} {l : Ledger} {wal : WalFile}

/-- A framed log whose lines survive the clean-up of the reader. -/
structure CleanFrame (f : Framed Byte) : Prop where
  lines : ∀ l ∈ f.lines, PlainLine l
  pending : newline ∉ f.pending

lemma written_text (io : WalOutcome) (batch : List Bytes) (wal : WalFile) :
    (appendWalEntry io batch wal).2.getD [] = wal.getD [] ++ (written io batch).text newline := by
  cases io with
  | openFails => exact (List.append_nil _).symm
  | writes accepted =>
    cases accepted with
    | none => simp [appendWalEntry, written, Framed.text]
    | some k => simp [appendWalEntry, written, cut_text]

lemma written_clean (h : ∀ l ∈ batch, PlainLine l) : CleanFrame (written io batch) := by
  cases io with
  | openFails => exact ⟨List.forall_mem_nil _, List.not_mem_nil⟩
  | writes accepted =>
    cases accepted with
    | none => exact ⟨h, List.not_mem_nil⟩
    | some k =>
      refine ⟨fun l hl => h l ((finished_of_cut batch k).subset hl), fun hn => ?_⟩
      obtain ⟨l, hl, hmem⟩ := mem_cut_pending hn
      exact (h l hl).noNewline hmem

/-- A piece without a newline in front of a plain line. -/
lemma PlainLine.glue {piece line : Bytes} (h : PlainLine line) (hpiece : newline ∉ piece) :
    PlainLine (piece ++ line) := by
  refine ⟨List.append_ne_nil_of_right_ne_nil _ h.nonempty, ?_, ?_⟩
  · rw [List.mem_append]
    exact not_or.mpr ⟨hpiece, h.noNewline⟩
  · rw [List.getLast?_append_of_ne_nil _ h.nonempty]
    exact h.noReturn

lemma CleanFrame.append {g : Framed Byte} (hf : CleanFrame f) (hg : CleanFrame g) :
    CleanFrame (f.append g) := by
  obtain ⟨lines, pending⟩ := g
  cases lines with
  | nil =>
    refine ⟨hf.lines, ?_⟩
    rw [Framed.append, List.mem_append]
    exact not_or.mpr ⟨hf.pending, hg.pending⟩
  | cons line rest =>
    obtain ⟨hline, hrest⟩ := List.forall_mem_cons.mp hg.lines
    refine ⟨fun l hl => ?_, hg.pending⟩
    rcases List.mem_append.mp hl with hl | hl
    · exact hf.lines l hl
    · rcases List.mem_cons.mp hl with rfl | hl
      · exact hline.glue hf.pending
      · exact hrest l hl

/-- The line that stands at the end, if there is one. -/
def lastLines (f : Framed Byte) : List Bytes := [f.pending].filter (· ≠ [])

lemma recover_frame (h : CleanFrame f) (hwal : wal.getD [] = f.text newline) :
    recoverFromWal wal = f.lines ++ (lastLines f).map popCarriageReturn := by
  have hlast : (lastLines f).filter (· ≠ []) = lastLines f := by rw [lastLines, List.filter_filter]; simp
  rw [recoverFromWal, hwal, splitLines_text (fun l hl => (h.lines l hl).noNewline) h.pending,
    List.filter_append, List.map_append, recover_filter_map h.lines]
  exact congrArg (fun ls => f.lines ++ ls.map popCarriageReturn) hlast

/-- The log and its ledger. -/
structure Tracks (f : Framed Byte) (l : Ledger) : Prop where
  intact : l.intact.Sublist f.lines
  bound : f.lines.length + (lastLines f).length ≤ l.intact.length + l.torn
  unfinished : l.unfinished = decide (f.pending ≠ [])

lemma length_lastLines (f : Framed Byte) :
    (lastLines f).length = if f.pending = [] then 0 else 1 := by
  rw [lastLines, List.filter_cons]
  by_cases h : f.pending = []
  · simp [h]
  · simp [h]

/-- A torn entry costs one line: either the one in which it ends, or the next one. -/
lemma Tracks.append (h : Tracks f l) (io : WalOutcome) (batch : List Bytes) :
    Tracks (f.append (written io batch)) (l.step (.append io batch)) := by
  obtain ⟨hintact, hbound, hunfinished⟩ := h
  rw [length_lastLines] at hbound
  rw [Ledger.step]
  generalize written io batch = entry
  obtain ⟨lines, pending⟩ := entry
  cases lines with
  | nil =>
    refine ⟨?_, ?_, ?_⟩
    · simpa [Framed.append] using hintact
    · simp only [Framed.append, length_lastLines, List.append_eq_nil_iff]
      by_cases hf : f.pending = [] <;> by_cases hp : pending = [] <;> simp [hf, hp] at hbound ⊢ <;> omega
    · simp [Framed.append, hunfinished]
  | cons line rest =>
    refine ⟨?_, ?_, ?_⟩
    · simp only [Framed.append, hunfinished]
      by_cases hf : f.pending = []
      · simpa [hf] using hintact
      · simp only [ne_eq, hf, not_false_eq_true, decide_true, if_true, List.tail_cons]
        exact hintact.append (List.sublist_cons_self _ _)
    · simp only [Framed.append, length_lastLines, hunfinished]
      by_cases hf : f.pending = [] <;> simp [hf] at hbound ⊢ <;> omega
    · rfl

/-- The log, read as lines, goes along with the ledger. -/
lemma tracks_step (ht : ∃ f, CleanFrame f ∧ wal.getD [] = f.text newline ∧ Tracks f l)
    {a : LogAction} (ha : a.Plain) :
    ∃ f, CleanFrame f ∧ (a.apply wal).getD [] = f.text newline ∧ Tracks f (l.step a) := by
  obtain ⟨f, hclean, hwal, htracks⟩ := ht
  cases a with
  | append io batch =>
    refine ⟨f.append (written io batch), hclean.append (written_clean ha), ?_, htracks.append io batch⟩
    rw [LogAction.apply, written_text, hwal, Framed.text_append]
  | truncate opens =>
    cases opens with
    | true => exact ⟨⟨[], []⟩, ⟨by simp, by simp⟩, rfl, ⟨by simp [Ledger.step], by simp [lastLines], rfl⟩⟩
    | false => exact ⟨f, hclean, hwal, htracks⟩

/-- However the entries of a log are cut, recovery returns the lines that no cut reaches, in their
order, and at most one other line for each entry that was cut inside a line. -/
theorem recover_torn_log {actions : List LogAction} (h : ∀ a ∈ actions, a.Plain) :
    (ledgerOf actions).intact.Sublist (recoverFromWal (logOf actions)) ∧
      (recoverFromWal (logOf actions)).length ≤
        (ledgerOf actions).intact.length + (ledgerOf actions).torn := by
  have htracks : ∃ f, CleanFrame f ∧ (logOf actions).getD [] = f.text newline ∧
      Tracks f (ledgerOf actions) := by
    have hstart : ∃ f, CleanFrame f ∧ (none : WalFile).getD [] = f.text newline ∧
        Tracks f ⟨[], 0, false⟩ :=
      ⟨⟨[], []⟩, ⟨by simp, by simp⟩, rfl, ⟨by simp, by simp [lastLines], rfl⟩⟩
    have hstep : ∀ (wal : WalFile) (l : Ledger) (a : LogAction),
        (∃ f, CleanFrame f ∧ wal.getD [] = f.text newline ∧ Tracks f l) → a.Plain →
        ∃ f, CleanFrame f ∧ (a.apply wal).getD [] = f.text newline ∧ Tracks f (l.step a) :=
      fun _ _ _ ht ha => tracks_step ht ha
    exact foldl_simulates hstep hstart fun k hk => h _ (List.getElem_mem hk)
  obtain ⟨f, hclean, hwal, hintact, hbound, -⟩ := htracks
  rw [recover_frame hclean hwal]
  constructor
  · exact hintact.trans (List.sublist_append_left _ _)
  · rw [List.length_append, List.length_map]
    exact hbound

/-- The second entry is cut inside its line. -/
def tornLetters : List LogAction :=
  [.append (.writes none) [[0x61#8]], .append (.writes (some 1)) [[0x62#8]],
    .append (.writes none) [[0x61#8], [0x63#8]]]

theorem recover_torn_log_sample :
    [[0x61#8], [0x63#8]].Sublist (recoverFromWal (logOf tornLetters)) ∧
      (recoverFromWal (logOf tornLetters)).length ≤ 2 + 1 := by
  have hletter : ∀ b : Byte, b ≠ newline → b ≠ carriageReturn → PlainLine [b] :=
    fun b hn hr => ⟨List.cons_ne_nil _ _, by simpa using hn.symm, by simpa using hr⟩
  have hplain : ∀ a ∈ tornLetters, a.Plain := by
    refine List.forall_mem_cons.mpr ⟨?_, List.forall_mem_cons.mpr ⟨?_, List.forall_mem_singleton.mpr ?_⟩⟩
    · exact List.forall_mem_singleton.mpr (hletter _ (by decide) (by decide))
    · exact List.forall_mem_singleton.mpr (hletter _ (by decide) (by decide))
    · refine List.forall_mem_cons.mpr ⟨hletter _ (by decide) (by decide), ?_⟩
      exact List.forall_mem_singleton.mpr (hletter _ (by decide) (by decide))
  exact recover_torn_log hplain

end Eureka.Ingest
