import Mathlib
import Eureka.AdaptiveIngester
import Eureka.TransitionRuns

/-! One log file behind several staged batches: a run of appends and transcodes, and when
every line that is only staged can be recovered after each call. -/
namespace Eureka.Ingest
open WordBytes Apex Simdjson LineFraming Storage TransitionRuns

variable {parser : Parser} {slicer : BitSlicer}

/-- An appended batch and the group that its handle points to. -/
structure Staged where
  batch : List Bytes
  group : RowGroup

structure Deployment where
  ingester : AdaptiveIngester
  wal : WalFile
  staged : List Staged

inductive Call
  | append (batch : List Bytes)
  | transcode (handle : ℕ)
  deriving DecidableEq, Repr

/-- One call that runs to completion on a log file that opens and takes every byte. -/
def Deployment.call (parser : Parser) (slicer : BitSlicer) (d : Deployment) : Call → Deployment
  | .append batch =>
    let r := appendRawBatch (.writes none) d.ingester d.wal batch
    ⟨r.2.1, r.2.2, d.staged ++ [⟨batch, r.1⟩]⟩
  | .transcode i =>
    match d.staged[i]? with
    | none => d
    | some e =>
      let t := transcodeBatchNow parser slicer true d.ingester d.wal (some e.group)
      ⟨t.ingester, t.wal, d.staged.set i ⟨e.batch, t.handle.getD e.group⟩⟩

def Deployment.run (parser : Parser) (slicer : BitSlicer) (d : Deployment) (calls : List Call) :
    Deployment := calls.foldl (Deployment.call parser slicer) d

/-- Every line of every batch that is still only staged is in the recovered lines. -/
def Durable (d : Deployment) : Prop :=
  ∀ e ∈ d.staged, e.group.isCompacted = false → ∀ line ∈ e.batch, line ∈ recoverFromWal d.wal

/-- A line that survives the framing of the log. -/
structure PlainLine (line : Bytes) : Prop where
  nonempty : line ≠ []
  noNewline : newline ∉ line
  noReturn : line.getLast? ≠ some carriageReturn

def Call.Plain : Call → Prop
  | .append batch => ∀ line ∈ batch, PlainLine line
  | .transcode _ => True

/-- An append to a log that ends inside a line loses its first line, unless that line comes
again in the batch or stands in the log already. -/
def AppendSafe (wal : WalFile) : List Bytes → Prop
  | [] => True
  | line :: rest => Closed newline (wal.getD []) ∨ line ∈ rest ∨
      line ∈ recoverFromWal (some (closedPart newline (wal.getD [])))

/-- A transcode that commits empties the log, so no other staged batch may have lines. -/
def TranscodeSafe (d : Deployment) (i : ℕ) : Prop :=
  ∀ e, d.staged[i]? = some e → e.group.isCompacted = false →
    ∀ j e', j ≠ i → d.staged[j]? = some e' → e'.group.isCompacted = false → e'.batch = []

def SafeCall (d : Deployment) : Call → Prop
  | .append batch => AppendSafe d.wal batch
  | .transcode i => TranscodeSafe d i

/-- An unfinished last line dates from before the first line that was appended. -/
def LogClosed (d : Deployment) : Prop :=
  Closed newline (d.wal.getD []) ∨ ∀ e ∈ d.staged, e.batch = []

lemma recover_filter_map {ls : List Bytes} (h : ∀ l ∈ ls, PlainLine l) :
    (ls.filter (· ≠ [])).map popCarriageReturn = ls := by
  have hfilter : ls.filter (· ≠ []) = ls :=
    List.filter_eq_self.mpr fun l hl => decide_eq_true (h l hl).nonempty
  rw [hfilter]
  refine (List.map_congr_left fun l hl => ?_).trans (List.map_id ls)
  rw [popCarriageReturn, if_neg (h l hl).noReturn]
  rfl

lemma recover_append_closed {w : Bytes} (hw : Closed newline w) {batch : List Bytes}
    (h : ∀ l ∈ batch, PlainLine l) :
    recoverFromWal (some (w ++ joinLines newline batch)) = recoverFromWal (some w) ++ batch := by
  have hjoin : splitLines newline (joinLines newline batch) = batch := by
    have hs := splitLines_joinLines (fun l hl => (h l hl).noNewline) []
    simpa [splitLines] using hs
  simp only [recoverFromWal, Option.getD_some]
  rw [splitLines_append hw, hjoin, List.filter_append, List.map_append, recover_filter_map h]

/-- Recovery after an append to a log with an unfinished line. -/
lemma recover_append_open (w : Bytes) {line : Bytes} {rest : List Bytes}
    (hline : PlainLine line) (h : ∀ l ∈ rest, PlainLine l) :
    recoverFromWal (some (w ++ joinLines newline (line :: rest))) =
      recoverFromWal (some (closedPart newline w)) ++ (openTail newline w ++ line) :: rest := by
  have hglued : ((openTail newline w ++ line) :: rest).filter (· ≠ []) =
      (openTail newline w ++ line) :: rest.filter (· ≠ []) :=
    List.filter_cons_of_pos (by simp [hline.nonempty])
  have hpop : popCarriageReturn (openTail newline w ++ line) = openTail newline w ++ line := by
    rw [popCarriageReturn, if_neg]
    rw [List.getLast?_append_of_ne_nil _ hline.nonempty]
    exact hline.noReturn
  simp only [recoverFromWal, Option.getD_some]
  rw [splitLines_append_joinLines w hline.noNewline fun l hl => (h l hl).noNewline,
    List.filter_append, List.map_append, hglued, List.map_cons, hpop, recover_filter_map h]

lemma recover_getD (wal : WalFile) : recoverFromWal (some (wal.getD [])) = recoverFromWal wal := rfl

lemma recover_subset_append {w : Bytes} (hw : Closed newline w) {batch : List Bytes}
    (h : ∀ l ∈ batch, PlainLine l) (line : Bytes) (hline : line ∈ recoverFromWal (some w)) :
    line ∈ recoverFromWal (some (w ++ joinLines newline batch)) := by
  rw [recover_append_closed hw h]
  exact List.mem_append_left _ hline

lemma durable_append_iff (d : Deployment) (batch : List Bytes) :
    Durable (d.call parser slicer (.append batch)) ↔
      (∀ e ∈ d.staged, e.group.isCompacted = false → ∀ line ∈ e.batch,
        line ∈ recoverFromWal (some (d.wal.getD [] ++ joinLines newline batch))) ∧
      ∀ line ∈ batch, line ∈ recoverFromWal (some (d.wal.getD [] ++ joinLines newline batch)) := by
  constructor
  · intro h
    refine ⟨fun e he => h e (List.mem_append_left _ he), ?_⟩
    exact h ⟨batch, stagedGroup batch⟩ (List.mem_append_right _ (List.mem_singleton.mpr rfl)) rfl
  · rintro ⟨hold, hnew⟩ e he hc
    rcases List.mem_append.mp he with he | he
    · exact hold e he hc
    · obtain rfl := List.mem_singleton.mp he
      exact hnew

/-- Appending keeps every staged line recoverable exactly when the append is safe. -/
theorem durable_append {d : Deployment} (hd : Durable d) (hlog : LogClosed d) {batch : List Bytes}
    (hplain : ∀ l ∈ batch, PlainLine l) :
    Durable (d.call parser slicer (.append batch)) ↔ AppendSafe d.wal batch := by
  rw [durable_append_iff]
  cases batch with
  | nil =>
    refine iff_of_true ⟨fun e he hc line hline => ?_, fun line hline => absurd hline (by simp)⟩
      trivial
    rw [joinLines, List.flatMap_nil, List.append_nil, recover_getD]
    exact hd e he hc line hline
  | cons first rest =>
    by_cases hw : Closed newline (d.wal.getD [])
    · refine iff_of_true ⟨fun e he hc line hline => ?_, fun line hline => ?_⟩ (Or.inl hw)
      · exact recover_subset_append hw hplain line (hd e he hc line hline)
      · rw [recover_append_closed hw hplain]
        exact List.mem_append_right _ hline
    · have hempty := hlog.resolve_left hw
      have hglued : first ≠ openTail newline (d.wal.getD []) ++ first := by
        intro h
        exact hw (List.self_eq_append_left.mp h)
      rw [recover_append_open _ (hplain first (by simp)) fun l hl => hplain l (by simp [hl])]
      constructor
      · rintro ⟨-, hnew⟩
        rcases List.mem_append.mp (hnew first (by simp)) with h | h
        · exact Or.inr (Or.inr h)
        · exact Or.inr (Or.inl ((List.mem_cons.mp h).resolve_left hglued))
      · intro hsafe
        have hfirst := hsafe.resolve_left hw
        refine ⟨fun e he _ line hline => absurd hline (by simp [hempty e he]), ?_⟩
        intro line hline
        rcases List.mem_cons.mp hline with rfl | hline
        · rcases hfirst with h | h
          · exact List.mem_append_right _ (List.mem_cons_of_mem _ h)
          · exact List.mem_append_left _ h
        · exact List.mem_append_right _ (List.mem_cons_of_mem _ hline)

lemma call_transcode_missing {d : Deployment} {i : ℕ} (h : d.staged[i]? = none) :
    d.call parser slicer (.transcode i) = d := by
  simp only [Deployment.call, h]

lemma call_transcode_compacted (parser : Parser) (slicer : BitSlicer) {d : Deployment} {i : ℕ}
    {e : Staged} (h : d.staged[i]? = some e) (hc : e.group.isCompacted = true) :
    (d.call parser slicer (.transcode i)).staged = d.staged ∧
      (d.call parser slicer (.transcode i)).wal = d.wal := by
  obtain ⟨hi, rfl⟩ := List.getElem?_eq_some_iff.mp h
  simp only [Deployment.call, h, transcodeBatchNow, hc, if_true, Option.getD_some]
  exact ⟨List.set_getElem_self hi, trivial⟩

/-- A transcode that commits leaves a compacted group and an empty log. -/
lemma call_transcode_open (parser : Parser) (slicer : BitSlicer) {d : Deployment} {i : ℕ}
    {e : Staged} (h : d.staged[i]? = some e) (hc : e.group.isCompacted = false) :
    ∃ rg, rg.isCompacted = true ∧
      (d.call parser slicer (.transcode i)).staged = d.staged.set i ⟨e.batch, rg⟩ ∧
      (d.call parser slicer (.transcode i)).wal = some [] := by
  refine ⟨{ (ingestChunk parser slicer d.ingester e.group.rawChunkBuffer).1 with
    isCompacted := true }, rfl, ?_, ?_⟩
  · simp only [Deployment.call, h, transcodeBatchNow, hc]
    rfl
  · simp only [Deployment.call, h, transcodeBatchNow, hc]
    rfl

lemma recover_empty : recoverFromWal (some []) = [] := rfl

/-- Transcoding keeps every staged line recoverable exactly when no other batch has any. -/
theorem durable_transcode {d : Deployment} (hd : Durable d) (i : ℕ) :
    Durable (d.call parser slicer (.transcode i)) ↔ TranscodeSafe d i := by
  cases he : d.staged[i]? with
  | none =>
    rw [call_transcode_missing he]
    exact iff_of_true hd fun e h => absurd (he.symm.trans h) (by simp)
  | some e =>
    cases hc : e.group.isCompacted with
    | true =>
      obtain ⟨hs, hw⟩ := call_transcode_compacted parser slicer he hc
      refine iff_of_true ?_ fun e' h' hc' => ?_
      · unfold Durable
        rw [hs, hw]
        exact hd
      · obtain rfl := Option.some.inj (he.symm.trans h')
        exact absurd (hc.symm.trans hc') (by simp)
    | false =>
      obtain ⟨rg, hrg, hs, hw⟩ := call_transcode_open parser slicer he hc
      unfold Durable
      rw [hs, hw, recover_empty]
      constructor
      · intro h e₀ h₀ _ j e' hj hej hcj
        have hmem : e' ∈ d.staged.set i ⟨e.batch, rg⟩ :=
          List.mem_of_getElem? (i := j) (by rw [List.getElem?_set_ne (Ne.symm hj), hej])
        exact List.eq_nil_iff_forall_not_mem.mpr fun line hline =>
          absurd (h e' hmem hcj line hline) (by simp)
      · intro h e' hmem hc' line hline
        obtain ⟨j, hj⟩ := List.mem_iff_getElem?.mp hmem
        by_cases hji : j = i
        · subst hji
          rw [List.getElem?_set_self (List.getElem?_eq_some_iff.mp he).1] at hj
          obtain rfl := Option.some.inj hj
          exact absurd (hrg.symm.trans hc') (by simp)
        · rw [List.getElem?_set_ne (Ne.symm hji)] at hj
          rw [h e he hc j e' hji hj hc'] at hline
          exact absurd hline (by simp)

lemma logClosed_call {d : Deployment} (h : LogClosed d) (c : Call) :
    LogClosed (d.call parser slicer c) := by
  cases c with
  | append batch =>
    cases batch with
    | nil =>
      have hwal : (d.call parser slicer (.append [])).wal.getD [] = d.wal.getD [] :=
        List.append_nil _
      rw [LogClosed, hwal]
      refine h.imp id fun hempty e he => ?_
      rcases List.mem_append.mp he with he | he
      · exact hempty e he
      · rw [List.mem_singleton.mp he]
    | cons first rest => exact Or.inl (closed_joinLines_append (by simp))
  | transcode i =>
    cases he : d.staged[i]? with
    | none =>
      rw [call_transcode_missing he]
      exact h
    | some e =>
      cases hc : e.group.isCompacted with
      | true =>
        obtain ⟨hs, hw⟩ := call_transcode_compacted parser slicer he hc
        rw [LogClosed, hs, hw]
        exact h
      | false =>
        obtain ⟨rg, -, -, hw⟩ := call_transcode_open parser slicer he hc
        refine Or.inl ?_
        rw [hw]
        exact closed_nil

/-- The state of a process that starts on a given log. -/
def Deployment.start (a : AdaptiveIngester) (wal : WalFile) : Deployment := ⟨a, wal, []⟩

/-- Staged lines stay recoverable after every call of a run exactly when each append meets a
log that ends at a line boundary and each committing transcode is of the only staged batch. -/
theorem staged_durable_iff (a : AdaptiveIngester) (wal : WalFile) {calls : List Call}
    (hplain : ∀ c ∈ calls, c.Plain) :
    (∀ k ≤ calls.length,
      Durable ((Deployment.start a wal).run parser slicer (calls.take k))) ↔
    ∀ k (hk : k < calls.length),
      SafeCall ((Deployment.start a wal).run parser slicer (calls.take k)) calls[k] := by
  have hinv : ∀ d c, LogClosed d → Call.Plain c → LogClosed (d.call parser slicer c) :=
    fun d c hd _ => logClosed_call hd c
  have hstep : ∀ d c, LogClosed d → Call.Plain c → Durable d →
      (Durable (d.call parser slicer c) ↔ SafeCall d c) := by
    intro d c hlog hc hd
    cases c with
    | append batch => exact durable_append hd hlog hc
    | transcode i => exact durable_transcode hd i
  have hlog : LogClosed (.start a wal) := Or.inr fun e he => absurd he List.not_mem_nil
  have hdurable : Durable (.start a wal) := fun e he => absurd he List.not_mem_nil
  exact good_throughout_iff hinv hstep hlog hdurable hplain

lemma plainLine_letter : PlainLine [0x61#8] := ⟨by decide, by decide, by decide⟩

theorem staged_durable_iff_sample :
    (∀ k ≤ [Call.append [[0x61#8]], .transcode 0].length,
      Durable ((Deployment.start .new none).run (.ofStream []) .reference
        ([Call.append [[0x61#8]], .transcode 0].take k))) ↔
    ∀ k (hk : k < [Call.append [[0x61#8]], .transcode 0].length),
      SafeCall ((Deployment.start .new none).run (.ofStream []) .reference
        ([Call.append [[0x61#8]], .transcode 0].take k))
        [Call.append [[0x61#8]], .transcode 0][k] :=
  staged_durable_iff .new none (by simp [Call.Plain, plainLine_letter])

/-- Two batches are appended and the first is transcoded: the second is still only staged and
its line is no longer in the log. -/
theorem transcode_loses_staged :
    (∀ c ∈ [Call.append [[0x61#8]], .append [[0x61#8, 0x61#8]], .transcode 0], c.Plain) ∧
    ¬ Durable ((Deployment.start .new none).run (.ofStream []) .reference
      [.append [[0x61#8]], .append [[0x61#8, 0x61#8]], .transcode 0]) := by
  constructor
  · have hsecond : PlainLine [0x61#8, 0x61#8] := ⟨by decide, by decide, by decide⟩
    simp [Call.Plain, plainLine_letter, hsecond]
  · intro h
    have hmem := h ⟨[[0x61#8, 0x61#8]], stagedGroup [[0x61#8, 0x61#8]]⟩
      (List.mem_of_getElem? (i := 1) rfl) rfl [0x61#8, 0x61#8] (List.mem_singleton.mpr rfl)
    exact absurd hmem List.not_mem_nil

end Eureka.Ingest
