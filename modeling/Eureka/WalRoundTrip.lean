import Mathlib
import Eureka.WalDurability

/-! What recovery returns after a sequence of appends, and after repeated crashes that each
replay the log into itself. -/
namespace Eureka.Ingest
open WordBytes Apex Simdjson LineFraming Storage

/-- Batches appended in order to a log that opens and takes every byte. -/
def appendAll (wal : WalFile) (batches : List (List Bytes)) : WalFile :=
  batches.foldl (fun w batch => (appendWalEntry (.writes none) batch w).2) wal

/-- The lines that one string becomes in the log. -/
def linePieces (line : Bytes) : List Bytes := splitLines newline (line ++ [newline])

lemma appendAll_getD (wal : WalFile) (batches : List (List Bytes)) :
    (appendAll wal batches).getD [] = wal.getD [] ++ joinLines newline batches.flatten := by
  induction batches generalizing wal with
  | nil => simp [appendAll, joinLines]
  | cons batch batches ih =>
    have hcons : appendAll wal (batch :: batches) =
        appendAll (some (wal.getD [] ++ joinLines newline batch)) batches := rfl
    rw [hcons, ih, List.flatten_cons, joinLines_append, Option.getD_some, List.append_assoc]

lemma recover_appendAll (wal : WalFile) (batches : List (List Bytes)) :
    recoverFromWal (appendAll (truncateWal true wal) batches) =
      ((batches.flatten.flatMap linePieces).filter (· ≠ [])).map popCarriageReturn := by
  have hw := appendAll_getD (truncateWal true wal) batches
  simp only [truncateWal, if_true, Option.getD_some, List.nil_append] at hw
  rw [recoverFromWal, truncateWal, if_pos rfl, hw, splitLines_joinLines_pieces]
  rfl

lemma linePieces_of_noNewline {line : Bytes} (h : newline ∉ line) : linePieces line = [line] :=
  splitLines_line h []

lemma flatMap_linePieces {lines : List Bytes} (h : ∀ l ∈ lines, newline ∉ l) :
    lines.flatMap linePieces = lines := by
  induction lines with
  | nil => rfl
  | cons l ls ih =>
    rw [List.flatMap_cons, linePieces_of_noNewline (h l (by simp)),
      ih fun l' hl' => h l' (by simp [hl']), List.singleton_append]

lemma mem_of_mem_popCarriageReturn {line : Bytes} {b : Byte} (h : b ∈ popCarriageReturn line) :
    b ∈ line := by
  rw [popCarriageReturn] at h
  split_ifs at h
  · exact List.mem_of_mem_dropLast h
  · exact h

lemma popCarriageReturn_eq_self {line : Bytes} (h : popCarriageReturn line = line) :
    line.getLast? ≠ some carriageReturn := by
  intro hr
  rw [popCarriageReturn, if_pos hr] at h
  have hne : line ≠ [] := by
    rintro rfl
    simp at hr
  have hlen := congrArg List.length h
  rw [List.length_dropLast] at hlen
  have hpos := List.length_pos_iff.mpr hne
  omega

/-- No recovered line contains the separator. -/
lemma newline_notMem_recover {wal : WalFile} {line : Bytes} (h : line ∈ recoverFromWal wal) :
    newline ∉ line := by
  obtain ⟨raw, hraw, rfl⟩ := List.mem_map.mp h
  intro hn
  exact notMem_of_mem_splitLines (List.mem_filter.mp hraw).1 (mem_of_mem_popCarriageReturn hn)

/-- Lines that the reader's clean-up leaves alone are non-empty and end in no return. -/
lemma plain_of_filter_map {lines : List Bytes}
    (h : (lines.filter (· ≠ [])).map popCarriageReturn = lines) (hn : ∀ l ∈ lines, newline ∉ l) :
    ∀ l ∈ lines, PlainLine l := by
  have hall : lines.filter (· ≠ []) = lines := by
    refine List.filter_sublist.eq_of_length ?_
    have hlen := congrArg List.length h
    rwa [List.length_map] at hlen
  have hpop : ∀ l ∈ lines, popCarriageReturn l = l := by
    rw [hall] at h
    refine fun l hl => (List.map_inj_left (g := id)).mp ?_ l hl
    rw [h, List.map_id]
  intro l hl
  refine ⟨?_, hn l hl, popCarriageReturn_eq_self (hpop l hl)⟩
  rw [← hall] at hl
  exact of_decide_eq_true (List.mem_filter.mp hl).2

/-- The log returns every string cut at its newlines, without the empty pieces and without one
trailing return of each piece. That is what was appended exactly when every line is plain. -/
theorem recover_appended_batches (wal : WalFile) (batches : List (List Bytes)) :
    recoverFromWal (appendAll (truncateWal true wal) batches) =
      ((batches.flatten.flatMap linePieces).filter (· ≠ [])).map popCarriageReturn ∧
    (recoverFromWal (appendAll (truncateWal true wal) batches) = batches.flatten ↔
      ∀ batch ∈ batches, ∀ line ∈ batch, PlainLine line) := by
  refine ⟨recover_appendAll wal batches, ?_⟩
  have hmem : (∀ batch ∈ batches, ∀ line ∈ batch, PlainLine line) ↔
      ∀ line ∈ batches.flatten, PlainLine line := by
    simp only [List.mem_flatten, forall_exists_index, and_imp]
    exact ⟨fun h l b hb hl => h b hb l hl, fun h b hb l hl => h l b hb hl⟩
  rw [hmem]
  constructor
  · intro h
    have hn : ∀ l ∈ batches.flatten, newline ∉ l :=
      fun l hl => newline_notMem_recover (h ▸ hl)
    rw [recover_appendAll, flatMap_linePieces hn] at h
    exact plain_of_filter_map h hn
  · intro h
    rw [recover_appendAll, flatMap_linePieces fun l hl => (h l hl).noNewline]
    exact recover_filter_map h

/-- An empty line, a line that ends in a return and a line with a newline inside. -/
theorem appended_lines_altered :
    recoverFromWal (appendAll (truncateWal true none)
        [[[], [0x61#8, carriageReturn], [0x61#8, newline, 0x62#8]]]) =
      [[0x61#8], [0x61#8], [0x62#8]] ∧
    recoverFromWal (appendAll (truncateWal true none)
        [[[], [0x61#8, carriageReturn], [0x61#8, newline, 0x62#8]]]) ≠
      [[[], [0x61#8, carriageReturn], [0x61#8, newline, 0x62#8]]].flatten := by
  have hrec : recoverFromWal (appendAll (truncateWal true none)
      [[[], [0x61#8, carriageReturn], [0x61#8, newline, 0x62#8]]]) =
        [[0x61#8], [0x61#8], [0x62#8]] := rfl
  rw [hrec]
  simp [newline]

/-- The replay of a new process: what is recovered goes through the logging append. -/
def replay (wal : WalFile) : WalFile :=
  (appendRawBatch (.writes none) .new wal (recoverFromWal wal)).2.2

/-- The log holds these lines, each of which comes back as it was written. -/
structure CleanLog (wal : WalFile) (lines : List Bytes) : Prop where
  content : wal.getD [] = joinLines newline lines
  plain : ∀ l ∈ lines, PlainLine l

lemma cleanLog_none : CleanLog none [] := ⟨rfl, by simp⟩

lemma CleanLog.recover {wal : WalFile} {lines : List Bytes} (h : CleanLog wal lines) :
    recoverFromWal wal = lines := by
  rw [recoverFromWal, h.content, splitLines_joinLines_pieces]
  have hpieces : lines.flatMap (fun l => splitLines newline (l ++ [newline])) = lines :=
    flatMap_linePieces fun l hl => (h.plain l hl).noNewline
  rw [hpieces, recover_filter_map h.plain]

lemma CleanLog.append {wal : WalFile} {lines : List Bytes} (h : CleanLog wal lines)
    (a : AdaptiveIngester) {batch : List Bytes} (hb : ∀ l ∈ batch, PlainLine l) :
    CleanLog (appendRawBatch (.writes none) a wal batch).2.2 (lines ++ batch) := by
  constructor
  · simp only [appendRawBatch, appendWalEntry, Option.getD_some]
    rw [h.content, joinLines_append]
  · intro l hl
    rcases List.mem_append.mp hl with hl | hl
    · exact h.plain l hl
    · exact hb l hl

lemma CleanLog.replay {wal : WalFile} {lines : List Bytes} (h : CleanLog wal lines) :
    CleanLog (replay wal) (lines ++ lines) := by
  rw [Ingest.replay, h.recover]
  exact h.append .new h.plain

/-- Each replay doubles what the log holds. -/
theorem CleanLog.replay_iterate {wal : WalFile} {lines : List Bytes} (h : CleanLog wal lines)
    (k : ℕ) : CleanLog (Ingest.replay^[k] wal) (List.replicate (2 ^ k) lines).flatten := by
  induction k with
  | zero => simpa using h
  | succ k ih =>
    rw [Function.iterate_succ_apply', Nat.pow_succ, Nat.mul_two, List.replicate_add,
      List.flatten_append]
    exact ih.replay

/-- After a batch was staged and the log replayed `k` times, recovery returns every line once
exactly when there was no replay or no line. -/
theorem replayed_once_iff (a : AdaptiveIngester) {wal : WalFile} {lines : List Bytes}
    (hw : CleanLog wal lines) {batch : List Bytes} (h : ∀ l ∈ batch, PlainLine l) (k : ℕ) :
    recoverFromWal (replay^[k] (appendRawBatch (.writes none) a wal batch).2.2) =
        lines ++ batch ↔
      k = 0 ∨ lines ++ batch = [] := by
  rw [((hw.append a h).replay_iterate k).recover]
  constructor
  · intro heq
    have hlen := congrArg List.length heq
    rw [List.length_flatten, List.map_replicate, List.sum_replicate, smul_eq_mul] at hlen
    rcases Nat.eq_zero_or_pos k with hk | hk
    · exact Or.inl hk
    · have htwo : 2 ≤ 2 ^ k := Nat.le_self_pow hk.ne' 2
      refine Or.inr (List.length_eq_zero_iff.mp ?_)
      nlinarith
  · rintro (rfl | hempty)
    · simp
    · simp [hempty]

theorem replayed_once_sample :
    recoverFromWal (replay^[2] (appendRawBatch (.writes none) .new none [[0x61#8]]).2.2) =
        [] ++ [[0x61#8]] ↔
      2 = 0 ∨ [] ++ [[0x61#8]] = ([] : List Bytes) :=
  replayed_once_iff .new cleanLog_none (by simp [plainLine_letter]) 2

/-- One line and one replay: the line is recovered twice. -/
theorem replay_duplicates_line :
    (∀ l ∈ [[0x61#8]], PlainLine l) ∧
    recoverFromWal (replay^[1] (appendRawBatch (.writes none) .new none [[0x61#8]]).2.2) =
      [[0x61#8], [0x61#8]] ∧
    recoverFromWal (replay^[1] (appendRawBatch (.writes none) .new none [[0x61#8]]).2.2) ≠
      [[0x61#8]] := by
  refine ⟨by simp [plainLine_letter], rfl, ?_⟩
  simp [replay, appendRawBatch, appendWalEntry, recoverFromWal, joinLines, splitLines, newline,
    popCarriageReturn, carriageReturn]

end Eureka.Ingest
