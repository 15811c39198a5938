import Mathlib
import Eureka.PromotionLayout

/-! A promotion takes the place of a string in the dictionary for its row. The two agree when
the lines with a string come first. -/
namespace Eureka.Ingest
open WordBytes BitPlanes ByteText Apex Simdjson Storage

section positions
variable {α β : Type*} {f : α → Option β} {l : List α}

/-- Position `r` holds an entry that `f` selects. -/
def Selects (f : α → Option β) (l : List α) (r : ℕ) : Prop :=
  ∃ x, l[r]? = some x ∧ (f x).isSome = true

/-- No selected entry stands behind one that is not selected. -/
def SelectedFirst (f : α → Option β) (l : List α) : Prop :=
  ∀ i j, i < j → Selects f l j → Selects f l i

lemma selects_cons_zero (x : α) : Selects f (x :: l) 0 ↔ (f x).isSome = true := by
  simp [Selects]

lemma selects_cons_succ (x : α) (r : ℕ) : Selects f (x :: l) (r + 1) ↔ Selects f l r := by
  simp [Selects]

lemma SelectedFirst.tail {x : α} (h : SelectedFirst f (x :: l)) : SelectedFirst f l := by
  intro i j hij hj
  have hsucc := h (i + 1) (j + 1) (Nat.succ_lt_succ hij) ((selects_cons_succ x j).mpr hj)
  exact (selects_cons_succ x i).mp hsucc

/-- Then the selected positions are those below their number. -/
theorem SelectedFirst.selects_iff (h : SelectedFirst f l) (r : ℕ) :
    Selects f l r ↔ r < (l.filterMap f).length := by
  induction l generalizing r with
  | nil => simp [Selects]
  | cons x l ih =>
    cases hx : f x with
    | some y =>
      rw [List.filterMap_cons_some hx, List.length_cons]
      cases r with
      | zero => simp [selects_cons_zero, hx]
      | succ r => rw [selects_cons_succ, ih h.tail, Nat.succ_lt_succ_iff]
    | none =>
      have hzero : ¬ Selects f (x :: l) 0 := by simp [selects_cons_zero, hx]
      have hnone : ∀ j, ¬ Selects f (x :: l) j := by
        intro j hj
        rcases Nat.eq_zero_or_pos j with rfl | hpos
        · exact hzero hj
        · exact hzero (h 0 j hpos hj)
      rw [List.filterMap_cons_none hx]
      refine iff_of_false (hnone r) fun hlt => ?_
      have hsel := (ih h.tail 0).mpr (by omega)
      exact hnone 1 ((selects_cons_succ x 0).mpr hsel)

end positions

variable {parser : Parser} {slicer : BitSlicer} {lines : List Bytes}

/-- Lanes and block marks of a slot show the lines that carry the promoted string. -/
structure Aligned (parser : Parser) (lines : List Bytes) (slot : ℕ) (rg : RowGroup) : Prop where
  lanes : ∀ r < RowGroup.rowCapacity,
    (rg.planeWord slot 0 (r / 64)).getLsbD (r % 64) = true ↔ Selects (warmOf parser) lines r
  blocks : ∀ b < 1024, rg.checkBlockPresence slot b = true ↔
    ∃ r, r / 64 = b ∧ Selects (warmOf parser) lines r

section chunk
variable {a : AdaptiveIngester}

/-- The filter of a chunk knows every string of its dictionary. -/
lemma promotedBit_chunk (ha : Reachable parser slicer a) {i : ℕ}
    (hi : i < (ingestChunk parser slicer a lines).1.warmDictStrings.length) :
    promotedBit (ingestChunk parser slicer a lines).1 i = true := by
  have hholds := @holds_ingestChunk parser slicer a lines ha.slotsFixed
  have hmem : (ingestChunk parser slicer a lines).1.warmDictStrings.getD i [] ∈
      (ingestChunk parser slicer a lines).1.warmDictStrings := by
    rw [List.getD_eq_getElem _ _ hi]
    exact List.getElem_mem hi
  rw [promotedBit, hholds.bloom, ← hholds.warm]
  exact BloomFilter.contains_of_mem 1024 (by norm_num) hmem

lemma promotedRows_chunk (ha : Reachable parser slicer a)
    (hlen : lines.length ≤ RowGroup.rowCapacity) :
    promotedRows (ingestChunk parser slicer a lines).1 =
      (lines.filterMap (warmOf parser)).length := by
  have hholds := @holds_ingestChunk parser slicer a lines ha.slotsFixed
  have htake : lines.take 65536 = lines := List.take_of_length_le hlen
  have hle := (List.length_filterMap_le (warmOf parser) lines).trans hlen
  rw [promotedRows, hholds.warm, take_numBlocksOf, htake]
  exact min_eq_left hle

/-- A promotion of a chunk sets a row's lane exactly at the places of the dictionary. -/
lemma promoted_lanes (ha : Reachable parser slicer a) (hlen : lines.length ≤ RowGroup.rowCapacity)
    {slot : ℕ} (hslot : slot < 32) (hs : slot ≠ fixedSlots.status)
    (hl : slot ≠ fixedSlots.latency) {rg' : RowGroup}
    (h : Promoted slot (promotedRows (ingestChunk parser slicer a lines).1)
      (ingestChunk parser slicer a lines).1 rg') {r : ℕ} (hr : r < RowGroup.rowCapacity) :
    (rg'.planeWord slot 0 (r / 64)).getLsbD (r % 64) = true ↔
      r < (lines.filterMap (warmOf parser)).length := by
  have hholds := @holds_ingestChunk parser slicer a lines ha.slotsFixed
  have hzero : (ingestChunk parser slicer a lines).1.slotValue slot r = 0 := by
    rw [hholds.slotValue hslot hr, slotColumn_other hs hl]
    simp
  have hlane := getLsbD_laneValue (fun bit => rg'.planeWord slot bit (r / 64)) (r % 64)
    (by norm_num : 0 < 64)
  have hvalue := h.slotValue (min_le_right _ _) slot hr
  have hor : ∀ w : Word, 0 ||| w = w := fun _ => BitVec.zero_or
  rw [hzero, hor] at hvalue
  rw [← hlane]
  change (rg'.slotValue slot r).getLsbD 0 = true ↔ _
  rw [hvalue, ← @promotedRows_chunk parser slicer lines a ha hlen]
  by_cases hin : r < promotedRows (ingestChunk parser slicer a lines).1
  · have hbit := @promotedBit_chunk _ slicer lines a ha r (lt_of_lt_of_le hin (min_le_left _ _))
    rw [if_pos ⟨rfl, hin⟩, getLsbD_promotedValue _ _ (by norm_num), hbit]
    exact iff_of_true rfl hin
  · rw [if_neg fun hrow => hin hrow.2]
    exact iff_of_false (by simp) hin

/-- It marks the blocks of these places. -/
lemma promoted_blocks (ha : Reachable parser slicer a) (hlen : lines.length ≤ RowGroup.rowCapacity)
    {slot : ℕ} (hslot : slot < 32) (hs : slot ≠ fixedSlots.status)
    (hl : slot ≠ fixedSlots.latency) {rg' : RowGroup}
    (h : Promoted slot (promotedRows (ingestChunk parser slicer a lines).1)
      (ingestChunk parser slicer a lines).1 rg') (b : ℕ) :
    rg'.checkBlockPresence slot b = true ↔
      ∃ r < (lines.filterMap (warmOf parser)).length, b = r / 64 := by
  have hholds := @holds_ingestChunk parser slicer a lines ha.slotsFixed
  have hold : ¬ (ingestChunk parser slicer a lines).1.checkBlockPresence slot b = true := by
    rw [hholds.presence]
    rintro ⟨hc | hc | hc, -⟩
    · exact hs hc
    · exact hl hc
    · have htrace : fixedSlots.trace = 32 := rfl
      omega
  rw [h.marks, or_iff_left hold, hholds.mapCount, promotedRows_chunk ha hlen]
  exact ⟨fun hin => hin.2.2, fun hin => ⟨rfl, by omega, hin⟩⟩

/-- The dictionary places are the rows exactly if the lines with a string come first. -/
lemma aligned_iff (hlen : lines.length ≤ RowGroup.rowCapacity) {slot : ℕ} {rg : RowGroup}
    (hlanes : ∀ r < RowGroup.rowCapacity, (rg.planeWord slot 0 (r / 64)).getLsbD (r % 64) = true ↔
      r < (lines.filterMap (warmOf parser)).length)
    (hblocks : ∀ b, rg.checkBlockPresence slot b = true ↔
      ∃ r < (lines.filterMap (warmOf parser)).length, b = r / 64) :
    Aligned parser lines slot rg ↔ SelectedFirst (warmOf parser) lines := by
  constructor
  · intro h i j hij hj
    have hjlen : j < lines.length := by
      obtain ⟨line, hline, -⟩ := hj
      exact (List.getElem?_eq_some_iff.mp hline).1
    have hjcap : j < RowGroup.rowCapacity := lt_of_lt_of_le hjlen hlen
    have hicap := hij.trans hjcap
    have hjplace := (hlanes j hjcap).mp ((h.lanes j hjcap).mpr hj)
    exact (h.lanes i hicap).mp ((hlanes i hicap).mpr (hij.trans hjplace))
  · intro h
    constructor
    · intro r hr
      rw [h.selects_iff]
      exact hlanes r hr
    · intro b _
      rw [hblocks b]
      constructor
      · rintro ⟨r, hr, rfl⟩
        exact ⟨r, rfl, (h.selects_iff r).mpr hr⟩
      · rintro ⟨r, rfl, hr⟩
        exact ⟨r, (h.selects_iff r).mp hr, rfl⟩

/-- The promotion of a chunk to a hot slot other than the two that have values. -/
lemma promote_chunk (ha : Reachable parser slicer a) (hlen : lines.length ≤ RowGroup.rowCapacity)
    {slot : Byte} (hslot : slot.toNat < 32) (hs : slot.toNat ≠ fixedSlots.status)
    (hl : slot.toNat ≠ fixedSlots.latency) (fieldName : String) :
    ∃ rg', executeCompactionPromotion (some (ingestChunk parser slicer a lines).1) fieldName slot =
        some (true, some rg') ∧
      (Aligned parser lines slot.toNat rg' ↔ SelectedFirst (warmOf parser) lines) := by
  have hshape := @sameShape_ingestChunk parser slicer a lines
  have hcolumns : slot.toNat < (ingestChunk parser slicer a lines).1.hotColumnCount := by
    rw [hshape.columns]
    exact hslot
  obtain ⟨rg', hcopy, hP⟩ :=
    promotedCopy_spec (slot_in_planes (wellSized_ingestChunk a lines) hcolumns)
  have hlanes := fun r (hr : r < RowGroup.rowCapacity) =>
    promoted_lanes ha hlen hslot hs hl hP hr
  have hblocks := promoted_blocks ha hlen hslot hs hl hP
  refine ⟨{ rg' with fingerprintHash := rg'.fingerprintHash ^^^ 0x999#64 }, ?_, ?_⟩
  · rw [executeCompactionPromotion, hcopy]
    rfl
  · exact aligned_iff hlen hlanes hblocks

def traceLine : Bytes := ascii "\x7b\"status\":200,\"trace_id\":\"abc-123\"\x7d"

/-- The parser on `traceLine` and `statusLine`. -/
def traceParser : Parser where
  iterate line :=
    { Document.ofFields line 0 (some 200) none with
      getString := fun field =>
        if line = traceLine ∧ field = "trace_id" then some (ascii "abc-123") else none }
  iterateMany _ := none

/-- After a promotion of a chunk to a free hot slot, the slot shows which lines carry the string
exactly if no line with one stands behind a line without. -/
theorem promotion_aligned_iff (ha : Reachable parser slicer a)
    (hlen : lines.length ≤ RowGroup.rowCapacity) {slot : Byte} (hslot : slot.toNat < 32)
    (hs : slot.toNat ≠ (slotsOf (ingestChunk parser slicer a lines).2).status)
    (hl : slot.toNat ≠ (slotsOf (ingestChunk parser slicer a lines).2).latency) :
    ∃ rg', executeCompactionPromotion (some (ingestChunk parser slicer a lines).1) "trace_id" slot =
        some (true, some rg') ∧
      (Aligned parser lines slot.toNat rg' ↔ SelectedFirst (warmOf parser) lines) := by
  rw [ingestChunk_slotMap, slotsOf_assignSlots ha.slotsFixed] at hs hl
  exact promote_chunk ha hlen hslot hs hl "trace_id"

theorem promotion_aligned_iff_sample :
    ∃ rg', executeCompactionPromotion
        (some (ingestChunk traceParser .reference .new [traceLine]).1) "trace_id" 5 =
        some (true, some rg') ∧
      (Aligned traceParser [traceLine] 5 rg' ↔ SelectedFirst (warmOf traceParser) [traceLine]) :=
  promotion_aligned_iff .new (by norm_num [RowGroup.rowCapacity]) (by decide)
    (show 5 ≠ 0 by norm_num) (show 5 ≠ 1 by norm_num)

/-- The string of the second line is shown for the first. -/
theorem promotion_shifts_row :
    ∃ rg', executeCompactionPromotion
        (some (ingestChunk traceParser .reference .new [statusLine, traceLine]).1) "trace_id" 5 =
        some (true, some rg') ∧
      ¬ Aligned traceParser [statusLine, traceLine] 5 rg' := by
  have hnew : Reachable traceParser .reference .new := .new
  obtain ⟨rg', hrun, haligned⟩ := @promote_chunk traceParser .reference [statusLine, traceLine]
    .new hnew (by norm_num [RowGroup.rowCapacity]) 5 (by decide) (by decide) (by decide) "trace_id"
  refine ⟨rg', hrun, fun h => ?_⟩
  have hsecond : Selects (warmOf traceParser) [statusLine, traceLine] 1 :=
    ⟨traceLine, rfl, by decide⟩
  obtain ⟨line, hline, hsome⟩ := haligned.mp h 0 1 one_pos hsecond
  obtain rfl := Option.some.inj hline
  revert hsome
  decide

end chunk

end Eureka.Ingest
