import Mathlib
import Eureka.IngestChunk
import Eureka.QueryPlanner

/-! Pruning against an ingested row group, in terms of the lines: which row groups the
planner keeps, and when that covers every row that satisfies the query. -/
namespace Eureka.Jit
open WordBytes ByteText Apex Simdjson HashFilter Storage Ingest PredicateNode

variable {parser : Parser} {slicer : BitSlicer} {lines : List Bytes} {a : AdaptiveIngester}

lemma bloomWords_pos : 0 < 1024 := by norm_num

/-- Both Bloom positions of a string are positions of strings of the lines. -/
def Covered (parser : Parser) (lines : List Bytes) (s : Bytes) : Prop :=
  ∀ p ∈ positions 1024 bloomWords_pos s,
    ∃ k ∈ lines.filterMap (warmOf parser), p ∈ positions 1024 bloomWords_pos k

instance (parser : Parser) (lines : List Bytes) (s : Bytes) :
    Decidable (Covered parser lines s) := inferInstanceAs (Decidable (∀ p ∈ _, _))

/-- What keeps a row group of lines from being pruned at one leaf. -/
def leafAdmits (parser : Parser) (lines : List Bytes) (op : OpType) (field : String) (c : Word)
    (s : Bytes) : Prop :=
  match op with
  | .and => True
  | .gt => lines ≠ [] → ∃ v ∈ lines.map (if field = "latency" then latencyOf parser
      else statusOf parser), c < v
  | .eq => if s ≠ [] then Covered parser lines s
      else lines ≠ [] → Between c (lines.map (statusOf parser))

lemma leafKeeps_iff {m k p : ℕ} {rg : RowGroup} (h : Holds parser fixedSlots lines m k p rg)
    (op : OpType) (field : String) (c : Word) (s : Bytes) :
    leafKeeps rg op field c s = true ↔ leafAdmits parser (lines.take m) op field c s := by
  have hs : rg.zoneMaps[0]? = some (.ofValues ((lines.take m).map (statusOf parser))) :=
    h.statusZone
  have hl : rg.zoneMaps[1]? = some (.ofValues ((lines.take m).map (latencyOf parser))) :=
    h.latencyZone
  cases op with
  | and => simp [leafKeeps, leafAdmits]
  | gt =>
    simp only [leafKeeps, leafAdmits, gtSlot]
    by_cases hf : field = "latency"
    · simp only [if_pos hf]
      rw [zoneKeeps_gt hl, Ne, List.map_eq_nil_iff]
    · simp only [if_neg hf]
      rw [zoneKeeps_gt hs, Ne, List.map_eq_nil_iff]
  | eq =>
    have hslot : eqSlot field = 0 := by simp [eqSlot]
    simp only [leafKeeps, leafAdmits, hslot]
    split_ifs with hne
    · rw [h.bloom]
      exact BloomFilter.contains_foldl_add 1024 bloomWords_pos _ s
    · rw [zoneKeeps_eq hs, Ne, List.map_eq_nil_iff]

/-- The planner's answer for an ingested chunk of any length. -/
theorem evaluatePruning_chunk (slicer : BitSlicer) (ha : SlotsFixed a) (lines : List Bytes)
    (t : PredicateNode) :
    evaluatePruning (ingestChunk parser slicer a lines).1 t = true ↔
      t.AllLeaves (leafAdmits parser (lines.take 65536)) := by
  have h : Holds parser fixedSlots lines _ _ _ (ingestChunk parser slicer a lines).1 :=
    holds_ingestChunk a lines ha
  rw [evaluatePruning_iff, ← take_numBlocksOf]
  constructor
  · intro hk
    exact hk.imp fun op f c s _ hleaf => (leafKeeps_iff h op f c s).mp hleaf
  · intro hk
    exact hk.imp fun op f c s _ hleaf => (leafKeeps_iff h op f c s).mpr hleaf

lemma evaluatePruning_ingestChunk (slicer : BitSlicer) (ha : SlotsFixed a)
    (hlen : lines.length ≤ 65536) (t : PredicateNode) :
    evaluatePruning (ingestChunk parser slicer a lines).1 t = true ↔
      t.AllLeaves (leafAdmits parser lines) := by
  rw [evaluatePruning_chunk slicer ha, List.take_of_length_le hlen]

/-- The numbers of a stored row: `latency` and, for any other name, `status`. -/
def storedRow (rg : RowGroup) (slots : Slots) (r : ℕ) (field : String) : Word :=
  if field = "latency" then rg.slotValue slots.latency r else rg.slotValue slots.status r

lemma storedRow_ingestChunk (slicer : BitSlicer) (ha : SlotsFixed a) (hlen : lines.length ≤ 65536)
    {r : ℕ} (hr : r < lines.length) (field : String) :
    storedRow (ingestChunk parser slicer a lines).1 fixedSlots r field =
      if field = "latency" then latencyOf parser lines[r] else statusOf parser lines[r] := by
  have hstored : StoredExactly parser fixedSlots lines (ingestChunk parser slicer a lines).1 :=
    (holds_ingestChunk a lines ha).storedExactly fixedSlots_valid
  obtain ⟨hs, hl⟩ := hstored.rows r (by omega)
  rw [storedRow, hs, hl]

/-- The constant of an equality on `latency` lies in the range of the stored statuses. -/
def latencyConstInStatusRange (parser : Parser) (lines : List Bytes) (op : OpType) (field : String)
    (c : Word) (_ : Bytes) : Prop :=
  op = .eq → field = "latency" → Between c (lines.map (statusOf parser))

lemma statusOf_between {line : Bytes} (hmem : line ∈ lines) :
    Between (statusOf parser line) (lines.map (statusOf parser)) :=
  ⟨⟨_, List.mem_map_of_mem hmem, BitVec.le_refl _⟩, _, List.mem_map_of_mem hmem, BitVec.le_refl _⟩

/-- On a satisfied numeric leaf only an equality on `latency` can prune. -/
lemma leafAdmits_of_stored {r : ℕ} (hr : r < lines.length) {num : String → Word}
    (hnum : ∀ f, num f = if f = "latency" then latencyOf parser lines[r]
      else statusOf parser lines[r])
    {op : OpType} {f : String} {c : Word} {s : Bytes}
    (hop : op ≠ .and) (hf : (f = "status" ∨ f = "latency") ∧ s = [])
    (hsat : leafHolds num (fun _ => none) op f c s) :
    leafAdmits parser lines op f c s ↔ latencyConstInStatusRange parser lines op f c s := by
  obtain ⟨hfield, rfl⟩ := hf
  have hmem : lines[r] ∈ lines := List.getElem_mem hr
  cases op with
  | and => exact absurd rfl hop
  | gt =>
    simp only [leafHolds, hnum] at hsat
    refine iff_of_true (fun _ => ?_) (fun h => absurd h (by simp))
    split_ifs at hsat ⊢
    · exact ⟨_, List.mem_map_of_mem hmem, hsat⟩
    · exact ⟨_, List.mem_map_of_mem hmem, hsat⟩
  | eq =>
    simp only [leafHolds, leafAdmits, latencyConstInStatusRange, ne_eq, not_true_eq_false, if_false,
      hnum] at hsat ⊢
    rcases hfield with rfl | rfl
    · -- the row's own status is the constant
      rw [if_neg (by simp)] at hsat
      exact iff_of_true (fun _ => hsat ▸ statusOf_between hmem) (fun _ h => absurd h (by simp))
    · exact ⟨fun h _ _ => h (List.ne_nil_of_mem hmem), fun h _ => h trivial rfl⟩

/-- Zone-map pruning on a chunk with a satisfying row: kept exactly when the constants of the
equalities on `latency` lie in the range of the stored statuses. -/
theorem zonePruning_sound_iff (ha : Reachable parser slicer a) (hlen : lines.length ≤ 65536)
    {t : PredicateNode} (ht : t.Numeric) {r : ℕ} (hr : r < lines.length)
    (hrow : t.Satisfied (storedRow (ingestChunk parser slicer a lines).1
      (slotsOf (ingestChunk parser slicer a lines).2) r) fun _ => none) :
    evaluatePruning (ingestChunk parser slicer a lines).1 t = true ↔
      t.AllLeaves (latencyConstInStatusRange parser lines) := by
  rw [ingestChunk_slotMap, slotsOf_assignSlots ha.slotsFixed] at hrow
  rw [evaluatePruning_ingestChunk slicer ha.slotsFixed hlen]
  exact (ht.and hrow).congr fun op f c s hop hleaf =>
    leafAdmits_of_stored hr (storedRow_ingestChunk slicer ha.slotsFixed hlen hr) hop hleaf.1 hleaf.2

/-- The values that a line gives to the fields a query may name. -/
def lineNumber (parser : Parser) (line : Bytes) (field : String) : Word :=
  if field = "latency" then latencyOf parser line
  else ((parser.iterate line).getUint64 field).getD 0

def lineString (parser : Parser) (line : Bytes) (field : String) : Option Bytes :=
  (parser.iterate line).getString field

/-- The leaf asks for something that the row group indexes under the name the planner reads. -/
structure Indexed (parser : Parser) (lines : List Bytes) (op : OpType) (field : String)
    (c : Word) (s : Bytes) : Prop where
  string : op = .eq → s ≠ [] → Covered parser lines s
  equal : op = .eq → s = [] → field ≠ "status" → Between c (lines.map (statusOf parser))
  greater : op = .gt → field ≠ "status" → field ≠ "latency" →
    ∃ v ∈ lines.map (statusOf parser), c < v

lemma leafAdmits_gt_of_line {line : Bytes} (hmem : line ∈ lines) {f : String} {c : Word} {s : Bytes}
    (hsat : c < lineNumber parser line f) :
    leafAdmits parser lines .gt f c s ↔ Indexed parser lines .gt f c s := by
  constructor
  · intro h
    refine ⟨fun h' => absurd h' (by simp), fun h' => absurd h' (by simp), fun _ _ hl => ?_⟩
    simpa [leafAdmits, hl, List.ne_nil_of_mem hmem] using h
  · intro h _
    by_cases hl : f = "latency"
    · rw [if_pos hl]
      rw [lineNumber, if_pos hl] at hsat
      exact ⟨_, List.mem_map_of_mem hmem, hsat⟩
    · rw [if_neg hl]
      by_cases hst : f = "status"
      · subst hst
        exact ⟨_, List.mem_map_of_mem hmem, hsat⟩
      · exact h.greater rfl hst hl

lemma leafAdmits_number_of_line {line : Bytes} (hmem : line ∈ lines) {f : String} {c : Word}
    (hsat : lineNumber parser line f = c) :
    leafAdmits parser lines .eq f c [] ↔ Indexed parser lines .eq f c [] := by
  constructor
  · intro h
    refine ⟨fun _ h' => absurd rfl h', fun _ _ _ => ?_, fun h' => absurd h' (by simp)⟩
    simpa [leafAdmits, List.ne_nil_of_mem hmem] using h
  · intro h
    simp only [leafAdmits, ne_eq, not_true_eq_false, if_false]
    intro _
    by_cases hst : f = "status"
    · subst hst
      exact hsat ▸ statusOf_between hmem
    · exact h.equal rfl rfl hst

lemma leafAdmits_string {f : String} {c : Word} {s : Bytes} (hs : s ≠ []) :
    leafAdmits parser lines .eq f c s ↔ Indexed parser lines .eq f c s := by
  constructor
  · intro h
    refine ⟨fun _ _ => ?_, fun _ h' => absurd h' hs, fun h' => absurd h' (by simp)⟩
    simpa [leafAdmits, hs] using h
  · intro h
    simpa [leafAdmits, hs] using h.string rfl hs

lemma leafAdmits_of_line {line : Bytes} (hmem : line ∈ lines) {op : OpType} {f : String} {c : Word}
    {s : Bytes} (hop : op ≠ .and)
    (hsat : leafHolds (lineNumber parser line) (lineString parser line) op f c s) :
    leafAdmits parser lines op f c s ↔ Indexed parser lines op f c s := by
  cases op with
  | and => exact absurd rfl hop
  | gt => exact leafAdmits_gt_of_line hmem hsat
  | eq =>
    by_cases hs : s = []
    · subst hs
      exact leafAdmits_number_of_line hmem (by simpa [leafHolds] using hsat)
    · exact leafAdmits_string hs

/-- Pruning of a chunk with a line that satisfies every leaf: kept exactly when each leaf is
indexed. A string is when the trace identifiers, or the services of lines without one, cover
its Bloom positions. -/
theorem stringPruning_sound_iff (ha : Reachable parser slicer a) (hlen : lines.length ≤ 65536)
    {line : Bytes} (hmem : line ∈ lines) {t : PredicateNode}
    (hline : t.Satisfied (lineNumber parser line) (lineString parser line)) :
    evaluatePruning (ingestChunk parser slicer a lines).1 t = true ↔
      t.AllLeaves (Indexed parser lines) := by
  rw [evaluatePruning_ingestChunk slicer ha.slotsFixed hlen]
  exact AllLeaves.congr hline fun op f c s hop hsat => leafAdmits_of_line hmem hop hsat

section samples

/-- Every line reads as status 500 and latency 250. -/
def steadyParser : Parser := .ofStream [some fullDocument]

lemma storedRow_steady (field : String) :
    storedRow (ingestChunk steadyParser .reference .new [fullLine]).1
      (slotsOf (ingestChunk steadyParser .reference .new [fullLine]).2) 0 field =
      if field = "latency" then 250 else 500 := by
  have hfixed : SlotsFixed .new := Or.inl ⟨rfl, rfl, rfl⟩
  rw [ingestChunk_slotMap, slotsOf_assignSlots hfixed]
  exact storedRow_ingestChunk .reference hfixed (by simp) (by simp) field

theorem zonePruning_sound_iff_sample :
    evaluatePruning (ingestChunk steadyParser .reference .new [fullLine]).1
        (.node .and "" 0 [] (.node .gt "latency" 249 [] .null .null) .null) = true ↔
      AllLeaves (latencyConstInStatusRange steadyParser [fullLine])
        (.node .and "" 0 [] (.node .gt "latency" 249 [] .null .null) .null) :=
  zonePruning_sound_iff .new (by simp) (by simp [Numeric, AllLeaves]) (r := 0) (by simp)
    (by simp [Satisfied, AllLeaves, leafHolds, storedRow_steady])

/-- The row has latency 250 and the query asks for latency 250, yet the chunk is pruned: its
only status is 500. -/
theorem zonePruning_drops_row :
    Numeric (.node .eq "latency" 250 [] .null .null) ∧
    Satisfied (storedRow (ingestChunk steadyParser .reference .new [fullLine]).1
      (slotsOf (ingestChunk steadyParser .reference .new [fullLine]).2) 0) (fun _ => none)
      (.node .eq "latency" 250 [] .null .null) ∧
    evaluatePruning (ingestChunk steadyParser .reference .new [fullLine]).1
      (.node .eq "latency" 250 [] .null .null) = false := by
  refine ⟨by simp [Numeric, AllLeaves], ?_, ?_⟩
  · simp [Satisfied, AllLeaves, leafHolds, storedRow_steady]
  · have hfixed : SlotsFixed .new := Or.inl ⟨rfl, rfl, rfl⟩
    rw [Bool.eq_false_iff, Ne, evaluatePruning_ingestChunk .reference hfixed (by simp)]
    intro h
    obtain ⟨⟨v, hv, hle⟩, -⟩ : Between 250 ([fullLine].map (statusOf steadyParser)) := by
      simpa [AllLeaves, leafAdmits] using h
    obtain rfl : v = statusOf steadyParser fullLine := by simpa using hv
    exact absurd hle (by decide)

def tracedLine : Bytes := ascii "\x7b\"trace_id\": \"a\", \"service\": \"api\"\x7d"

/-- Every line carries the trace identifier `a` and the service `api`. -/
def tracedParser : Parser where
  iterate _ := ⟨fun _ => none, fun f => if f = "trace_id" then some [0x61#8]
    else if f = "service" then some [0x61#8, 0x70#8, 0x69#8] else none, none⟩
  iterateMany _ := none

theorem stringPruning_sound_iff_sample :
    evaluatePruning (ingestChunk tracedParser .reference .new [tracedLine]).1
        (.node .eq "trace_id" 0 [0x61#8] .null .null) = true ↔
      AllLeaves (Indexed tracedParser [tracedLine]) (.node .eq "trace_id" 0 [0x61#8] .null .null) :=
  stringPruning_sound_iff .new (by simp) (List.mem_singleton.mpr rfl)
    (by simp [Satisfied, AllLeaves, leafHolds, lineString, tracedParser])

lemma not_covered_service : ¬ Covered tracedParser [tracedLine] [0x61#8, 0x70#8, 0x69#8] := by
  decide +kernel

/-- The line has service `api` and the query asks for it, yet the chunk is pruned: only the
trace identifier went into the filter. -/
theorem stringPruning_drops_service :
    Satisfied (lineNumber tracedParser tracedLine) (lineString tracedParser tracedLine)
      (.node .eq "service" 0 [0x61#8, 0x70#8, 0x69#8] .null .null) ∧
    evaluatePruning (ingestChunk tracedParser .reference .new [tracedLine]).1
      (.node .eq "service" 0 [0x61#8, 0x70#8, 0x69#8] .null .null) = false := by
  refine ⟨by simp [Satisfied, AllLeaves, leafHolds, lineString, tracedParser], ?_⟩
  have hfixed : SlotsFixed .new := Or.inl ⟨rfl, rfl, rfl⟩
  rw [Bool.eq_false_iff, Ne, evaluatePruning_ingestChunk .reference hfixed (by simp)]
  intro h
  exact not_covered_service (by simpa [AllLeaves, leafAdmits] using h)

end samples

end Eureka.Jit
