import Mathlib
import Eureka.PruningSoundness
import Eureka.Transcode

/-! One batch in its two forms. A staged row group has empty zone maps, which keep it, and an
empty Bloom filter, which prunes it. -/
namespace Eureka.Jit
open WordBytes ByteText Apex Simdjson HashFilter Storage Ingest PredicateNode

variable {parser : Parser} {slicer : BitSlicer}

/-- The leaf is not a string equality, the only comparison that asks the Bloom filter. -/
def NoString (op : OpType) (_ : String) (_ : Word) (s : Bytes) : Prop := op = .eq → s = []

lemma contains_staged (batch : List Bytes) (s : Bytes) :
    (stagedGroup batch).stringBloom.contains s = false := by
  rw [Bool.eq_false_iff]
  intro h
  obtain ⟨k, hk, -⟩ := (BloomFilter.contains_foldl_add 1024 (by norm_num) [] s).mp h _
    List.mem_cons_self
  exact absurd hk List.not_mem_nil

lemma zoneKeeps_staged (batch : List Bytes) (slot : ℕ) (prunes : ZoneMap → Bool) :
    zoneKeeps (stagedGroup batch) slot prunes = true := by
  by_cases h : slot < 64
  · have hz : (stagedGroup batch).zoneMaps[slot]? = some (.new .uint64) :=
      List.getElem?_replicate_of_lt h
    exact zoneKeeps_of_empty hz rfl prunes
  · have hz : (stagedGroup batch).zoneMaps[slot]? = none :=
      List.getElem?_eq_none (not_lt.mp h)
    rw [zoneKeeps, hz]

lemma leafKeeps_staged (batch : List Bytes) (op : OpType) (field : String) (c : Word) (s : Bytes) :
    leafKeeps (stagedGroup batch) op field c s = true ↔ NoString op field c s := by
  cases op with
  | and => simp [leafKeeps, NoString]
  | gt => simp [leafKeeps, NoString, zoneKeeps_staged]
  | eq =>
    by_cases hs : s = []
    · simp [leafKeeps, NoString, hs, zoneKeeps_staged]
    · simp [leafKeeps, NoString, hs, contains_staged]

/-- A staged row group is kept exactly by the trees without a string equality. -/
theorem evaluatePruning_staged (batch : List Bytes) (t : PredicateNode) :
    evaluatePruning (stagedGroup batch) t = true ↔ t.AllLeaves NoString := by
  rw [evaluatePruning_iff]
  constructor
  · exact fun h => h.imp fun op f c s _ hleaf => (leafKeeps_staged batch op f c s).mp hleaf
  · exact fun h => h.imp fun op f c s _ hleaf => (leafKeeps_staged batch op f c s).mpr hleaf

/-- The planner does not read the compaction flag. -/
lemma evaluatePruning_compacted (rg : RowGroup) (t : PredicateNode) :
    evaluatePruning { rg with isCompacted := true } t = true ↔ evaluatePruning rg t = true := by
  rw [evaluatePruning_iff, evaluatePruning_iff]
  rfl

/-- A tree that keeps the transcoded batch keeps the staged one as well exactly when it has no
string equality or a leaf of it is not admitted by the lines of the row group. -/
theorem pruning_staged_iff (io : WalOutcome) (opens : Bool) (a₀ : AdaptiveIngester)
    {a : AdaptiveIngester} (ha : Reachable parser slicer a) (wal₀ wal : WalFile)
    (batch : List Bytes) (t : PredicateNode) :
    (∀ rg, (transcodeBatchNow parser slicer opens a wal
        (some (appendRawBatch io a₀ wal₀ batch).1)).handle = some rg →
      evaluatePruning rg t = true →
        evaluatePruning (appendRawBatch io a₀ wal₀ batch).1 t = true) ↔
    t.AllLeaves NoString ∨ ¬ t.AllLeaves (leafAdmits parser (batch.take 65536)) := by
  have hstaged : (appendRawBatch io a₀ wal₀ batch).1 = stagedGroup batch := rfl
  rw [hstaged, transcode_staged, evaluatePruning_staged, or_iff_not_imp_right, not_not,
    ← evaluatePruning_chunk slicer ha.slotsFixed]
  constructor
  · intro h hkept
    exact h _ rfl ((evaluatePruning_compacted _ t).mpr hkept)
  · rintro h rg hrg hkept
    obtain rfl := Option.some.inj hrg
    exact h ((evaluatePruning_compacted _ t).mp hkept)

section samples

theorem pruning_staged_sample :
    (∀ rg, (transcodeBatchNow tracedParser .reference true .new none
        (some (appendRawBatch (.writes none) .new none [tracedLine]).1)).handle = some rg →
      evaluatePruning rg (.node .gt "latency" 0 [] .null .null) = true →
        evaluatePruning (appendRawBatch (.writes none) .new none [tracedLine]).1
          (.node .gt "latency" 0 [] .null .null) = true) ↔
    (PredicateNode.node .gt "latency" 0 [] .null .null).AllLeaves NoString ∨
      ¬ (PredicateNode.node .gt "latency" 0 [] .null .null).AllLeaves
        (leafAdmits tracedParser ([tracedLine].take 65536)) :=
  pruning_staged_iff (.writes none) true .new .new none none [tracedLine] _

/-- The query asks for the trace identifier of the only line: the transcoded batch is kept and
the staged one is pruned. -/
theorem staged_group_pruned :
    (∀ rg, (transcodeBatchNow tracedParser .reference true .new none
        (some (appendRawBatch (.writes none) .new none [tracedLine]).1)).handle = some rg →
      evaluatePruning rg (.node .eq "trace_id" 0 [0x61#8] .null .null) = true) ∧
    evaluatePruning (appendRawBatch (.writes none) .new none [tracedLine]).1
      (.node .eq "trace_id" 0 [0x61#8] .null .null) = false := by
  constructor
  · intro rg hrg
    obtain rfl := Option.some.inj hrg
    have hfixed : SlotsFixed .new := Or.inl ⟨rfl, rfl, rfl⟩
    have hcovered : Covered tracedParser [tracedLine] [0x61#8] :=
      fun p hp => ⟨[0x61#8], by simp [warmOf, traceOrService, tracedParser], hp⟩
    have hadmits : AllLeaves (leafAdmits tracedParser ([tracedLine].take 65536))
        (.node .eq "trace_id" 0 [0x61#8] .null .null) := by
      simpa [AllLeaves, leafAdmits] using hcovered
    exact (evaluatePruning_compacted _ _).mpr
      ((evaluatePruning_chunk .reference hfixed [tracedLine] _).mpr hadmits)
  · rw [Bool.eq_false_iff]
    intro h
    have hleaf := (evaluatePruning_staged [tracedLine] _).mp h
    simp [AllLeaves, NoString] at hleaf

end samples

end Eureka.Jit
