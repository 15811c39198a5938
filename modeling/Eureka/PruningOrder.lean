import Mathlib
import Eureka.PruningSoundness

/-! Pruning across batches and queries: more lines and fewer comparisons keep a row group, and
neither the order of the lines nor the shape of a conjunction matters. -/
namespace Eureka.Jit
open WordBytes ByteText Apex Simdjson HashFilter Storage Ingest PredicateNode

/-- A comparison with its constants. -/
abbrev Comparison := OpType × String × Word × Bytes

/-- The comparisons under the conjunctions of a tree, from left to right. -/
def PredicateNode.comparisons : PredicateNode → List Comparison
  | .null => []
  | .node op field valU64 valStr left right =>
    if op = .and then left.comparisons ++ right.comparisons else [(op, field, valU64, valStr)]

lemma PredicateNode.allLeaves_iff {P : OpType → String → Word → Bytes → Prop} (t : PredicateNode) :
    t.AllLeaves P ↔ ∀ c ∈ t.comparisons, P c.1 c.2.1 c.2.2.1 c.2.2.2 := by
  induction t with
  | null => exact iff_of_true trivial (List.forall_mem_nil _)
  | node op f c s l r ihl ihr =>
    rw [AllLeaves, comparisons]
    split_ifs with hop
    · rw [ihl, ihr, List.forall_mem_append]
    · rw [List.forall_mem_singleton]

section lines
variable {parser : Parser} {slicer slicer' : BitSlicer} {lines lines' : List Bytes}
  {a a' : AdaptiveIngester} {t t' : PredicateNode}

lemma Between.mono {c : Word} {values values' : List Word} (h : Between c values)
    (hsub : values ⊆ values') : Between c values' := by
  obtain ⟨⟨v, hv, hvc⟩, w, hw, hcw⟩ := h
  exact ⟨⟨v, hsub hv, hvc⟩, w, hsub hw, hcw⟩

/-- More lines admit what fewer lines admit. -/
lemma leafAdmits_mono (hne : lines ≠ []) (hsub : lines ⊆ lines') {op : OpType} {f : String} {c : Word}
    {s : Bytes} (h : leafAdmits parser lines op f c s) : leafAdmits parser lines' op f c s := by
  cases op with
  | and => trivial
  | gt =>
    intro _
    obtain ⟨v, hv, hlt⟩ := h hne
    exact ⟨v, List.map_subset _ hsub hv, hlt⟩
  | eq =>
    rw [leafAdmits] at h ⊢
    split_ifs at h ⊢ with hs
    · intro p hp
      obtain ⟨k, hk, hpk⟩ := h p hp
      exact ⟨k, List.filterMap_subset _ hsub hk, hpk⟩
    · exact fun _ => (h hne).mono (List.map_subset _ hsub)

/-- The lines of a chunk that reach its row group. -/
def storedLines (lines : List Bytes) : List Bytes := lines.take 65536

/-- The decision depends on the set of the stored lines and on the set of the comparisons. -/
theorem pruning_order_free (ha : Reachable parser slicer a) (ha' : Reachable parser slicer' a')
    (hlines : ∀ line, line ∈ storedLines lines ↔ line ∈ storedLines lines')
    (hcomparisons : ∀ c, c ∈ t.comparisons ↔ c ∈ t'.comparisons) :
    evaluatePruning (ingestChunk parser slicer a lines).1 t =
      evaluatePruning (ingestChunk parser slicer' a' lines').1 t' := by
  rw [Bool.eq_iff_iff, evaluatePruning_chunk slicer ha.slotsFixed,
    evaluatePruning_chunk slicer' ha'.slotsFixed, allLeaves_iff, allLeaves_iff]
  by_cases hne : storedLines lines = []
  · have hne' : storedLines lines' = [] :=
      List.eq_nil_iff_forall_not_mem.mpr fun line hline => by
        rw [← hlines line, hne] at hline
        exact List.not_mem_nil hline
    rw [storedLines] at hne hne'
    simp only [hne, hne', hcomparisons]
  · have hne' : storedLines lines' ≠ [] := by
      obtain ⟨line, hline⟩ := List.exists_mem_of_ne_nil _ hne
      exact List.ne_nil_of_mem ((hlines line).mp hline)
    constructor
    · intro h c hc
      exact leafAdmits_mono hne (fun line => (hlines line).mp) (h c ((hcomparisons c).mpr hc))
    · intro h c hc
      exact leafAdmits_mono hne' (fun line => (hlines line).mpr) (h c ((hcomparisons c).mp hc))

end lines

section samples

theorem pruning_order_free_sample :
    evaluatePruning (ingestChunk steadyParser .reference .new [fullLine, tracedLine]).1
        (.node .and "" 0 [] (.node .eq "status" 500 [] .null .null)
          (.node .gt "latency" 249 [] .null .null)) =
      evaluatePruning (ingestChunk steadyParser .reference .new [tracedLine, fullLine, tracedLine]).1
        (.node .and "" 0 [] (.node .gt "latency" 249 [] .null .null)
          (.node .and "" 0 [] .null (.node .eq "status" 500 [] .null .null))) :=
  pruning_order_free .new .new (by intro line; simp [storedLines]; tauto)
    (by intro c; simp [comparisons]; tauto)

end samples

end Eureka.Jit
