import Mathlib
import Eureka.AdaptiveIngester
import Eureka.FixedBlocks

/-! What `ingest_chunk` stores. One invariant covers the five structures that the nested
loop maintains; rows, planes and presence marks advance it separately. -/
namespace Eureka.Ingest
open WordBytes BitPlanes Apex Simdjson FixedBlocks Storage

section
variable (parser : Parser)

def statusOf (line : Bytes) : Word := (parser.iterate line).status

def latencyOf (line : Bytes) : Word := latencyOrMs (parser.iterate line)

def warmOf (line : Bytes) : Option Bytes := traceOrService (parser.iterate line)

end

/-- The slots that the loop may use: two different hot slots and any presence column. -/
structure Slots.Valid (slots : Slots) : Prop where
  status : slots.status < 32
  latency : slots.latency < 32
  trace : slots.trace < 64
  ne : slots.status ≠ slots.latency

variable {parser : Parser} {slicer : BitSlicer} {slots : Slots} {lines : List Bytes}

/-- The values of a hot slot, row by row; no values for a slot that receives none. -/
def slotColumn (parser : Parser) (slots : Slots) (lines : List Bytes) (slot : ℕ) : List Word :=
  if slot = slots.status then lines.map (statusOf parser)
  else if slot = slots.latency then lines.map (latencyOf parser)
  else []

def blockLanes (values : List Word) (block : ℕ) : Lanes :=
  Vector.ofFn fun i => laneOf values 0 block i

/-- The row group after `m` rows, with `k` blocks of planes and `p` blocks marked present. -/
structure Holds (parser : Parser) (slots : Slots) (lines : List Bytes) (m k p : ℕ)
    (rg : RowGroup) : Prop where
  zoneCount : rg.zoneMaps.length = 64
  statusZone : rg.zoneMaps[slots.status]? = some (.ofValues ((lines.take m).map (statusOf parser)))
  latencyZone :
    rg.zoneMaps[slots.latency]? = some (.ofValues ((lines.take m).map (latencyOf parser)))
  bloom : rg.stringBloom =
    ((lines.take m).filterMap (warmOf parser)).foldl BloomFilter.add (.new 8192)
  warm : rg.warmDictStrings = (lines.take m).filterMap (warmOf parser)
  mapCount : rg.nullMaps.length = 64
  presence : ∀ c b, rg.checkBlockPresence c b = true ↔
    (c = slots.status ∨ c = slots.latency ∨ c = slots.trace) ∧ b < p
  planes : ∀ s < 32, ∀ bit (hbit : bit < 64), ∀ j < 1024, rg.planeWord s bit j =
    if j < k then (transpose (blockLanes (slotColumn parser slots lines s) j))[bit] else 0
  raw : rg.rawChunkBuffer = []
  staged : rg.isCompacted = false

lemma holds_new (hs : slots.Valid) : Holds parser slots lines 0 0 0 (RowGroup.new 32 32) := by
  have hzone : ∀ c < 64, (RowGroup.new 32 32).zoneMaps[c]? = some (ZoneMap.ofValues []) := by
    intro c hc
    have hcount : (32 + 32) % 2 ^ 32 = 64 := by norm_num
    rw [RowGroup.new, hcount, List.getElem?_replicate, if_pos hc]
    rfl
  have h1 := hs.status
  have h2 := hs.latency
  constructor
  · simp [RowGroup.new]
  · simpa using hzone _ (by omega)
  · simpa using hzone _ (by omega)
  · rfl
  · rfl
  · simp [RowGroup.new]
  · intro c b
    simp [RowGroup.check_new]
  · intro s _ bit _ j _
    simp [RowGroup.planeWord, RowGroup.new]
  · rfl
  · rfl

lemma updateZones_length (zones : List ZoneMap) (v l : Word) :
    (updateZones slots zones v l).length = zones.length := by simp [updateZones]

/-- Updating the two zone maps of a row. -/
lemma updateZones_ofValues {zones : List ZoneMap} {vs ls : List Word}
    (hne : slots.status ≠ slots.latency)
    (hs : zones[slots.status]? = some (.ofValues vs))
    (hl : zones[slots.latency]? = some (.ofValues ls)) (v l : Word) :
    (updateZones slots zones v l)[slots.status]? = some (.ofValues (vs ++ [v])) ∧
    (updateZones slots zones v l)[slots.latency]? = some (.ofValues (ls ++ [l])) := by
  simp [updateZones, hs, hl, hne, Ne.symm hne, ZoneMap.ofValues_append_singleton]

lemma filterMap_concat {α β : Type*} (f : α → Option β) (xs : List α) (x : α) :
    (xs ++ [x]).filterMap f = xs.filterMap f ++ (f x).toList := by
  rw [List.filterMap_append]
  cases hx : f x <;> simp [hx]

lemma checkBlockPresence_congr {rg rg' : RowGroup} (h : rg'.nullMaps = rg.nullMaps) (c b : ℕ) :
    rg'.checkBlockPresence c b = rg.checkBlockPresence c b := by
  unfold RowGroup.checkBlockPresence
  simp only [h]

lemma planeWord_congr {rg rg' : RowGroup} (h : rg'.hotDataPlanes = rg.hotDataPlanes)
    (s bit j : ℕ) : rg'.planeWord s bit j = rg.planeWord s bit j := by
  rw [RowGroup.planeWord, h, RowGroup.planeWord]

lemma addTrace_fields (rg : RowGroup) (t : Option Bytes) :
    (addTrace rg t).zoneMaps = rg.zoneMaps ∧ (addTrace rg t).nullMaps = rg.nullMaps ∧
    (addTrace rg t).hotDataPlanes = rg.hotDataPlanes ∧
    (addTrace rg t).rawChunkBuffer = rg.rawChunkBuffer ∧
    (addTrace rg t).isCompacted = rg.isCompacted ∧
    (addTrace rg t).stringBloom = t.toList.foldl BloomFilter.add rg.stringBloom ∧
    (addTrace rg t).warmDictStrings = rg.warmDictStrings ++ t.toList := by
  cases t <;> simp [addTrace]

lemma ingestRow_some {block i : ℕ} {line : Bytes} (h : lines[64 * block + i]? = some line)
    (st : ChunkState) :
    ingestRow parser slots lines block st i =
      ⟨addTrace { st.rg with
          zoneMaps := updateZones slots st.rg.zoneMaps (statusOf parser line)
            (latencyOf parser line) } (warmOf parser line),
        st.statusBuf.setIfInBounds i (statusOf parser line),
        st.latencyBuf.setIfInBounds i (latencyOf parser line)⟩ := by
  simp only [ingestRow, h]
  rfl

/-- A group that agrees on maps, planes and staging data, with one more line in the rest. -/
lemma Holds.addLine {m k p : ℕ} {rg rg' : RowGroup} {line : Bytes}
    (h : Holds parser slots lines m k p rg) (htake : lines.take (m + 1) = lines.take m ++ [line])
    (hz : rg'.zoneMaps = updateZones slots rg.zoneMaps (statusOf parser line) (latencyOf parser line))
    (hb : rg'.stringBloom = (warmOf parser line).toList.foldl BloomFilter.add rg.stringBloom)
    (hw : rg'.warmDictStrings = rg.warmDictStrings ++ (warmOf parser line).toList)
    (hn : rg'.nullMaps = rg.nullMaps) (hp : rg'.hotDataPlanes = rg.hotDataPlanes)
    (hr : rg'.rawChunkBuffer = rg.rawChunkBuffer) (hc : rg'.isCompacted = rg.isCompacted)
    (hne : slots.status ≠ slots.latency) : Holds parser slots lines (m + 1) k p rg' := by
  obtain ⟨hzs, hzl⟩ := updateZones_ofValues hne h.statusZone h.latencyZone
    (statusOf parser line) (latencyOf parser line)
  constructor
  · rw [hz, updateZones_length, h.zoneCount]
  · rw [hz, htake, List.map_append]
    exact hzs
  · rw [hz, htake, List.map_append]
    exact hzl
  · rw [hb, h.bloom, htake, filterMap_concat, List.foldl_append]
  · rw [hw, h.warm, htake, filterMap_concat]
  · rw [hn, h.mapCount]
  · intro c b
    rw [checkBlockPresence_congr hn, h.presence]
  · intro s hs bit hbit j hj
    rw [planeWord_congr hp, h.planes s hs bit hbit j hj]
  · rw [hr, h.raw]
  · rw [hc, h.staged]

lemma Holds.noLine {m k p : ℕ} {rg : RowGroup} (h : Holds parser slots lines m k p rg)
    (htake : lines.take (m + 1) = lines.take m) : Holds parser slots lines (m + 1) k p rg where
  zoneCount := h.zoneCount
  statusZone := by rw [htake]; exact h.statusZone
  latencyZone := by rw [htake]; exact h.latencyZone
  bloom := by rw [htake]; exact h.bloom
  warm := by rw [htake]; exact h.warm
  mapCount := h.mapCount
  presence := h.presence
  planes := h.planes
  raw := h.raw
  staged := h.staged

/-- One row advances the zone maps, the Bloom filter and the dictionary by its line. -/
theorem holds_ingestRow (hs : slots.Valid) {k p block i : ℕ} {st : ChunkState}
    (h : Holds parser slots lines (64 * block + i) k p st.rg) :
    Holds parser slots lines (64 * block + (i + 1)) k p
      (ingestRow parser slots lines block st i).rg := by
  have htake := List.take_add_one (l := lines) (i := 64 * block + i)
  rw [← Nat.add_assoc]
  cases hline : lines[64 * block + i]? with
  | none =>
    rw [hline, Option.toList_none, List.append_nil] at htake
    simp only [ingestRow, hline]
    exact h.noLine htake
  | some line =>
    rw [hline, Option.toList_some] at htake
    rw [ingestRow_some hline]
    obtain ⟨hz, hn, hp, hr, hc, hb, hw⟩ := addTrace_fields { st.rg with
      zoneMaps := updateZones slots st.rg.zoneMaps (statusOf parser line)
        (latencyOf parser line) } (warmOf parser line)
    exact h.addLine htake hz hb hw hn hp hr hc hs.ne

/-- The first `n` lanes of a buffer hold the block's values, the others zero. -/
def LanesDone (values : List Word) (block n : ℕ) (buf : Lanes) : Prop :=
  ∀ j (hj : j < 64), buf[j] = if j < n then laneOf values 0 block j else 0

lemma lanesDone_zero (values : List Word) (block : ℕ) :
    LanesDone values block 0 (Vector.replicate 64 0) := by
  intro j hj
  simp

lemma LanesDone.eq_blockLanes {values : List Word} {block : ℕ} {buf : Lanes}
    (h : LanesDone values block 64 buf) : buf = blockLanes values block := by
  ext j hj : 1
  simp [h j hj, hj, blockLanes]

lemma LanesDone.set {values : List Word} {block n : ℕ} {buf : Lanes} {v : Word}
    (h : LanesDone values block n buf) (hv : laneOf values 0 block n = v) :
    LanesDone values block (n + 1) (buf.setIfInBounds n v) := by
  intro j hj
  rw [Vector.getElem_setIfInBounds, h j hj]
  by_cases hn : n = j
  · subst hn
    rw [if_pos rfl, if_pos (by omega), hv]
  · rw [if_neg hn]
    by_cases hlt : j < n
    · rw [if_pos hlt, if_pos (by omega)]
    · rw [if_neg hlt, if_neg (by omega)]

lemma LanesDone.skip {values : List Word} {block n : ℕ} {buf : Lanes}
    (h : LanesDone values block n buf) (hv : laneOf values 0 block n = 0) :
    LanesDone values block (n + 1) buf := by
  intro j hj
  rw [h j hj]
  by_cases hn : j = n
  · subst hn
    rw [if_neg (by omega), if_pos (by omega), hv]
  · by_cases hlt : j < n
    · rw [if_pos hlt, if_pos (by omega)]
    · rw [if_neg hlt, if_neg (by omega)]

lemma laneOf_map_some {f : Bytes → Word} {block i : ℕ} {line : Bytes}
    (h : lines[64 * block + i]? = some line) : laneOf (lines.map f) 0 block i = f line := by
  simp [laneOf, h]

lemma laneOf_map_none {f : Bytes → Word} {block i : ℕ}
    (h : lines[64 * block + i]? = none) : laneOf (lines.map f) 0 block i = 0 := by
  simp [laneOf, h]

/-- One row fills the next lane of both value buffers. -/
lemma lanesDone_ingestRow {block i : ℕ} {st : ChunkState}
    (hs : LanesDone (lines.map (statusOf parser)) block i st.statusBuf)
    (hl : LanesDone (lines.map (latencyOf parser)) block i st.latencyBuf) :
    LanesDone (lines.map (statusOf parser)) block (i + 1)
      (ingestRow parser slots lines block st i).statusBuf ∧
    LanesDone (lines.map (latencyOf parser)) block (i + 1)
      (ingestRow parser slots lines block st i).latencyBuf := by
  cases hline : lines[64 * block + i]? with
  | none =>
    simp only [ingestRow, hline]
    exact ⟨hs.skip (laneOf_map_none hline), hl.skip (laneOf_map_none hline)⟩
  | some line =>
    rw [ingestRow_some hline]
    exact ⟨hs.set (laneOf_map_some hline), hl.set (laneOf_map_some hline)⟩

/-- Where a plane write of both slots shows. -/
lemma wordIn_storePlane (hs : slots.Valid) (sp lp : Lanes) {block bit : ℕ} (hblock : block < 1024)
    (hbit : bit < 64) (m : Memory) {s b j : ℕ} (hb : b < 64) (hj : j < 1024) :
    (storePlane slots sp lp block m bit).wordIn (s * 64 * 8192) (b * 1024 + j) =
      if b = bit ∧ j = block ∧ s = slots.latency then lp.getD bit 0
      else if b = bit ∧ j = block ∧ s = slots.status then sp.getD bit 0
      else m.wordIn (s * 64 * 8192) (b * 1024 + j) := by
  have h1 := hs.status
  have h2 := hs.latency
  have haddr : ∀ t : ℕ, t * 64 * 8192 + 8 * (bit * 1024 + block) =
      s * 64 * 8192 + 8 * (b * 1024 + j) ↔ b = bit ∧ j = block ∧ s = t := by
    intro t
    omega
  rw [storePlane, Memory.wordIn_setWordIn _ _ (by omega) (by omega),
    Memory.wordIn_setWordIn _ _ (by omega) (by omega)]
  simp only [haddr]

/-- After the plane loop the words of the block hold both columns' planes. -/
lemma wordIn_storePlanes (hs : slots.Valid) (sp lp : Lanes) {block : ℕ} (hblock : block < 1024)
    (m : Memory) {s b j : ℕ} (hb : b < 64) (hj : j < 1024) :
    ((List.range 64).foldl (storePlane slots sp lp block) m).wordIn (s * 64 * 8192)
        (b * 1024 + j) =
      if j = block ∧ s = slots.latency then lp[b]
      else if j = block ∧ s = slots.status then sp[b]
      else m.wordIn (s * 64 * 8192) (b * 1024 + j) := by
  have hloop := foldl_range_induction (n := 64) (s := m) (f := storePlane slots sp lp block)
    (P := fun n m' => m'.wordIn (s * 64 * 8192) (b * 1024 + j) =
      if b < n ∧ j = block ∧ s = slots.latency then lp[b]
      else if b < n ∧ j = block ∧ s = slots.status then sp[b]
      else m.wordIn (s * 64 * 8192) (b * 1024 + j))
    (by simp) (by
      intro n m' hn hm'
      rw [wordIn_storePlane hs sp lp hblock hn m' hb hj, hm']
      by_cases he : b = n
      · subst he
        simp [Vector.getD, hb]
      · have hlt : b < n + 1 ↔ b < n := by omega
        simp [he, hlt])
  rw [hloop]
  simp only [hb, true_and]

lemma slotColumn_status : slotColumn parser slots lines slots.status =
    lines.map (statusOf parser) := if_pos rfl

lemma slotColumn_latency (hs : slots.Valid) : slotColumn parser slots lines slots.latency =
    lines.map (latencyOf parser) := by
  rw [slotColumn, if_neg hs.ne.symm, if_pos rfl]

lemma slotColumn_other {s : ℕ} (h1 : s ≠ slots.status) (h2 : s ≠ slots.latency) :
    slotColumn parser slots lines s = [] := by
  rw [slotColumn, if_neg h1, if_neg h2]

lemma transpose_blockLanes_nil (block : ℕ) {b : ℕ} (hb : b < 64) :
    (transpose (blockLanes [] block))[b] = 0 := by
  apply BitVec.eq_of_getLsbD_eq
  intro i hi
  rw [getLsbD_transpose _ hb hi]
  simp [blockLanes, laneOf]

lemma Holds.withPlanes {m k p : ℕ} {rg : RowGroup} (h : Holds parser slots lines m k p rg)
    (k' : ℕ) (mem : Memory)
    (hmem : ∀ s < 32, ∀ bit (hbit : bit < 64), ∀ j < 1024,
      mem.wordIn (s * 64 * 8192) (bit * 1024 + j) =
        if j < k' then (transpose (blockLanes (slotColumn parser slots lines s) j))[bit] else 0) :
    Holds parser slots lines m k' p { rg with hotDataPlanes := mem } :=
  ⟨h.zoneCount, h.statusZone, h.latencyZone, h.bloom, h.warm, h.mapCount, h.presence, hmem,
    h.raw, h.staged⟩

/-- Writing the planes of block `k` completes it. -/
lemma holds_storePlanes (hs : slots.Valid) {m k p : ℕ} {rg : RowGroup} (hk : k < 1024)
    (h : Holds parser slots lines m k p rg) :
    Holds parser slots lines m (k + 1) p { rg with
      hotDataPlanes := (List.range 64).foldl (storePlane slots
        (transpose (blockLanes (lines.map (statusOf parser)) k))
        (transpose (blockLanes (lines.map (latencyOf parser)) k)) k) rg.hotDataPlanes } := by
  apply h.withPlanes
  intro s hslot bit hbit j hj
  have hold := h.planes s hslot bit hbit j hj
  rw [RowGroup.planeWord] at hold
  rw [wordIn_storePlanes hs _ _ hk _ hbit hj, hold]
  by_cases hjk : j = k
  · subst hjk
    simp only [true_and, lt_irrefl, if_false, Nat.lt_succ_self, if_true]
    split_ifs with h1 h2
    · rw [h1, slotColumn_latency hs]
    · rw [h2, slotColumn_status]
    · rw [slotColumn_other h2 h1, transpose_blockLanes_nil j hbit]
  · have hlt : j < k + 1 ↔ j < k := by omega
    simp only [hjk, false_and, if_false, hlt]

lemma markBlock_fields (slots : Slots) (rg : RowGroup) (block : ℕ) :
    ∃ maps, markBlock slots rg block = { rg with nullMaps := maps } := by
  have hone : ∀ (rg : RowGroup) c, ∃ maps,
      rg.setBlockPresence c block = { rg with nullMaps := maps } := by
    intro rg c
    unfold RowGroup.setBlockPresence
    split_ifs
    · exact ⟨_, rfl⟩
    · exact ⟨rg.nullMaps, rfl⟩
  obtain ⟨m1, h1⟩ := hone rg slots.status
  obtain ⟨m2, h2⟩ := hone (rg.setBlockPresence slots.status block) slots.latency
  obtain ⟨m3, h3⟩ := hone
    ((rg.setBlockPresence slots.status block).setBlockPresence slots.latency block) slots.trace
  exact ⟨m3, by rw [markBlock, h3, h2, h1]⟩

lemma check_markBlock (hs : slots.Valid) {rg : RowGroup} (hn : rg.nullMaps.length = 64)
    {block : ℕ} (hblock : block < 1024) (c b : ℕ) :
    (markBlock slots rg block).checkBlockPresence c b = true ↔
      ((c = slots.status ∨ c = slots.latency ∨ c = slots.trace) ∧ b = block) ∨
        rg.checkBlockPresence c b = true := by
  have h1 := hs.status
  have h2 := hs.latency
  have h3 := hs.trace
  rw [markBlock, RowGroup.check_setBlockPresence _ (by simp; omega) hblock,
    RowGroup.check_setBlockPresence _ (by simp; omega) hblock,
    RowGroup.check_setBlockPresence _ (by omega) hblock]
  tauto

/-- Marking block `p` present in the three columns. -/
lemma holds_markBlock (hs : slots.Valid) {m k p : ℕ} {rg : RowGroup} (hp : p < 1024)
    (h : Holds parser slots lines m k p rg) :
    Holds parser slots lines m k (p + 1) (markBlock slots rg p) := by
  have hlen : (markBlock slots rg p).nullMaps.length = 64 := by simp [markBlock, h.mapCount]
  have hcheck := check_markBlock hs h.mapCount hp
  obtain ⟨maps, hm⟩ := markBlock_fields slots rg p
  rw [hm] at hlen hcheck ⊢
  exact ⟨h.zoneCount, h.statusZone, h.latencyZone, h.bloom, h.warm, hlen, fun c b => by
    rw [hcheck, h.presence, Nat.lt_succ_iff_lt_or_eq]
    tauto, h.planes, h.raw, h.staged⟩

/-- One block of the outer loop. -/
theorem holds_ingestBlock (slicer : BitSlicer) (hs : slots.Valid) {k : ℕ} {rg : RowGroup}
    (hk : k < 1024) (h : Holds parser slots lines (64 * k) k k rg) :
    Holds parser slots lines (64 * (k + 1)) (k + 1) (k + 1)
      (ingestBlock parser slicer slots lines rg k) := by
  obtain ⟨hrows, hstatus, hlatency⟩ := foldl_range_induction (n := 64)
    (s := (⟨markBlock slots rg k, Vector.replicate 64 0, Vector.replicate 64 0⟩ : ChunkState))
    (f := ingestRow parser slots lines k)
    (P := fun i st => Holds parser slots lines (64 * k + i) k (k + 1) st.rg ∧
      LanesDone (lines.map (statusOf parser)) k i st.statusBuf ∧
      LanesDone (lines.map (latencyOf parser)) k i st.latencyBuf)
    ⟨holds_markBlock hs hk h, lanesDone_zero _ _, lanesDone_zero _ _⟩
    (fun i st _ hst => ⟨holds_ingestRow hs hst.1, lanesDone_ingestRow hst.2.1 hst.2.2⟩)
  have hplanes := holds_storePlanes hs hk hrows
  rw [← hstatus.eq_blockLanes, ← hlatency.eq_blockLanes, ← slicer.sliceN_eq,
    ← slicer.sliceN_eq] at hplanes
  rw [Nat.mul_succ]
  exact hplanes

end Eureka.Ingest
