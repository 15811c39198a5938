import Mathlib
import Eureka.Exporter

/-! The export loop writes the bit-sliced image of its records. The invariant ties the
reused buffers to the records of the open block and the outputs to the closed blocks. -/
namespace Eureka.ExporterEncoding
open WordBytes BitPlanes Apex Simdjson FixedBlocks Exporter

structure AgbRecord where
  status : Word
  latency : Word
  offset : Word
  deriving DecidableEq, Repr

def recordOf (doc : Document) : AgbRecord := ⟨doc.status, doc.latency, docOffset doc⟩

/-- The records of the documents that the stream accepts. -/
def acceptedRecords (docs : List (Option Document)) : List AgbRecord :=
  docs.filterMap (Option.map recordOf)

/-- Lanes of block `b` of one column, zero past the last record. -/
def column (f : AgbRecord → Word) (recs : List AgbRecord) (b : ℕ) : Lanes :=
  Vector.ofFn fun i => laneOf (recs.map f) 0 b i

def agbBlock (recs : List AgbRecord) (b : ℕ) : List Word :=
  (transpose (column AgbRecord.status recs b)).toList ++ (transpose (column AgbRecord.latency recs b)).toList

def idxBlock (recs : List AgbRecord) (b : ℕ) : List Word := (column AgbRecord.offset recs b).toList

/-- The first `n` blocks of both outputs. -/
def agbWords (recs : List AgbRecord) (n : ℕ) : List Word := (List.range n).flatMap (agbBlock recs)

def idxWords (recs : List AgbRecord) (n : ℕ) : List Word := (List.range n).flatMap (idxBlock recs)

@[simp] lemma agbBlock_length (recs : List AgbRecord) (b : ℕ) : (agbBlock recs b).length = 128 := by
  simp [agbBlock]

@[simp] lemma idxBlock_length (recs : List AgbRecord) (b : ℕ) : (idxBlock recs b).length = 64 := by
  simp [idxBlock]

/-- The first `k` lanes of a buffer hold the first `k` lanes of block `b`. -/
def Filled (f : AgbRecord → Word) (recs : List AgbRecord) (b k : ℕ) (buf : Lanes) : Prop :=
  ∀ i (hi : i < 64), i < k → buf[i] = laneOf (recs.map f) 0 b i

lemma Filled.eq_column {f : AgbRecord → Word} {recs : List AgbRecord} {b : ℕ} {buf : Lanes}
    (h : Filled f recs b 64 buf) : buf = column f recs b := by
  ext i hi : 1
  rw [h i hi hi]
  simp [column]

/-- Storing a new record in the next free lane. -/
lemma Filled.set {f : AgbRecord → Word} {recs : List AgbRecord} {buf : Lanes} {c : Fin 64}
    (hc : c.val = recs.length % 64)
    (h : Filled f recs (recs.length / 64) (recs.length % 64) buf) (r : AgbRecord) :
    Filled f (recs ++ [r]) (recs.length / 64) (recs.length % 64 + 1) (buf.set c (f r)) := by
  intro i hi hk
  have hdm := Nat.div_add_mod recs.length 64
  rw [List.map_append]
  by_cases he : i = c.val
  · subst he
    have hidx : 64 * (recs.length / 64) + c.val = (recs.map f).length := by
      rw [List.length_map]; omega
    simp only [Vector.getElem_set_self, laneOf]
    rw [hidx, List.getD_append_right _ _ _ _ le_rfl, Nat.sub_self]
    simp
  · rw [Vector.getElem_set_ne _ _ (Ne.symm he), h i hi (by omega),
      laneOf_append _ _ _ (by rw [List.length_map]; omega)]

/-- Padding the free lanes completes the block of a list that ends inside it. -/
lemma Filled.zeroFrom {f : AgbRecord → Word} {recs : List AgbRecord} {buf : Lanes}
    (h : Filled f recs (recs.length / 64) (recs.length % 64) buf) :
    Filled f recs (recs.length / 64) 64 (BitPlanes.zeroFrom buf (recs.length % 64)) := by
  intro i hi _
  simp only [BitPlanes.zeroFrom, Vector.getElem_ofFn, Fin.getElem_fin]
  split_ifs with hk
  · exact h i hi hk
  · rw [laneOf_eq_default (by rw [List.length_map]; have := Nat.div_add_mod recs.length 64; omega)]

lemma column_append (f : AgbRecord → Word) (recs : List AgbRecord) (r : AgbRecord) {b : ℕ}
    (hb : b < recs.length / 64) : column f (recs ++ [r]) b = column f recs b := by
  ext i hi : 1
  simp only [column, Vector.getElem_ofFn, List.map_append]
  exact laneOf_append _ _ _ (by rw [List.length_map]; omega)

lemma agbBlock_append (recs : List AgbRecord) (r : AgbRecord) {b : ℕ}
    (hb : b < recs.length / 64) : agbBlock (recs ++ [r]) b = agbBlock recs b := by
  rw [agbBlock, column_append _ _ _ hb, column_append _ _ _ hb, ← agbBlock]

lemma idxBlock_append (recs : List AgbRecord) (r : AgbRecord) {b : ℕ}
    (hb : b < recs.length / 64) : idxBlock (recs ++ [r]) b = idxBlock recs b := by
  rw [idxBlock, column_append _ _ _ hb, ← idxBlock]

/-- The state of the loop after the records `recs`, with outputs that accept everything. -/
structure Encodes (recs : List AgbRecord) (st : ExportState) : Prop where
  count : st.currentCount.val = recs.length % 64
  status : Filled AgbRecord.status recs (recs.length / 64) (recs.length % 64) st.statusBuf
  latency : Filled AgbRecord.latency recs (recs.length / 64) (recs.length % 64) st.latencyBuf
  offset : Filled AgbRecord.offset recs (recs.length / 64) (recs.length % 64) st.offsetBuf
  outFile : st.outFile = ⟨encodeWords (agbWords recs (recs.length / 64)), none, true⟩
  outIdx : st.outIdx = ⟨encodeWords (idxWords recs (recs.length / 64)), none, true⟩

lemma encodes_init : Encodes [] (ExportState.init none none) where
  count := by simp [ExportState.init]
  status := fun _ _ h => absurd h (by simp)
  latency := fun _ _ h => absurd h (by simp)
  offset := fun _ _ h => absurd h (by simp)
  outFile := by simp [ExportState.init, OutStream.open, agbWords]
  outIdx := by simp [ExportState.init, OutStream.open, idxWords]

lemma write_unlimited (w bs : Bytes) :
    (OutStream.mk w none true).write bs = ⟨w ++ bs, none, true⟩ := rfl

/-- A block write with all lanes filled appends the next block to both outputs. -/
lemma writeBlock_outputs (slicer : BitSlicer) (st : ExportState) {recs : List AgbRecord} {b : ℕ}
    (hs : Filled AgbRecord.status recs b 64 st.statusBuf)
    (hl : Filled AgbRecord.latency recs b 64 st.latencyBuf)
    (ho : Filled AgbRecord.offset recs b 64 st.offsetBuf)
    (hf : st.outFile = ⟨encodeWords (agbWords recs b), none, true⟩)
    (hi : st.outIdx = ⟨encodeWords (idxWords recs b), none, true⟩) :
    (writeBlock slicer st).outFile = ⟨encodeWords (agbWords recs (b + 1)), none, true⟩ ∧
    (writeBlock slicer st).outIdx = ⟨encodeWords (idxWords recs (b + 1)), none, true⟩ := by
  simp only [writeBlock, hf, hi, write_unlimited, lanesBytes, slicer.sliceN_eq, hs.eq_column,
    hl.eq_column, ho.eq_column, agbWords, idxWords, flatMap_range_succ, encodeWords_append,
    agbBlock, idxBlock, List.append_assoc, and_self]

lemma agbWords_append (recs : List AgbRecord) (r : AgbRecord) :
    agbWords (recs ++ [r]) (recs.length / 64) = agbWords recs (recs.length / 64) :=
  flatMap_range_congr fun _ hb => agbBlock_append recs r hb

lemma idxWords_append (recs : List AgbRecord) (r : AgbRecord) :
    idxWords (recs ++ [r]) (recs.length / 64) = idxWords recs (recs.length / 64) :=
  flatMap_range_congr fun _ hb => idxBlock_append recs r hb

/-- One accepted document keeps the invariant, also when it closes a block. -/
theorem encodes_exportDoc (slicer : BitSlicer) {recs : List AgbRecord} {st : ExportState}
    (h : Encodes recs st) (doc : Document) :
    Encodes (recs ++ [recordOf doc]) (exportDoc slicer st doc) := by
  have hs : Filled AgbRecord.status (recs ++ [recordOf doc]) (recs.length / 64)
      (recs.length % 64 + 1) (st.statusBuf.set st.currentCount doc.status) :=
    h.status.set h.count (recordOf doc)
  have hl : Filled AgbRecord.latency (recs ++ [recordOf doc]) (recs.length / 64)
      (recs.length % 64 + 1) (st.latencyBuf.set st.currentCount doc.latency) :=
    h.latency.set h.count (recordOf doc)
  have ho : Filled AgbRecord.offset (recs ++ [recordOf doc]) (recs.length / 64)
      (recs.length % 64 + 1) (st.offsetBuf.set st.currentCount (docOffset doc)) :=
    h.offset.set h.count (recordOf doc)
  have hlen : (recs ++ [recordOf doc]).length = recs.length + 1 := by simp
  have hcount := h.count
  unfold exportDoc
  dsimp only
  split_ifs with hc
  · have hd : (recs.length + 1) / 64 = recs.length / 64 := by omega
    have hm : (recs.length + 1) % 64 = recs.length % 64 + 1 := by omega
    constructor
    · simp only [hlen, hm, hcount]
    · simpa only [hlen, hd, hm] using hs
    · simpa only [hlen, hd, hm] using hl
    · simpa only [hlen, hd, hm] using ho
    · simpa only [hlen, hd, agbWords_append] using h.outFile
    · simpa only [hlen, hd, idxWords_append] using h.outIdx
  · -- the 64th lane: the block is written and the next one starts empty
    have hfull : recs.length % 64 + 1 = 64 := by have := st.currentCount.isLt; omega
    have hd : (recs.length + 1) / 64 = recs.length / 64 + 1 := by omega
    have hm : (recs.length + 1) % 64 = 0 := by omega
    rw [hfull] at hs hl ho
    obtain ⟨hf, hi⟩ := writeBlock_outputs slicer { st with
        statusBuf := st.statusBuf.set st.currentCount doc.status
        latencyBuf := st.latencyBuf.set st.currentCount doc.latency
        offsetBuf := st.offsetBuf.set st.currentCount (docOffset doc)
        recordCount := st.recordCount + 1 } hs hl ho
      (by rw [agbWords_append]; exact h.outFile) (by rw [idxWords_append]; exact h.outIdx)
    constructor
    · simp only [hlen, hm]; rfl
    · simp only [hlen, hm]; exact fun _ _ hk => absurd hk (Nat.not_lt_zero _)
    · simp only [hlen, hm]; exact fun _ _ hk => absurd hk (Nat.not_lt_zero _)
    · simp only [hlen, hm]; exact fun _ _ hk => absurd hk (Nat.not_lt_zero _)
    · simpa only [hlen, hd] using hf
    · simpa only [hlen, hd] using hi

/-- The whole stream, with entries in error skipped. -/
theorem encodes_foldl (slicer : BitSlicer) (docs : List (Option Document)) {recs : List AgbRecord}
    {st : ExportState} (h : Encodes recs st) :
    Encodes (recs ++ acceptedRecords docs) (docs.foldl (exportEntry slicer) st) := by
  induction docs generalizing recs st with
  | nil => simpa [acceptedRecords] using h
  | cons entry docs ih =>
    cases entry with
    | none => simpa [acceptedRecords, exportEntry] using ih h
    | some doc =>
      simpa [acceptedRecords, exportEntry] using ih (encodes_exportDoc slicer h doc)

/-- The final partial block leaves the complete images in both outputs. -/
theorem finishBlock_files (slicer : BitSlicer) {recs : List AgbRecord} {st : ExportState}
    (h : Encodes recs st) :
    (finishBlock slicer st).files =
      ⟨some (encodeWords (agbWords recs (blockCount recs.length))),
        some (encodeWords (idxWords recs (blockCount recs.length)))⟩ := by
  unfold finishBlock
  have hc := h.count
  split_ifs with hp
  · have hb : blockCount recs.length = recs.length / 64 + 1 := by unfold blockCount; omega
    obtain ⟨hf, hi⟩ := writeBlock_outputs slicer { st with
        statusBuf := zeroFrom st.statusBuf st.currentCount
        latencyBuf := zeroFrom st.latencyBuf st.currentCount
        offsetBuf := zeroFrom st.offsetBuf st.currentCount }
      (by simpa only [hc] using h.status.zeroFrom) (by simpa only [hc] using h.latency.zeroFrom)
      (by simpa only [hc] using h.offset.zeroFrom) h.outFile h.outIdx
    rw [ExportState.files, hf, hi, hb]
  · have hb : blockCount recs.length = recs.length / 64 := by unfold blockCount; omega
    rw [ExportState.files, h.outFile, h.outIdx, hb]

/-- A successful conversion with outputs that accept everything writes exactly the images
of the accepted records. -/
theorem convert_files {parser : Parser} {slicer : BitSlicer} {env : ExportEnv}
    {files files' : AgbFiles} {docs : List (Option Document)}
    (hagb : env.agbRoom = none) (hidx : env.idxRoom = none)
    (hdocs : env.map.bind parser.iterateMany = some docs)
    (hok : convertJsonToAgb parser slicer env files = (true, files')) :
    files' =
      ⟨some (encodeWords (agbWords (acceptedRecords docs) (blockCount (acceptedRecords docs).length))),
        some (encodeWords (idxWords (acceptedRecords docs) (blockCount (acceptedRecords docs).length)))⟩ := by
  unfold convertJsonToAgb at hok
  cases hm : env.map with
  | none => simp [hm] at hok
  | some json =>
    simp only [hm, Option.bind_some] at hok hdocs
    split_ifs at hok with ha hi
    · simp only [hdocs] at hok
      cases ht : env.throwsAfter with
      | some k => simp [ht] at hok
      | none =>
        simp only [ht, hagb, hidx, Prod.mk.injEq, true_and] at hok
        rw [← hok]
        have hinv := encodes_foldl slicer docs encodes_init
        rw [List.nil_append] at hinv
        exact finishBlock_files slicer hinv
    · simp at hok
    · simp at hok

/-- Row `r` of the status column, by the layout that the block readers use. -/
def readStatus (agb : Bytes) (r : ℕ) : Word :=
  laneValue (fun p => wordAt agb (128 * (r / 64) + p)) (r % 64)

def readLatency (agb : Bytes) (r : ℕ) : Word :=
  laneValue (fun p => wordAt agb (128 * (r / 64) + 64 + p)) (r % 64)

def readOffset (idx : Bytes) (r : ℕ) : Word := wordAt idx r

lemma wordAt_agb (recs : List AgbRecord) {n b p : ℕ} (hb : b < n) (hp : p < 128) :
    wordAt (encodeWords (agbWords recs n)) (128 * b + p) = (agbBlock recs b).getD p 0 := by
  rw [wordAt_encodeWords]
  exact getD_flatMap_range (agbBlock_length recs) 0 hb hp

lemma wordAt_status_plane (recs : List AgbRecord) {n b p : ℕ} (hb : b < n) (hp : p < 64) :
    wordAt (encodeWords (agbWords recs n)) (128 * b + p) =
      (transpose (column AgbRecord.status recs b))[p] := by
  rw [wordAt_agb recs hb (by omega), agbBlock, List.getD_append _ _ _ _ (by simpa using hp),
    List.getD_eq_getElem _ _ (by simpa using hp)]
  simp

lemma wordAt_latency_plane (recs : List AgbRecord) {n b p : ℕ} (hb : b < n) (hp : p < 64) :
    wordAt (encodeWords (agbWords recs n)) (128 * b + 64 + p) =
      (transpose (column AgbRecord.latency recs b))[p] := by
  rw [Nat.add_assoc, wordAt_agb recs hb (by omega), agbBlock,
    List.getD_append_right _ _ _ _ (by simp), List.getD_eq_getElem _ _ (by simpa using hp)]
  simp

lemma column_lane (f : AgbRecord → Word) (recs : List AgbRecord) (r : ℕ) (h : r % 64 < 64) :
    (column f recs (r / 64))[r % 64] = (recs.map f).getD r 0 := by
  simp [column, laneOf_divMod]

/-- Reading any lane of the written blocks gives the record's value, or zero in the padding. -/
theorem readStatus_agb (recs : List AgbRecord) {n r : ℕ} (hr : r < 64 * n) :
    readStatus (encodeWords (agbWords recs n)) r = (recs.map AgbRecord.status).getD r 0 := by
  have hm : r % 64 < 64 := Nat.mod_lt _ (by norm_num)
  rw [← column_lane _ _ _ hm]
  exact laneValue_of_transpose (fun p hp => wordAt_status_plane recs (by omega) hp) hm

theorem readLatency_agb (recs : List AgbRecord) {n r : ℕ} (hr : r < 64 * n) :
    readLatency (encodeWords (agbWords recs n)) r = (recs.map AgbRecord.latency).getD r 0 := by
  have hm : r % 64 < 64 := Nat.mod_lt _ (by norm_num)
  rw [← column_lane _ _ _ hm]
  exact laneValue_of_transpose (fun p hp => wordAt_latency_plane recs (by omega) hp) hm

theorem readOffset_idx (recs : List AgbRecord) {n r : ℕ} (hr : r < 64 * n) :
    readOffset (encodeWords (idxWords recs n)) r = (recs.map AgbRecord.offset).getD r 0 := by
  have hm : r % 64 < 64 := Nat.mod_lt _ (by norm_num)
  have hg := getD_flatMap_range (idxBlock_length recs) (0 : Word) (n := n) (b := r / 64)
    (p := r % 64) (by omega) hm
  rw [Nat.div_add_mod] at hg
  rw [readOffset, wordAt_encodeWords, idxWords, hg, ← column_lane _ _ _ hm, idxBlock,
    List.getD_eq_getElem _ _ (by simpa using hm)]
  simp

lemma agb_size (recs : List AgbRecord) (n : ℕ) :
    (encodeWords (agbWords recs n)).length = 1024 * n := by
  rw [encodeWords_length, agbWords, length_flatMap_range (agbBlock_length recs)]
  ring

lemma idx_size (recs : List AgbRecord) (n : ℕ) :
    (encodeWords (idxWords recs n)).length = 8 * (64 * n) := by
  rw [encodeWords_length, idxWords, length_flatMap_range (idxBlock_length recs)]

/-- The image of some records gives every record's values back. -/
lemma decoded_rows (recs : List AgbRecord) {r : ℕ} (hr : r < recs.length) :
    readStatus (encodeWords (agbWords recs (blockCount recs.length))) r = recs[r].status ∧
      readLatency (encodeWords (agbWords recs (blockCount recs.length))) r = recs[r].latency ∧
      readOffset (encodeWords (idxWords recs (blockCount recs.length))) r = recs[r].offset := by
  have hb : r < 64 * blockCount recs.length := by unfold blockCount; omega
  rw [readStatus_agb _ hb, readLatency_agb _ hb, readOffset_idx _ hb]
  simp [hr]

/-- A successful export is decoded exactly: block and index sizes, every record's three
values, and zeros in the padding lanes of the last block. -/
theorem convert_faithful {parser : Parser} {slicer : BitSlicer} {env : ExportEnv}
    {files files' : AgbFiles} {docs : List (Option Document)}
    (hagb : env.agbRoom = none) (hidx : env.idxRoom = none)
    (hdocs : env.map.bind parser.iterateMany = some docs)
    (hok : convertJsonToAgb parser slicer env files = (true, files')) :
    ∃ agb idx, files' = ⟨some agb, some idx⟩ ∧
      agb.length = 1024 * blockCount (acceptedRecords docs).length ∧
      idx.length = 8 * (64 * blockCount (acceptedRecords docs).length) ∧
      (∀ r (hr : r < (acceptedRecords docs).length),
        readStatus agb r = (acceptedRecords docs)[r].status ∧
        readLatency agb r = (acceptedRecords docs)[r].latency ∧
        readOffset idx r = (acceptedRecords docs)[r].offset) ∧
      (∀ r, (acceptedRecords docs).length ≤ r →
        r < 64 * blockCount (acceptedRecords docs).length →
        readStatus agb r = 0 ∧ readLatency agb r = 0 ∧ readOffset idx r = 0) := by
  refine ⟨_, _, convert_files hagb hidx hdocs hok, agb_size _ _, idx_size _ _, ?_, ?_⟩
  · exact fun _ hr => decoded_rows _ hr
  · intro r hn hb
    rw [readStatus_agb _ hb, readLatency_agb _ hb, readOffset_idx _ hb]
    simp [hn]

theorem convert_faithful_sample :
    ∃ agb idx, (convertJsonToAgb (.ofStream sampleStream) .reference (.working sampleFile)
        ⟨none, none⟩).2 = ⟨some agb, some idx⟩ ∧ agb.length = 1024 ∧ idx.length = 512 ∧
      readStatus agb 1 = 200 ∧ readLatency agb 1 = 0 ∧ readOffset idx 1 = 32 ∧
      readStatus agb 63 = 0 := by
  obtain ⟨agb, idx, hf, ha, hi, hr, hz⟩ := @convert_faithful (.ofStream sampleStream) .reference
    (.working sampleFile) ⟨none, none⟩ _ _ rfl rfl rfl rfl
  obtain ⟨h1, h2, h3⟩ := hr 1 (by decide)
  exact ⟨agb, idx, hf, ha, hi, h1, h2, h3, (hz 63 (by decide) (by decide)).1⟩

end Eureka.ExporterEncoding
