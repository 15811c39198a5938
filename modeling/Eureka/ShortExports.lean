import Mathlib
import Eureka.ExportOutcomes
import Eureka.TransitionRuns

/-! Exports to a device that fills up. No write is checked, so the call ends as on a device with
room for everything, and each file is cut where its device stopped. -/
namespace Eureka.ExporterEncoding
open WordBytes BitPlanes Apex Simdjson FixedBlocks Exporter TransitionRuns

/-- The bytes that a device takes. -/
def taken (room : Option ℕ) (bs : Bytes) : Bytes :=
  match room with
  | none => bs
  | some k => bs.take k

/-- A stream beside one that takes the same writes without a limit. -/
structure Cut (room : Option ℕ) (o full : OutStream) : Prop where
  written : o.written = taken room full.written
  left : o.room = room.map (· - full.written.length)
  good : o.good = room.all fun k => decide (full.written.length ≤ k)
  unlimited : full.room = none ∧ full.good = true

lemma cut_open (room : Option ℕ) : Cut room (.open room) (.open none) := by
  cases room with
  | none => exact ⟨rfl, rfl, rfl, rfl, rfl⟩
  | some k => exact ⟨List.take_nil.symm, rfl, (decide_eq_true (Nat.zero_le k)).symm, rfl, rfl⟩

lemma Cut.write {room : Option ℕ} {o full : OutStream} (h : Cut room o full) (bs : Bytes) :
    Cut room (o.write bs) (full.write bs) := by
  obtain ⟨written, free, good⟩ := o
  obtain ⟨all, freeAll, goodAll⟩ := full
  obtain ⟨hwritten, hleft, hgood, hfree, htrue⟩ := h
  simp only at hwritten hleft hgood hfree htrue
  subst hwritten hleft hgood hfree htrue
  have hfull : (OutStream.mk all none true).write bs = ⟨all ++ bs, none, true⟩ := write_unlimited all bs
  rw [hfull]
  cases room with
  | none => exact ⟨rfl, rfl, rfl, rfl, rfl⟩
  | some k =>
    rw [OutStream.write]
    by_cases hk : all.length ≤ k
    · simp only [Option.all_some, hk, decide_true, if_true, Option.map_some]
      constructor
      · simp only [taken, List.take_append]
      · simp only [List.length_append, Option.map_some, Nat.sub_sub]
      · simp only [Option.all_some, List.length_append]
        congr 1
        rw [eq_iff_iff]
        omega
      · exact ⟨rfl, rfl⟩
    · -- the device is full, and longer contents are cut at the same place
      simp only [Option.all_some, hk, decide_false, Bool.false_eq_true, if_false, Option.map_some]
      constructor
      · simp only [taken]
        rw [List.take_append_of_le_length (by omega)]
      · simp only [Option.map_some, List.length_append, Option.some.injEq]
        omega
      · simp only [Option.all_some, List.length_append, Bool.false_eq, decide_eq_false_iff_not]
        omega
      · exact ⟨rfl, rfl⟩

/-- Two exports that differ in the room of their devices only. -/
structure CutState (agbRoom idxRoom : Option ℕ) (st full : ExportState) : Prop where
  buffers : st = { full with outFile := st.outFile, outIdx := st.outIdx }
  outFile : Cut agbRoom st.outFile full.outFile
  outIdx : Cut idxRoom st.outIdx full.outIdx

section steps
variable {agbRoom idxRoom : Option ℕ} {st full : ExportState}

lemma cutState_init (agbRoom idxRoom : Option ℕ) :
    CutState agbRoom idxRoom (.init agbRoom idxRoom) (.init none none) :=
  ⟨rfl, cut_open agbRoom, cut_open idxRoom⟩

/-- Buffers and counters that both exports change alike. -/
lemma CutState.update (h : CutState agbRoom idxRoom st full) (f : ExportState → ExportState)
    (hf : ∀ s outFile outIdx, f { s with outFile := outFile, outIdx := outIdx } =
      { f s with outFile := outFile, outIdx := outIdx }) :
    CutState agbRoom idxRoom (f st) (f full) := by
  have hst : f st = { f full with outFile := st.outFile, outIdx := st.outIdx } := by
    conv_lhs => rw [h.buffers]
    exact hf full st.outFile st.outIdx
  have hfull := hf full full.outFile full.outIdx
  have hout := congrArg ExportState.outFile hfull
  have hidx := congrArg ExportState.outIdx hfull
  rw [hst]
  refine ⟨rfl, ?_, ?_⟩
  · change Cut agbRoom st.outFile (f full).outFile
    exact hout ▸ h.outFile
  · change Cut idxRoom st.outIdx (f full).outIdx
    exact hidx ▸ h.outIdx

lemma CutState.block (h : CutState agbRoom idxRoom st full) (slicer : BitSlicer) :
    CutState agbRoom idxRoom (writeBlock slicer st) (writeBlock slicer full) := by
  have hb := h.buffers
  refine ⟨?_, ?_, ?_⟩
  · rw [hb]
    rfl
  · rw [hb]
    exact (h.outFile.write _).write _
  · rw [hb]
    exact h.outIdx.write _

/-- One turn of the loop. -/
lemma CutState.entry (h : CutState agbRoom idxRoom st full) (slicer : BitSlicer)
    (entry : Option Document) :
    CutState agbRoom idxRoom (exportEntry slicer st entry) (exportEntry slicer full entry) := by
  cases entry with
  | none => exact h
  | some doc =>
    have hcount : st.currentCount = full.currentCount := by rw [h.buffers]
    have hstored := h.update (fun s => { s with
      statusBuf := s.statusBuf.set s.currentCount doc.status
      latencyBuf := s.latencyBuf.set s.currentCount doc.latency
      offsetBuf := s.offsetBuf.set s.currentCount (docOffset doc)
      recordCount := s.recordCount + 1 }) fun _ _ _ => rfl
    change CutState agbRoom idxRoom (exportDoc slicer st doc) (exportDoc slicer full doc)
    rw [exportDoc, exportDoc]
    simp only [hcount] at hstored ⊢
    split_ifs with hlane
    · exact hstored.update (fun s => { s with currentCount := ⟨full.currentCount.val + 1, hlane⟩ })
        fun _ _ _ => rfl
    · exact (hstored.block slicer).update (fun s => { s with currentCount := 0 }) fun _ _ _ => rfl

lemma CutState.finish (h : CutState agbRoom idxRoom st full) (slicer : BitSlicer) :
    CutState agbRoom idxRoom (finishBlock slicer st) (finishBlock slicer full) := by
  have hcount : st.currentCount = full.currentCount := by rw [h.buffers]
  rw [finishBlock, finishBlock, hcount]
  split_ifs
  · refine CutState.block ?_ slicer
    have hpadded := h.update (fun s => { s with
      statusBuf := zeroFrom s.statusBuf s.currentCount
      latencyBuf := zeroFrom s.latencyBuf s.currentCount
      offsetBuf := zeroFrom s.offsetBuf s.currentCount }) fun _ _ _ => rfl
    simp only [hcount] at hpadded
    exact hpadded
  · exact h

lemma CutState.stream (h : CutState agbRoom idxRoom st full) (slicer : BitSlicer)
    (docs : List (Option Document)) :
    CutState agbRoom idxRoom (docs.foldl (exportEntry slicer) st) (docs.foldl (exportEntry slicer) full) :=
  foldl_simulates (fun _ _ entry h (_ : True) => h.entry slicer entry) h fun _ _ => trivial

def takenFiles (agbRoom idxRoom : Option ℕ) (files : AgbFiles) : AgbFiles :=
  ⟨files.agb.map (taken agbRoom), files.idx.map (taken idxRoom)⟩

lemma CutState.files (h : CutState agbRoom idxRoom st full) :
    st.files = takenFiles agbRoom idxRoom full.files := by
  rw [ExportState.files, h.outFile.written, h.outIdx.written]
  rfl

end steps

section conversions
variable {parser : Parser} {slicer : BitSlicer} {env : ExportEnv} {files : AgbFiles}
  {docs : List (Option Document)}

/-- The same call with devices that take everything. -/
def unlimitedEnv (env : ExportEnv) : ExportEnv := { env with agbRoom := none, idxRoom := none }

/-- A conversion whose files open: it returns what it would return with room for everything, and
leaves of each file what its device took, also where the stream throws. -/
lemma convert_taken (hmap : env.map.isSome = true) (hagb : env.agbOpens = true)
    (hidx : env.idxOpens = true) : convertJsonToAgb parser slicer env files =
      ((convertJsonToAgb parser slicer (unlimitedEnv env) files).1,
        takenFiles env.agbRoom env.idxRoom (convertJsonToAgb parser slicer (unlimitedEnv env) files).2) := by
  obtain ⟨json, hjson⟩ := Option.isSome_iff_exists.mp hmap
  have hunlimited : (unlimitedEnv env).map = some json := hjson
  rw [convert_opened hjson hagb hidx, convert_opened hunlimited hagb hidx]
  cases parser.iterateMany json with
  | none =>
    have hnil : ∀ room, taken room [] = [] := by
      intro room
      cases room with
      | none => rfl
      | some k => exact List.take_nil
    simp only [takenFiles, Option.map_some, hnil]
  | some docs =>
    have hinit := cutState_init env.agbRoom env.idxRoom
    simp only [unlimitedEnv]
    cases env.throwsAfter with
    | some k => exact congrArg _ (hinit.stream slicer (docs.take k)).files
    | none => exact congrArg _ ((hinit.stream slicer docs).finish slicer).files

/-- A block within the room of its device, counted in bytes. -/
def Fits (room : Option ℕ) (bytes : ℕ) : Prop := ∀ k ∈ room, bytes ≤ k

lemma wordAt_taken {room : Option ℕ} {bs : Bytes} {w : ℕ} (h : Fits room (8 * (w + 1))) :
    wordAt (taken room bs) w = wordAt bs w := by
  cases room with
  | none => rfl
  | some k =>
    have hk : 8 * (w + 1) ≤ k := h k rfl
    refine joinBytes_congr fun j hj => ?_
    rw [taken, List.getD_eq_getElem?_getD, List.getElem?_take_of_lt (by omega),
      ← List.getD_eq_getElem?_getD]

/-- Reading a row needs its whole block of planes, and its own word of the index. -/
lemma readStatus_taken {room : Option ℕ} {agb : Bytes} {r : ℕ} (h : Fits room (1024 * (r / 64 + 1))) :
    readStatus (taken room agb) r = readStatus agb r := by
  refine laneValue_congr (fun p hp => wordAt_taken fun k hk => ?_) _
  have hfits := h k hk
  omega

lemma readLatency_taken {room : Option ℕ} {agb : Bytes} {r : ℕ} (h : Fits room (1024 * (r / 64 + 1))) :
    readLatency (taken room agb) r = readLatency agb r := by
  refine laneValue_congr (fun p hp => wordAt_taken fun k hk => ?_) _
  have hfits := h k hk
  omega

/-- A conversion that meets no error of the stream returns true however little its devices take.
Every record whose block was taken whole is read back from the `.agb` file, and every offset that
was taken from the index; a full device shortens the two files independently of each other. -/
theorem export_on_full_device (hdocs : env.map.bind parser.iterateMany = some docs)
    (hagb : env.agbOpens = true) (hidx : env.idxOpens = true) (hthrows : env.throwsAfter = none) :
    ∃ agb idx, convertJsonToAgb parser slicer env files = (true, ⟨some agb, some idx⟩) ∧
      (∀ k ∈ env.agbRoom, agb.length = min k (1024 * blockCount (acceptedRecords docs).length)) ∧
      (∀ k ∈ env.idxRoom, idx.length = min k (512 * blockCount (acceptedRecords docs).length)) ∧
      ∀ r (hr : r < (acceptedRecords docs).length),
        (Fits env.agbRoom (1024 * (r / 64 + 1)) →
          readStatus agb r = (acceptedRecords docs)[r].status ∧
            readLatency agb r = (acceptedRecords docs)[r].latency) ∧
        (Fits env.idxRoom (8 * (r + 1)) → readOffset idx r = (acceptedRecords docs)[r].offset) := by
  have hmap : env.map.isSome = true := by
    obtain ⟨json, hjson, -⟩ := Option.bind_eq_some_iff.mp hdocs
    rw [hjson]
    rfl
  have hcomplete : (convertJsonToAgb parser slicer (unlimitedEnv env) files).1 = true ∧
      BothHold (acceptedRecords docs) (blockCount (acceptedRecords docs).length)
        (convertJsonToAgb parser slicer (unlimitedEnv env) files).2 :=
    convert_complete hdocs hagb hidx hthrows rfl rfl
  have htaken : convertJsonToAgb parser slicer env files = _ := convert_taken hmap hagb hidx
  rw [hcomplete.1, hcomplete.2] at htaken
  refine ⟨_, _, htaken, fun k hk => ?_, fun k hk => ?_, fun r hr => ?_⟩
  · rw [hk, taken, List.length_take, agb_size]
  · rw [hk, taken, List.length_take, idx_size]
    congr 1
    omega
  · obtain ⟨hstatus, hlatency, hoffset⟩ := decoded_rows _ hr
    constructor
    · intro hfits
      rw [readStatus_taken hfits, readLatency_taken hfits]
      exact ⟨hstatus, hlatency⟩
    · intro hfits
      exact (wordAt_taken hfits).trans hoffset

end conversions

section samples

/-- Two records, a device that takes the planes of their block, and one that takes one offset. -/
theorem export_on_full_device_sample :
    ∃ agb idx, convertJsonToAgb (.ofStream sampleStream) .reference
        { ExportEnv.working sampleFile with agbRoom := some 1500, idxRoom := some 8 } ⟨none, none⟩ =
          (true, ⟨some agb, some idx⟩) ∧
      agb.length = 1024 ∧ idx.length = 8 ∧ readStatus agb 1 = 200 ∧ readOffset idx 0 = 0 := by
  obtain ⟨agb, idx, hresult, hagb, hidx, hrows⟩ := @export_on_full_device (.ofStream sampleStream)
    .reference { ExportEnv.working sampleFile with agbRoom := some 1500, idxRoom := some 8 }
    ⟨none, none⟩ _ rfl rfl rfl rfl
  have hone := hrows 1 (by decide)
  have hzero := hrows 0 (by decide)
  refine ⟨agb, idx, hresult, hagb 1500 rfl, hidx 8 rfl, ?_, ?_⟩
  · exact (hone.1 fun k hk => by cases hk; norm_num).1
  · exact hzero.2 fun k hk => by cases hk; norm_num

end samples

end Eureka.ExporterEncoding
