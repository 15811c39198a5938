import Mathlib
import Eureka.PromotionDaemon
import Eureka.Transcode

/-! Background work on shared handles. Transcodes and promotions load a handle, rebuild its
row group in private and store the result, each in atomic steps that may interleave. -/
namespace Eureka.Ingest
open WordBytes Apex Simdjson Storage TransitionRuns

/-- A completed promotion and the row group that it stored. -/
structure Promotion where
  slot : Byte
  stored : RowGroup

/-- A variable that points to a row group, with its history: the appended batch, whether a
transcode has stored, and the promotions that have. -/
structure Handle where
  group : Option RowGroup
  batch : ℕ
  transcoded : Bool
  promotions : List Promotion

inductive TranscodePc
  | loading
  | rebuilding (oldRg : RowGroup) (linesDrained : ℕ)
  | storing (transcodedRg : RowGroup) (linesDrained : ℕ)
  | counting (linesDrained : ℕ)
  | truncating
  | done

inductive PromotionPc
  | loading
  | rebuilding (oldRg : RowGroup)
  | storing (oldRg newRg : RowGroup)
  | done

inductive Work
  | transcode (walOpens : Bool) (pc : TranscodePc)
  | promote (targetHotSlot : Byte) (pc : PromotionPc)

/-- What the next atomic step of a call leaves. `counted` is set by the counter update. -/
structure Advance where
  work : Work
  handle : Handle
  ingester : AdaptiveIngester
  wal : WalFile
  counted : Bool

def advanceTranscode (parser : Parser) (slicer : BitSlicer) (a : AdaptiveIngester) (wal : WalFile)
    (h : Handle) (walOpens : Bool) : TranscodePc → Advance
  | .loading =>
    match h.group with
    | none => ⟨.transcode walOpens .done, h, a, wal, false⟩
    | some oldRg =>
      if oldRg.isCompacted then ⟨.transcode walOpens .done, h, a, wal, false⟩
      else ⟨.transcode walOpens (.rebuilding oldRg oldRg.rawChunkBuffer.length), h, a, wal, false⟩
  | .rebuilding oldRg linesDrained =>
    let chunk := ingestChunk parser slicer a oldRg.rawChunkBuffer
    ⟨.transcode walOpens (.storing { chunk.1 with isCompacted := true } linesDrained), h, chunk.2,
      wal, false⟩
  | .storing transcodedRg linesDrained =>
    ⟨.transcode walOpens (.counting linesDrained),
      { h with group := some transcodedRg, transcoded := true }, a, wal, false⟩
  | .counting linesDrained =>
    ⟨.transcode walOpens .truncating, h,
      { a with activeBufferDepth := a.activeBufferDepth - BitVec.ofNat 64 linesDrained }, wal, true⟩
  | .truncating => ⟨.transcode walOpens .done, h, a, truncateWal walOpens wal, false⟩
  | .done => ⟨.transcode walOpens .done, h, a, wal, false⟩

/-- A promotion that writes past the planes has no further step. -/
def advancePromotion (a : AdaptiveIngester) (wal : WalFile) (h : Handle) (slot : Byte) :
    PromotionPc → Advance
  | .loading =>
    match h.group with
    | none => ⟨.promote slot .done, h, a, wal, false⟩
    | some oldRg => ⟨.promote slot (.rebuilding oldRg), h, a, wal, false⟩
  | .rebuilding oldRg =>
    match promotedCopy slot oldRg with
    | none => ⟨.promote slot (.rebuilding oldRg), h, a, wal, false⟩
    | some newRg => ⟨.promote slot (.storing oldRg newRg), h, a, wal, false⟩
  | .storing _ newRg =>
    ⟨.promote slot .done,
      { h with group := some newRg, promotions := h.promotions ++ [⟨slot, newRg⟩] }, a, wal, false⟩
  | .done => ⟨.promote slot .done, h, a, wal, false⟩

def advance (parser : Parser) (slicer : BitSlicer) (a : AdaptiveIngester) (wal : WalFile)
    (h : Handle) : Work → Advance
  | .transcode walOpens pc => advanceTranscode parser slicer a wal h walOpens pc
  | .promote slot pc => advancePromotion a wal h slot pc

/-- A call that works on a handle. -/
structure WorkerCall where
  handle : ℕ
  work : Work

/-- One ingester and everything that uses it. `batches` are the appended batches and `counted`
those that a counter update has subtracted. -/
structure World where
  ingester : AdaptiveIngester
  wal : WalFile
  handles : List Handle
  calls : List WorkerCall
  batches : List (List Bytes)
  counted : List ℕ

def World.start (wal : WalFile) : World := ⟨.new, wal, [], [], [], []⟩

inductive WorldAction
  | append (rawLines : List Bytes) (io : WalOutcome)
  | copy (handle : ℕ)
  | transcode (handle : ℕ) (walOpens : Bool)
  | promote (handle : ℕ) (targetHotSlot : Byte)
  | run (call : ℕ)
  deriving DecidableEq, Repr

/-- A call on a handle that exists. -/
def World.call (w : World) (c : WorkerCall) : World :=
  if c.handle < w.handles.length then { w with calls := w.calls ++ [c] } else w

/-- One step of a call in its place. -/
def World.advanceCall (parser : Parser) (slicer : BitSlicer) (w : World) (call : ℕ)
    (c : WorkerCall) (h : Handle) : World :=
  let r := advance parser slicer w.ingester w.wal h c.work
  { w with
    ingester := r.ingester
    wal := r.wal
    handles := w.handles.set c.handle r.handle
    calls := w.calls.set call ⟨c.handle, r.work⟩
    counted := if r.counted then w.counted ++ [h.batch] else w.counted }

def World.step (parser : Parser) (slicer : BitSlicer) (w : World) : WorldAction → World
  | .append rawLines io =>
    let r := appendRawBatch io w.ingester w.wal rawLines
    { w with
      ingester := r.2.1
      wal := r.2.2
      handles := w.handles ++ [⟨some r.1, w.batches.length, false, []⟩]
      batches := w.batches ++ [rawLines] }
  | .copy handle => { w with handles := w.handles ++ w.handles[handle]?.toList }
  | .transcode handle walOpens => w.call ⟨handle, .transcode walOpens .loading⟩
  | .promote handle slot => w.call ⟨handle, .promote slot .loading⟩
  | .run call =>
    match w.calls[call]? with
    | none => w
    | some c =>
      match w.handles[c.handle]? with
      | none => w
      | some h => w.advanceCall parser slicer call c h

def World.run (parser : Parser) (slicer : BitSlicer) (w : World) (actions : List WorldAction) :
    World := actions.foldl (World.step parser slicer) w

variable {parser : Parser} {slicer : BitSlicer}

/-- The step of a call that exists, on a handle that exists, advances it; any other changes
nothing. -/
lemma step_run_cases (w : World) (call : ℕ) :
    (∃ c h, w.calls[call]? = some c ∧ w.handles[c.handle]? = some h ∧
      w.step parser slicer (.run call) = w.advanceCall parser slicer call c h) ∨
    ((∀ c h, w.calls[call]? = some c → w.handles[c.handle]? ≠ some h) ∧
      w.step parser slicer (.run call) = w) := by
  cases hc : w.calls[call]? with
  | none =>
    right
    exact ⟨fun c h hc' => absurd hc' (by simp), by simp only [World.step, hc]⟩
  | some c =>
    cases hh : w.handles[c.handle]? with
    | none =>
      right
      refine ⟨fun c' h hc' => ?_, by simp only [World.step, hc, hh]⟩
      obtain rfl := Option.some.inj hc'
      simp [hh]
    | some h =>
      left
      exact ⟨c, h, rfl, hh, by simp only [World.step, hc, hh]⟩

/-- What a call left alone makes of its handle, the ingester and the log. -/
def runAlone (parser : Parser) (slicer : BitSlicer) (r : Advance) : Advance :=
  advance parser slicer r.ingester r.wal r.handle r.work

/-- A transcode whose steps do not interleave is `transcode_batch_now`. -/
theorem lone_transcode (parser : Parser) (slicer : BitSlicer) (a : AdaptiveIngester)
    (wal : WalFile) (h : Handle) (walOpens : Bool) :
    ((runAlone parser slicer)^[5] ⟨.transcode walOpens .loading, h, a, wal, false⟩).handle.group =
      (transcodeBatchNow parser slicer walOpens a wal h.group).handle ∧
    ((runAlone parser slicer)^[5] ⟨.transcode walOpens .loading, h, a, wal, false⟩).ingester =
      (transcodeBatchNow parser slicer walOpens a wal h.group).ingester ∧
    ((runAlone parser slicer)^[5] ⟨.transcode walOpens .loading, h, a, wal, false⟩).wal =
      (transcodeBatchNow parser slicer walOpens a wal h.group).wal := by
  obtain ⟨group, batch, transcoded, promotions⟩ := h
  cases group with
  | none => exact ⟨rfl, rfl, rfl⟩
  | some oldRg =>
    by_cases hc : oldRg.isCompacted = true
    · simp [runAlone, advance, advanceTranscode, transcodeBatchNow, hc]
    · simp [runAlone, advance, advanceTranscode, transcodeBatchNow, hc]

/-- A promotion whose steps do not interleave is `execute_compaction_promotion`. -/
theorem lone_promotion (parser : Parser) (slicer : BitSlicer) (a : AdaptiveIngester)
    (wal : WalFile) (h : Handle) (fieldName : String) (slot : Byte) {result : Bool}
    {group : Option RowGroup}
    (hdefined : executeCompactionPromotion h.group fieldName slot = some (result, group)) :
    ((runAlone parser slicer)^[3] ⟨.promote slot .loading, h, a, wal, false⟩).handle.group =
      group := by
  obtain ⟨handleGroup, batch, transcoded, promotions⟩ := h
  cases handleGroup with
  | none =>
    simp only [executeCompactionPromotion, Option.some.injEq, Prod.mk.injEq] at hdefined
    exact hdefined.2
  | some oldRg =>
    obtain ⟨newRg, hnew, hpair⟩ := Option.map_eq_some_iff.mp hdefined
    obtain ⟨-, rfl⟩ := Prod.mk.inj hpair
    simp [runAlone, advance, advancePromotion, hnew]

end Eureka.Ingest
