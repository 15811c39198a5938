import Mathlib
import Eureka.IngestWorkers

/-! Stores of background workers on one handle. No store compares what it replaces, so a stale
copy can undo a transcode or a promotion; it cannot where each store meets what it was made for. -/
namespace Eureka.Ingest
open WordBytes Apex Simdjson Storage TransitionRuns

/-- The bit of a row in a plane of a hot slot, addressed in bytes. -/
def planeBit (rg : RowGroup) (slot : Byte) (bit row : ℕ) : Bool :=
  (rg.hotDataPlanes.get (slot.toNat * 64 * 8192 + bit * 8192 + row / 8)).getLsbD (row % 8)

/-- The rows and marks of the promoted column are still there. -/
structure Promotion.ShownBy (p : Promotion) (rg : RowGroup) : Prop where
  rows : ∀ bit row, planeBit p.stored p.slot bit row = true → planeBit rg p.slot bit row = true
  marks : ∀ block, p.stored.checkBlockPresence p.slot.toNat block = true →
    rg.checkBlockPresence p.slot.toNat block = true

/-- The row group shows all that was stored in the handle: it is compacted if a transcode has
stored, every promoted column is there and every promotion is in the fingerprint. -/
structure ShowsHistory (h : Handle) (rg : RowGroup) : Prop where
  compacted : h.transcoded = true → rg.isCompacted = true
  promoted : ∀ p ∈ h.promotions, p.ShownBy rg
  fingerprint : rg.fingerprintHash =
    h.promotions.foldl (fun hash _ => hash ^^^ 0x999#64) chunkFingerprint

def Handle.Intact (h : Handle) : Prop := ∃ rg, h.group = some rg ∧ ShowsHistory h rg

/-- No update of any handle is lost. -/
def Intact (w : World) : Prop := ∀ h ∈ w.handles, h.Intact

/-- A promotion stores over the row group that it copied, and a transcode over one that no
promotion has changed. -/
def Work.StoresOn (h : Handle) : Work → Prop
  | .promote _ (.storing oldRg _) => h.group = some oldRg
  | .transcode _ (.storing _ _) => h.promotions = []
  | _ => True

def StoreSafe (w : World) : WorldAction → Prop
  | .run call => ∀ c h, w.calls[call]? = some c → w.handles[c.handle]? = some h →
      c.work.StoresOn h
  | _ => True

/-- What a call is about to store was rebuilt by it. -/
def Work.Sound : Work → Prop
  | .promote slot (.storing oldRg newRg) => promotedCopy slot oldRg = some newRg
  | .transcode _ (.storing transcodedRg _) =>
    transcodedRg.isCompacted = true ∧ transcodedRg.fingerprintHash = chunkFingerprint
  | _ => True

def CallsSound (w : World) : Prop := ∀ c ∈ w.calls, c.work.Sound

variable {parser : Parser} {slicer : BitSlicer}

lemma Promotion.ShownBy.trans {p : Promotion} {rg rg' : RowGroup} (h : p.ShownBy rg)
    (hext : Extends rg rg') : p.ShownBy rg' :=
  ⟨fun bit row hb => hext.bits _ _ (h.rows bit row hb),
    fun block hb => hext.marks _ _ (h.marks block hb)⟩

/-- A promotion of the current row group keeps the history and adds itself. -/
lemma ShowsHistory.promote {h : Handle} {oldRg newRg : RowGroup} {slot : Byte}
    (hs : ShowsHistory h oldRg) (hcopy : promotedCopy slot oldRg = some newRg) :
    ShowsHistory { h with
      group := some newRg, promotions := h.promotions ++ [⟨slot, newRg⟩] } newRg := by
  obtain ⟨hext, hfingerprint⟩ := promotedCopy_extends hcopy
  refine ⟨fun ht => hext.compacted.trans (hs.compacted ht), fun p hp => ?_, ?_⟩
  · rcases List.mem_append.mp hp with hp | hp
    · exact (hs.promoted p hp).trans hext
    · obtain rfl := List.mem_singleton.mp hp
      exact ⟨fun _ _ hb => hb, fun _ hb => hb⟩
  · rw [hfingerprint, hs.fingerprint, List.foldl_append]
    rfl

lemma advance_sound (a : AdaptiveIngester) (wal : WalFile) (h : Handle) {work : Work}
    (hwork : work.Sound) : (advance parser slicer a wal h work).work.Sound := by
  cases work with
  | transcode walOpens pc =>
    cases pc with
    | loading =>
      simp only [advance, advanceTranscode]
      split
      · trivial
      · split_ifs <;> trivial
    | rebuilding oldRg linesDrained => exact ⟨rfl, rfl⟩
    | storing | counting | truncating | done => trivial
  | promote slot pc =>
    cases pc with
    | loading =>
      simp only [advance, advancePromotion]
      split <;> trivial
    | rebuilding oldRg =>
      simp only [advance, advancePromotion]
      split
      · trivial
      · assumption
    | storing | done => trivial

/-- A step that stores, if it does, over what it was made for keeps the handle intact. -/
lemma advance_intact (a : AdaptiveIngester) (wal : WalFile) {h : Handle} {work : Work}
    (hwork : work.Sound) (hsafe : work.StoresOn h) (hintact : h.Intact) :
    (advance parser slicer a wal h work).handle.Intact := by
  cases work with
  | transcode walOpens pc =>
    cases pc with
    | loading =>
      simp only [advance, advanceTranscode]
      split
      · exact hintact
      · split_ifs <;> exact hintact
    | storing transcodedRg linesDrained =>
      have hnone : h.promotions = [] := hsafe
      refine ⟨transcodedRg, rfl, fun _ => hwork.1, fun p hp => ?_, ?_⟩
      · exact absurd hp (by simp [advance, advanceTranscode, hnone])
      · simp only [advance, advanceTranscode, hnone, List.foldl_nil]
        exact hwork.2
    | rebuilding | counting | truncating | done => exact hintact
  | promote slot pc =>
    cases pc with
    | loading =>
      simp only [advance, advancePromotion]
      split <;> exact hintact
    | rebuilding oldRg =>
      simp only [advance, advancePromotion]
      split <;> exact hintact
    | storing oldRg newRg =>
      obtain ⟨rg, hrg, hs⟩ := hintact
      obtain rfl : rg = oldRg := Option.some.inj (hrg.symm.trans hsafe)
      exact ⟨newRg, rfl, hs.promote hwork⟩
    | done => exact hintact

lemma callsSound_step {w : World} (h : CallsSound w) (action : WorldAction) :
    CallsSound (w.step parser slicer action) := by
  have hcall : ∀ c : WorkerCall, c.work.Sound → CallsSound (w.call c) := by
    intro c hc
    unfold World.call
    split_ifs
    · intro c' hc'
      rcases List.mem_append.mp hc' with hc' | hc'
      · exact h c' hc'
      · exact List.mem_singleton.mp hc' ▸ hc
    · exact h
  cases action with
  | append rawLines io => exact h
  | copy handle => exact h
  | transcode handle walOpens => exact hcall _ trivial
  | promote handle slot => exact hcall _ trivial
  | run call =>
    obtain ⟨c, hd, hc, hh, hstep⟩ | ⟨-, hstep⟩ := step_run_cases w call
    · rw [hstep]
      intro c' hc'
      rcases List.mem_or_eq_of_mem_set hc' with hc' | rfl
      · exact h c' hc'
      · exact advance_sound _ _ _ (h c (List.mem_of_getElem? hc))
    · rw [hstep]
      exact h

theorem intact_step {w : World} (h : CallsSound w) (hintact : Intact w) {action : WorldAction}
    (hsafe : StoreSafe w action) : Intact (w.step parser slicer action) := by
  have hcall : ∀ c, Intact (w.call c) := by
    intro c
    unfold World.call
    split_ifs <;> exact hintact
  cases action with
  | append rawLines io =>
    intro x hx
    rcases List.mem_append.mp hx with hx | hx
    · exact hintact x hx
    · obtain rfl := List.mem_singleton.mp hx
      exact ⟨_, rfl, fun ht => absurd ht (by simp), fun p hp => absurd hp (by simp), rfl⟩
  | copy handle =>
    intro x hx
    rcases List.mem_append.mp hx with hx | hx
    · exact hintact x hx
    · exact hintact x (List.mem_of_getElem? (Option.mem_toList.mp hx))
  | transcode handle walOpens => exact hcall _
  | promote handle slot => exact hcall _
  | run call =>
    obtain ⟨c, hd, hc, hh, hstep⟩ | ⟨-, hstep⟩ := step_run_cases w call
    · rw [hstep]
      intro x hx
      rcases List.mem_or_eq_of_mem_set hx with hx | rfl
      · exact hintact x hx
      · exact advance_intact _ _ (h c (List.mem_of_getElem? hc)) (hsafe c hd hc hh)
          (hintact hd (List.mem_of_getElem? hh))
    · rw [hstep]
      exact hintact

/-- In every interleaving in which each promotion stores over the row group that it copied and
each transcode over one that no promotion has changed, no update is lost: a handle whose
transcode has stored stays compacted and every completed promotion stays visible. -/
theorem no_lost_update (parser : Parser) (slicer : BitSlicer) (wal : WalFile)
    {actions : List WorldAction}
    (hsafe : ∀ k (hk : k < actions.length),
      StoreSafe ((World.start wal).run parser slicer (actions.take k)) actions[k]) :
    ∀ k ≤ actions.length, Intact ((World.start wal).run parser slicer (actions.take k)) := by
  have hinv : ∀ (w : World) (action : WorldAction), CallsSound w → True →
      CallsSound (w.step parser slicer action) := fun _ action h _ => callsSound_step h action
  have hstep : ∀ (w : World) (action : WorldAction), CallsSound w → True → Intact w →
      StoreSafe w action → Intact (w.step parser slicer action) :=
    fun _ _ h _ hintact hsafe => intact_step h hintact hsafe
  have hsound : CallsSound (.start wal) := fun c hc => absurd hc List.not_mem_nil
  have hintact : Intact (.start wal) := fun h hh => absurd hh List.not_mem_nil
  exact good_throughout hinv hstep hsound hintact (fun _ _ => trivial) hsafe

theorem no_lost_update_sample :
    Intact ((World.start none).run (.ofStream []) .reference
      [.append [[0x61#8]] (.writes none), .transcode 0 true, .run 0, .run 0, .run 0]) := by
  refine @no_lost_update (.ofStream []) .reference none
    [.append [[0x61#8]] (.writes none), .transcode 0 true, .run 0, .run 0, .run 0] ?_ 5 le_rfl
  intro k hk
  rw [List.length_cons, List.length_cons, List.length_cons, List.length_cons, List.length_cons,
    List.length_nil] at hk
  interval_cases k
  · trivial
  · trivial
  · intro c h hc hh
    obtain rfl := Option.some.inj hc
    exact True.intro
  · intro c h hc hh
    obtain rfl := Option.some.inj hc
    exact True.intro
  · -- the store: no promotion has completed
    intro c h hc hh
    obtain rfl := Option.some.inj hc
    obtain rfl := Option.some.inj hh
    rfl

/-- A promotion copies the staged row group, the transcode stores and truncates the log, and
then the promotion stores: the handle is staged again. -/
theorem promotion_undoes_transcode :
    ∃ h rg, ((World.start none).run (.ofStream []) .reference
      [.append [[0x61#8]] (.writes none), .promote 0 5, .transcode 0 true, .run 0, .run 0, .run 1,
        .run 1, .run 1, .run 1, .run 1, .run 0]).handles[0]? = some h ∧
      h.group = some rg ∧ h.transcoded = true ∧ rg.isCompacted = false ∧
      ¬ Intact ((World.start none).run (.ofStream []) .reference
        [.append [[0x61#8]] (.writes none), .promote 0 5, .transcode 0 true, .run 0, .run 0, .run 1,
          .run 1, .run 1, .run 1, .run 1, .run 0]) := by
  refine ⟨_, _, rfl, rfl, rfl, rfl, ?_⟩
  intro h
  obtain ⟨rg, hrg, hs⟩ := h _ (List.mem_of_getElem? (i := 0) rfl)
  have hcompacted := hs.compacted rfl
  rw [← Option.some.inj hrg] at hcompacted
  exact absurd hcompacted Bool.false_ne_true

end Eureka.Ingest
