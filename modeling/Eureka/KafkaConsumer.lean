import Mathlib
import Eureka.TransitionRuns

/-! `KafkaConsumerManager`: the listener, the scheduler and the shutdown share one buffer. A
flush copies it and then clears it, under a lock that the listener's add does not take. -/
namespace Eureka.QueryService
open TransitionRuns

section model
variable {R : Type*}

inductive Worker
  | listener | scheduler | shutdown
  deriving DecidableEq, Repr

/-- Where a thread is in `flushBuffer`; it holds the lock from `entered` on. -/
inductive FlushPc (R : Type*)
  | waiting
  | entered
  | copying
  | clearing (batchToFlush : List R)
  | delivering (batchToFlush : List R)

/-- `testing` is the size test of the listener and the time test of `checkFlush`. -/
inductive Pc (R : Type*)
  | idle
  | testing
  | flushing (pc : FlushPc R)

/-- `consumed` and `flushed` record every add and every batch taken out of the buffer. -/
structure KafkaConsumerManager (R : Type*) where
  buffer : List R
  lock : Option Worker
  pc : Worker → Pc R
  consumed : List R
  flushed : List (List R)

namespace KafkaConsumerManager

def start : KafkaConsumerManager R := ⟨[], none, fun _ => .idle, [], []⟩

def goto (s : KafkaConsumerManager R) (t : Worker) (p : Pc R) : KafkaConsumerManager R :=
  { s with pc := Function.update s.pc t p }

@[simp] lemma goto_self (s : KafkaConsumerManager R) (t : Worker) (p : Pc R) :
    (s.goto t p).pc t = p := by
  simp only [goto, Function.update_self]

lemma goto_of_ne (s : KafkaConsumerManager R) {t u : Worker} (hu : u ≠ t) (p : Pc R) :
    (s.goto t p).pc u = s.pc u := by
  simp only [goto, Function.update_of_ne hu]

def release (s : KafkaConsumerManager R) (t : Worker) : KafkaConsumerManager R :=
  { s.goto t .idle with lock := none }

def flushBuffer (s : KafkaConsumerManager R) (t : Worker) : FlushPc R → KafkaConsumerManager R
  | .waiting => if s.lock = none then { s.goto t (.flushing .entered) with lock := some t } else s
  | .entered => if s.buffer.isEmpty then s.release t else s.goto t (.flushing .copying)
  | .copying => s.goto t (.flushing (.clearing s.buffer))
  | .clearing batchToFlush =>
    { s.goto t (.flushing (.delivering batchToFlush)) with
      buffer := []
      flushed := s.flushed ++ [batchToFlush] }
  | .delivering _ => s.release t

end KafkaConsumerManager

/-- `stopContainer` holds the lock that its `flushBuffer` enters again. -/
inductive Action (R : Type*)
  | add (value : R)
  | sizeTest
  | checkFlush
  | timeTest (elapsed : Bool)
  | stopContainer
  | flush (t : Worker)

/-- One atomic step. An action whose thread stands elsewhere changes nothing. -/
def step (batchSize : ℕ) (s : KafkaConsumerManager R) : Action R → KafkaConsumerManager R
  | .add value => match s.pc .listener with
    | .idle => { s.goto .listener .testing with
        buffer := s.buffer ++ [value]
        consumed := s.consumed ++ [value] }
    | _ => s
  | .sizeTest => match s.pc .listener with
    | .testing => s.goto .listener (if batchSize ≤ s.buffer.length then .flushing .waiting else .idle)
    | _ => s
  | .checkFlush => match s.pc .scheduler with
    | .idle => if s.buffer.isEmpty then s else s.goto .scheduler .testing
    | _ => s
  | .timeTest elapsed => match s.pc .scheduler with
    | .testing => s.goto .scheduler (if elapsed then .flushing .waiting else .idle)
    | _ => s
  | .stopContainer => match s.pc .shutdown with
    | .idle => s.goto .shutdown (.flushing .waiting)
    | _ => s
  | .flush t => match s.pc t with
    | .flushing p => s.flushBuffer t p
    | _ => s

def run (batchSize : ℕ) (actions : List (Action R)) : KafkaConsumerManager R :=
  actions.foldl (step batchSize) .start

/-- The flushed batches and then the buffer are the consumed records in order. -/
def Intact (s : KafkaConsumerManager R) : Prop := s.flushed.flatten ++ s.buffer = s.consumed

/-- A clear finds in the buffer what was copied: nothing was added since. -/
def ClearSafe (s : KafkaConsumerManager R) : Action R → Prop
  | .flush t => ∀ batch, s.pc t = .flushing (.clearing batch) → s.buffer = batch
  | _ => True

/-- A thread inside the body of a flush is the only one, and what it copied is still at the
front of the buffer. -/
structure Exclusive (s : KafkaConsumerManager R) : Prop where
  holder : ∀ t p, s.pc t = .flushing p → p ≠ .waiting → s.lock = some t
  copied : ∀ t batch, s.pc t = .flushing (.clearing batch) → batch <+: s.buffer

end model

/-- Everything that a step can do. A thread outside the body of a flush only tests or waits. -/
inductive Transition {R : Type*} (s : KafkaConsumerManager R) : Action R → KafkaConsumerManager R → Prop
  | stay {a : Action R} (hwaits : ∀ t p, a = .flush t → s.pc t = .flushing p → p = .waiting) :
      Transition s a s
  | add (value : R) (hpc : s.pc .listener = .idle) :
      Transition s (.add value) { s.goto .listener .testing with
        buffer := s.buffer ++ [value]
        consumed := s.consumed ++ [value] }
  | test {a : Action R} (t : Worker) (p : Pc R) (ha : ∀ u, a ≠ .flush u)
      (hpc : ∀ q, s.pc t ≠ .flushing q) (hp : ∀ q, p = .flushing q → q = .waiting) :
      Transition s a (s.goto t p)
  | enter (t : Worker) (hpc : s.pc t = .flushing .waiting) (hlock : s.lock = none) :
      Transition s (.flush t) { s.goto t (.flushing .entered) with lock := some t }
  | leave (t : Worker) (hpc : s.pc t = .flushing .entered) : Transition s (.flush t) (s.release t)
  | begin (t : Worker) (hpc : s.pc t = .flushing .entered) (hne : s.buffer ≠ []) :
      Transition s (.flush t) (s.goto t (.flushing .copying))
  | copy (t : Worker) (hpc : s.pc t = .flushing .copying) :
      Transition s (.flush t) (s.goto t (.flushing (.clearing s.buffer)))
  | clear (t : Worker) (batch : List R) (hpc : s.pc t = .flushing (.clearing batch)) :
      Transition s (.flush t) { s.goto t (.flushing (.delivering batch)) with
        buffer := []
        flushed := s.flushed ++ [batch] }
  | deliver (t : Worker) (batch : List R) (hpc : s.pc t = .flushing (.delivering batch)) :
      Transition s (.flush t) (s.release t)

section transitions
variable {R : Type*} {s : KafkaConsumerManager R}

lemma transition_stay {a : Action R} (ha : ∀ t, a ≠ .flush t) : Transition s a s :=
  .stay fun t _ h => absurd h (ha t)

/-- A test after which the thread flushes or stops. -/
lemma transition_test {a : Action R} {t : Worker} (ha : ∀ u, a ≠ .flush u)
    (hpc : ∀ q, s.pc t ≠ .flushing q) (due : Prop) [Decidable due] :
    Transition s a (s.goto t (if due then .flushing .waiting else .idle)) := by
  refine .test t _ ha hpc fun q hq => ?_
  split_ifs at hq
  exact (Pc.flushing.inj hq).symm

lemma transition_flush (batchSize : ℕ) (s : KafkaConsumerManager R) (t : Worker) :
    Transition s (.flush t) (step batchSize s (.flush t)) := by
  cases hpc : s.pc t with
  | idle | testing =>
    simp only [step, hpc]
    refine .stay fun u p hu hp => ?_
    obtain rfl := Action.flush.inj hu
    exact absurd (hpc.symm.trans hp) (by simp)
  | flushing p =>
    simp only [step, hpc]
    cases p with
    | waiting =>
      rw [KafkaConsumerManager.flushBuffer]
      split_ifs with hlock
      · exact .enter t hpc hlock
      · refine .stay fun u p hu hp => ?_
        obtain rfl := Action.flush.inj hu
        exact (Pc.flushing.inj (hpc.symm.trans hp)).symm
    | entered =>
      rw [KafkaConsumerManager.flushBuffer]
      split_ifs with hempty
      · exact .leave t hpc
      · exact .begin t hpc (mt List.isEmpty_iff.mpr hempty)
    | copying => exact .copy t hpc
    | clearing batch => exact .clear t batch hpc
    | delivering batch => exact .deliver t batch hpc

theorem transition_step (batchSize : ℕ) (s : KafkaConsumerManager R) (a : Action R) :
    Transition s a (step batchSize s a) := by
  cases a with
  | add value =>
    cases hpc : s.pc .listener with
    | idle =>
      simp only [step, hpc]
      exact .add value hpc
    | testing | flushing =>
      simp only [step, hpc]
      exact transition_stay (by simp)
  | sizeTest =>
    cases hpc : s.pc .listener with
    | testing =>
      simp only [step, hpc]
      exact transition_test (by simp) (by simp [hpc]) _
    | idle | flushing =>
      simp only [step, hpc]
      exact transition_stay (by simp)
  | checkFlush =>
    cases hpc : s.pc .scheduler with
    | idle =>
      simp only [step, hpc]
      split_ifs
      · exact transition_stay (by simp)
      · exact .test .scheduler .testing (by simp) (by simp [hpc]) (by simp)
    | testing | flushing =>
      simp only [step, hpc]
      exact transition_stay (by simp)
  | timeTest elapsed =>
    cases hpc : s.pc .scheduler with
    | testing =>
      simp only [step, hpc]
      exact transition_test (by simp) (by simp [hpc]) _
    | idle | flushing =>
      simp only [step, hpc]
      exact transition_stay (by simp)
  | stopContainer =>
    cases hpc : s.pc .shutdown with
    | idle =>
      simp only [step, hpc]
      exact .test .shutdown _ (by simp) (by simp [hpc]) fun q hq => (Pc.flushing.inj hq).symm
    | testing | flushing =>
      simp only [step, hpc]
      exact transition_stay (by simp)
  | flush t => exact transition_flush batchSize s t

end transitions

section records
variable {R : Type*} {batchSize : ℕ} {s : KafkaConsumerManager R}

/-- What a step does to the records. -/
inductive Effect (s s' : KafkaConsumerManager R) (a : Action R) : Prop
  | none (hbuffer : s'.buffer = s.buffer) (hconsumed : s'.consumed = s.consumed)
      (hflushed : s'.flushed = s.flushed) (hsafe : ClearSafe s a)
  | add (value : R) (ha : a = .add value) (hbuffer : s'.buffer = s.buffer ++ [value])
      (hconsumed : s'.consumed = s.consumed ++ [value]) (hflushed : s'.flushed = s.flushed)
  | clear (t : Worker) (batch : List R) (ha : a = .flush t)
      (hpc : s.pc t = .flushing (.clearing batch)) (hbuffer : s'.buffer = [])
      (hconsumed : s'.consumed = s.consumed) (hflushed : s'.flushed = s.flushed ++ [batch])

lemma clearSafe_of_ne {t : Worker} {p : Pc R} (hp : s.pc t = p)
    (hne : ∀ batch, p ≠ .flushing (.clearing batch)) : ClearSafe s (.flush t) :=
  fun batch hb => absurd (hp.symm.trans hb) (hne batch)

lemma clearSafe_of_waits {a : Action R}
    (h : ∀ t p, a = .flush t → s.pc t = .flushing p → p = .waiting) : ClearSafe s a := by
  cases a with
  | flush t => exact fun batch hb => absurd (h t _ rfl hb) (by simp)
  | add | sizeTest | checkFlush | timeTest | stopContainer => trivial

/-- The steps that touch the records are the add and the clear. -/
lemma Transition.effect {s' : KafkaConsumerManager R} {a : Action R} (h : Transition s a s') :
    Effect s s' a := by
  cases h with
  | stay hwaits => exact .none rfl rfl rfl (clearSafe_of_waits hwaits)
  | add value => exact .add value rfl rfl rfl rfl
  | test t p ha => exact .none rfl rfl rfl (clearSafe_of_waits fun u _ h => absurd h (ha u))
  | enter t hpc | leave t hpc | begin t hpc | copy t hpc | deliver t batch hpc =>
    exact .none rfl rfl rfl (clearSafe_of_ne hpc (by simp))
  | clear t batch hpc => exact .clear t batch rfl hpc rfl rfl rfl

theorem effect_step (batchSize : ℕ) (s : KafkaConsumerManager R) (a : Action R) :
    Effect s (step batchSize s a) a := (transition_step batchSize s a).effect

theorem intact_step (h : Intact s) (a : Action R) :
    Intact (step batchSize s a) ↔ ClearSafe s a := by
  cases effect_step batchSize s a with
  | none hbuffer hconsumed hflushed hsafe =>
    refine iff_of_true ?_ hsafe
    rw [Intact, hbuffer, hconsumed, hflushed]
    exact h
  | add value ha hbuffer hconsumed hflushed =>
    subst ha
    refine iff_of_true ?_ trivial
    rw [Intact, hbuffer, hconsumed, hflushed, ← List.append_assoc, h]
  | clear t batch ha hpc hbuffer hconsumed hflushed =>
    subst ha
    rw [Intact, hbuffer, hconsumed, hflushed, ← h, List.append_nil, List.flatten_append,
      List.flatten_singleton, List.append_cancel_left_eq]
    constructor
    · rintro rfl b hb
      exact Pc.flushing.inj (hpc.symm.trans hb) |> FlushPc.clearing.inj
    · exact fun hsafe => (hsafe batch hpc).symm

end records

section exclusion
variable {R : Type*} {batchSize : ℕ} {s s' : KafkaConsumerManager R}

/-- A step of one thread that takes nothing out of the buffer nor the lock from another. -/
lemma Exclusive.move (h : Exclusive s) (t : Worker) (hpc : ∀ u, u ≠ t → s'.pc u = s.pc u)
    (hbuffer : s.buffer <+: s'.buffer) (hlock : ∀ u, u ≠ t → s.lock = some u → s'.lock = some u)
    (hholder : ∀ p, s'.pc t = .flushing p → p ≠ .waiting → s'.lock = some t)
    (hcopied : ∀ batch, s'.pc t = .flushing (.clearing batch) → batch <+: s'.buffer) :
    Exclusive s' where
  holder u p hu hp := by
    by_cases hut : u = t
    · subst hut
      exact hholder p hu hp
    · exact hlock u hut (h.holder u p (hpc u hut ▸ hu) hp)
  copied u batch hu := by
    by_cases hut : u = t
    · subst hut
      exact hcopied batch hu
    · exact (h.copied u batch (hpc u hut ▸ hu)).trans hbuffer

lemma Exclusive.goto (h : Exclusive s) {t : Worker} {p : Pc R}
    (hholder : ∀ q, p = .flushing q → q ≠ .waiting → s.lock = some t)
    (hcopied : ∀ batch, p = .flushing (.clearing batch) → batch <+: s.buffer) :
    Exclusive (s.goto t p) := by
  refine h.move t (fun u hu => s.goto_of_ne hu p) (List.prefix_refl _)
    (fun _ _ hlock => hlock) ?_ ?_
  · rw [KafkaConsumerManager.goto_self]
    exact hholder
  · rw [KafkaConsumerManager.goto_self]
    exact hcopied

/-- Only the holder releases the lock. -/
lemma Exclusive.release (h : Exclusive s) {t : Worker} (ht : s.lock = some t) :
    Exclusive (s.release t) := by
  have hself : (s.release t).pc t = .idle := s.goto_self t .idle
  refine h.move t (fun u hu => s.goto_of_ne hu .idle) (List.prefix_refl _) ?_ ?_ ?_
  · intro u hu hlock
    exact absurd (Option.some.inj (hlock.symm.trans ht)) hu
  · rw [hself]
    exact fun _ hp => absurd hp (by simp)
  · rw [hself]
    exact fun _ hp => absurd hp (by simp)

/-- The holder takes the batch out of the buffer; no other thread has copied it. -/
lemma Exclusive.clear (h : Exclusive s) {t : Worker} {batch : List R}
    (hpc : s.pc t = .flushing (.clearing batch)) (flushed : List (List R)) :
    Exclusive { s.goto t (.flushing (.delivering batch)) with
      buffer := []
      flushed := flushed } where
  holder u q hq hne := by
    have hlock := h.holder t _ hpc (by simp)
    by_cases hu : u = t
    · rw [hu]
      exact hlock
    · exact h.holder u q ((s.goto_of_ne hu _).symm.trans hq) hne
  copied u b hb := by
    by_cases hu : u = t
    · subst hu
      exact absurd ((s.goto_self u _).symm.trans hb) (by simp)
    · have hb' := (s.goto_of_ne hu _).symm.trans hb
      have hother := (h.holder u _ hb' (by simp)).symm.trans (h.holder t _ hpc (by simp))
      exact absurd (Option.some.inj hother) hu

/-- The bodies of `flushBuffer` exclude each other at every step. -/
lemma Transition.exclusive {a : Action R} (ht : Transition s a s') (h : Exclusive s) :
    Exclusive s' := by
  cases ht with
  | stay => exact h
  | add value =>
    exact h.move .listener (fun u hu => s.goto_of_ne hu _) (List.prefix_append _ _)
      (fun _ _ hlock => hlock) (by simp) (by simp)
  | test t p ha hpc hp =>
    exact h.goto (fun q hq hne => absurd (hp q hq) hne) fun batch hb => absurd (hp _ hb) (by simp)
  | enter t hpc hlock =>
    refine h.move t (fun u hu => s.goto_of_ne hu _) (List.prefix_refl _) ?_ ?_ ?_
    · exact fun u _ hheld => absurd (hlock.symm.trans hheld) (by simp)
    · exact fun _ _ _ => rfl
    · simp
  | leave t hpc | deliver t batch hpc => exact h.release (h.holder t _ hpc (by simp))
  | begin t hpc => exact h.goto (fun _ _ _ => h.holder t _ hpc (by simp)) (by simp)
  | copy t hpc =>
    refine h.goto (fun _ _ _ => h.holder t _ hpc (by simp)) fun batch hb => ?_
    cases hb
    exact List.prefix_refl _
  | clear t batch hpc => exact h.clear hpc _

theorem exclusive_step (h : Exclusive s) (a : Action R) : Exclusive (step batchSize s a) :=
  (transition_step batchSize s a).exclusive h

theorem exclusive_run (batchSize : ℕ) (actions : List (Action R)) :
    Exclusive (run batchSize actions) := by
  induction actions using List.reverseRecOn with
  | nil => exact ⟨fun t p hp => absurd hp (by simp [run, KafkaConsumerManager.start]),
      fun t batch hp => absurd hp (by simp [run, KafkaConsumerManager.start])⟩
  | append_singleton actions a ih =>
    rw [run, List.foldl_append]
    exact exclusive_step ih a

end exclusion

/-- In every run the flushes exclude each other, so a clear finds what was copied and then what
was added since. Each consumed record is at every moment in the buffer or in one flushed batch,
in order, exactly when no clear finds an addition. -/
theorem intact_throughout_iff {R : Type*} (batchSize : ℕ) (actions : List (Action R)) :
    (∀ k ≤ actions.length, Exclusive (run batchSize (actions.take k))) ∧
    ((∀ k ≤ actions.length, Intact (run batchSize (actions.take k))) ↔
      ∀ k (hk : k < actions.length), ClearSafe (run batchSize (actions.take k)) actions[k]) := by
  refine ⟨fun k _ => exclusive_run batchSize _, ?_⟩
  have hstep : ∀ (s : KafkaConsumerManager R) (a : Action R), Exclusive s → True → Intact s →
      (Intact (step batchSize s a) ↔ ClearSafe s a) := fun _ a _ _ h => intact_step h a
  have hstart : Intact (.start : KafkaConsumerManager R) := rfl
  exact good_throughout_iff (fun _ a h _ => exclusive_step h a) hstep (exclusive_run batchSize [])
    hstart fun _ _ => trivial

/-- A record is added between the scheduler's copy and its clear: it is in no batch and no
longer in the buffer. -/
theorem add_lost_between_copy_and_clear :
    (run 2 [.add 1, .sizeTest, .checkFlush, .timeTest true, .flush .scheduler, .flush .scheduler,
      .flush .scheduler, .add 2, .flush .scheduler]).consumed = [1, 2] ∧
    (run 2 [.add 1, .sizeTest, .checkFlush, .timeTest true, .flush .scheduler, .flush .scheduler,
      .flush .scheduler, .add 2, .flush .scheduler]).flushed = [[1]] ∧
    (run 2 [.add 1, .sizeTest, .checkFlush, .timeTest true, .flush .scheduler, .flush .scheduler,
      .flush .scheduler, .add 2, .flush .scheduler]).buffer = [] ∧
    ¬ Intact (run 2 [.add 1, .sizeTest, .checkFlush, .timeTest true, .flush .scheduler,
      .flush .scheduler, .flush .scheduler, .add 2, .flush .scheduler]) := by
  refine ⟨rfl, rfl, rfl, ?_⟩
  intro h
  have hlen : 1 = 2 := congrArg List.length h
  omega

end Eureka.QueryService
