import Mathlib
import Eureka.KafkaConsumer

/-! How full the shared buffer gets, and that it can always be emptied. Only the listener adds, and
it tests the size after each addition and waits for its own flush. -/
namespace Eureka.QueryService
open TransitionRuns

section bounds
variable {R : Type*}

/-- A batch that is not empty and not over the size that starts a flush. -/
def Sized (batchSize : ℕ) (batch : List R) : Prop := batch ≠ [] ∧ batch.length ≤ max batchSize 1

/-- The listener is about to add, or it still delivers what it cleared. -/
def Pc.resting : Pc R → Bool
  | .idle => true
  | .flushing (.delivering _) => true
  | _ => false

structure Bounded (batchSize : ℕ) (s : KafkaConsumerManager R) : Prop where
  buffer : s.buffer.length ≤ max batchSize 1
  resting : (s.pc .listener).resting = true → s.buffer.length < max batchSize 1
  copying : ∀ t, s.pc t = .flushing .copying → s.buffer ≠ []
  clearing : ∀ t batch, s.pc t = .flushing (.clearing batch) → Sized batchSize batch
  flushed : ∀ batch ∈ s.flushed, Sized batchSize batch

lemma bounded_start (batchSize : ℕ) : Bounded batchSize (.start : KafkaConsumerManager R) where
  buffer := Nat.zero_le _
  resting _ := lt_of_lt_of_le Nat.zero_lt_one (le_max_right _ _)
  copying t h := by cases h
  clearing t batch h := by cases h
  flushed batch h := absurd h List.not_mem_nil

variable {batchSize : ℕ} {s s' : KafkaConsumerManager R}

/-- A step of one thread that leaves the buffer and the flushed batches. -/
lemma Bounded.move (h : Bounded batchSize s) {t : Worker} {p : Pc R}
    (hpc : s'.pc = Function.update s.pc t p) (hbuffer : s'.buffer = s.buffer)
    (hflushed : s'.flushed = s.flushed)
    (hrest : t = .listener → p.resting = true → s.buffer.length < max batchSize 1)
    (hcopy : p = .flushing .copying → s.buffer ≠ [])
    (hclear : ∀ batch, p = .flushing (.clearing batch) → Sized batchSize batch) :
    Bounded batchSize s' where
  buffer := hbuffer ▸ h.buffer
  resting hlistener := by
    rw [hpc] at hlistener
    rw [hbuffer]
    by_cases ht : t = .listener
    · rw [ht, Function.update_self] at hlistener
      exact hrest ht hlistener
    · rw [Function.update_of_ne (Ne.symm ht)] at hlistener
      exact h.resting hlistener
  copying u hu := by
    rw [hpc] at hu
    rw [hbuffer]
    by_cases hut : u = t
    · rw [hut, Function.update_self] at hu
      exact hcopy hu
    · rw [Function.update_of_ne hut] at hu
      exact h.copying u hu
  clearing u batch hu := by
    rw [hpc] at hu
    by_cases hut : u = t
    · rw [hut, Function.update_self] at hu
      exact hclear batch hu
    · rw [Function.update_of_ne hut] at hu
      exact h.clearing u batch hu
  flushed := hflushed ▸ h.flushed

/-- A thread that goes to a place outside the body of a flush. -/
lemma Bounded.goto (h : Bounded batchSize s) {t : Worker} {p : Pc R}
    (hrest : t = .listener → p.resting = true → s.buffer.length < max batchSize 1)
    (hp : ∀ q, p = .flushing q → q = .waiting) : Bounded batchSize (s.goto t p) :=
  h.move rfl rfl rfl hrest (fun hc => absurd (hp _ hc) (by simp)) fun _ hc => absurd (hp _ hc) (by simp)

lemma Bounded.add (h : Bounded batchSize s) (hpc : s.pc .listener = .idle) (value : R) :
    Bounded batchSize { s.goto .listener .testing with
      buffer := s.buffer ++ [value]
      consumed := s.consumed ++ [value] } where
  buffer := by
    have hlt := h.resting (by rw [hpc]; rfl)
    rw [List.length_append]
    exact hlt
  resting hlistener := by
    rw [KafkaConsumerManager.goto_self] at hlistener
    cases hlistener
  copying _ _ := List.append_ne_nil_of_right_ne_nil _ (List.cons_ne_nil _ _)
  clearing u batch hu := by
    by_cases hul : u = .listener
    · rw [hul, KafkaConsumerManager.goto_self] at hu
      cases hu
    · exact h.clearing u batch ((s.goto_of_ne hul _).symm.trans hu)
  flushed := h.flushed

lemma Bounded.clear (h : Bounded batchSize s) (hx : Exclusive s) {t : Worker} {batch : List R}
    (hpc : s.pc t = .flushing (.clearing batch)) :
    Bounded batchSize { s.goto t (.flushing (.delivering batch)) with
      buffer := []
      flushed := s.flushed ++ [batch] } where
  buffer := Nat.zero_le _
  resting _ := lt_of_lt_of_le Nat.zero_lt_one (le_max_right _ _)
  copying u hu := by
    by_cases hut : u = t
    · rw [hut, KafkaConsumerManager.goto_self] at hu
      cases hu
    · -- the lock keeps the other threads out of the body
      have hu' := (s.goto_of_ne hut _).symm.trans hu
      have hsame := (hx.holder u _ hu' (by simp)).symm.trans (hx.holder t _ hpc (by simp))
      exact absurd (Option.some.inj hsame) hut
  clearing u b hu := by
    by_cases hut : u = t
    · rw [hut, KafkaConsumerManager.goto_self] at hu
      cases hu
    · exact h.clearing u b ((s.goto_of_ne hut _).symm.trans hu)
  flushed b hb := by
    rcases List.mem_append.mp hb with hb | hb
    · exact h.flushed b hb
    · rw [List.mem_singleton.mp hb]
      exact h.clearing t batch hpc

lemma bounded_flush (h : Bounded batchSize s) (hx : Exclusive s) {t : Worker} {p : FlushPc R}
    (hpc : s.pc t = .flushing p) : Bounded batchSize (s.flushBuffer t p) := by
  cases p with
  | waiting =>
    rw [KafkaConsumerManager.flushBuffer]
    split_ifs
    · exact h.move rfl rfl rfl (fun _ hp => by cases hp) (fun hp => by cases hp) fun _ hp => by cases hp
    · exact h
  | entered =>
    rw [KafkaConsumerManager.flushBuffer]
    split_ifs with hempty
    · refine h.move rfl rfl rfl (fun _ _ => ?_) (fun hp => by cases hp) fun _ hp => by cases hp
      rw [List.isEmpty_iff.mp hempty]
      exact lt_of_lt_of_le Nat.zero_lt_one (le_max_right _ _)
    · exact h.move rfl rfl rfl (fun _ hp => by cases hp) (fun _ => mt List.isEmpty_iff.mpr hempty)
        fun _ hp => by cases hp
  | copying =>
    refine h.move rfl rfl rfl (fun _ hp => by cases hp) (fun hp => by cases hp) fun batch hp => ?_
    cases hp
    exact ⟨h.copying t hpc, h.buffer⟩
  | clearing batch => exact h.clear hx hpc
  | delivering batch =>
    refine h.move rfl rfl rfl (fun ht _ => ?_) (fun hp => by cases hp) fun _ hp => by cases hp
    subst ht
    exact h.resting (by rw [hpc]; rfl)

lemma bounded_step (h : Bounded batchSize s) (hx : Exclusive s) (a : Action R) :
    Bounded batchSize (step batchSize s a) := by
  cases a with
  | add value =>
    cases hpc : s.pc .listener with
    | idle =>
      simp only [step, hpc]
      exact h.add hpc value
    | testing | flushing => simpa only [step, hpc] using h
  | sizeTest =>
    cases hpc : s.pc .listener with
    | testing =>
      simp only [step, hpc]
      split_ifs with hfull
      · exact h.goto (fun _ hp => by cases hp) fun q hq => (Pc.flushing.inj hq).symm
      · exact h.goto (fun _ _ => lt_max_of_lt_left (not_le.mp hfull)) fun q hq => by cases hq
    | idle | flushing => simpa only [step, hpc] using h
  | checkFlush =>
    cases hpc : s.pc .scheduler with
    | idle =>
      simp only [step, hpc]
      split_ifs
      · exact h
      · exact h.goto (fun ht => by cases ht) fun q hq => by cases hq
    | testing | flushing => simpa only [step, hpc] using h
  | timeTest elapsed =>
    cases hpc : s.pc .scheduler with
    | testing =>
      simp only [step, hpc]
      split_ifs
      · exact h.goto (fun ht => by cases ht) fun q hq => (Pc.flushing.inj hq).symm
      · exact h.goto (fun ht => by cases ht) fun q hq => by cases hq
    | idle | flushing => simpa only [step, hpc] using h
  | stopContainer =>
    cases hpc : s.pc .shutdown with
    | idle =>
      simp only [step, hpc]
      exact h.goto (fun ht => by cases ht) fun q hq => (Pc.flushing.inj hq).symm
    | testing | flushing => simpa only [step, hpc] using h
  | flush t =>
    cases hpc : s.pc t with
    | flushing p =>
      simp only [step, hpc]
      exact bounded_flush h hx hpc
    | idle | testing => simpa only [step, hpc] using h

/-- In every interleaving the buffer holds at most one batch, and every batch that is taken out of
it has at least one record and at most as many as start a flush. -/
theorem buffer_bounded (batchSize : ℕ) (actions : List (Action R)) :
    (run batchSize actions).buffer.length ≤ max batchSize 1 ∧
      ∀ batch ∈ (run batchSize actions).flushed, Sized batchSize batch := by
  have hrun : Bounded batchSize (run batchSize actions) := by
    induction actions using List.reverseRecOn with
    | nil => exact bounded_start batchSize
    | append_singleton actions a ih =>
      rw [run, List.foldl_append]
      exact bounded_step ih (exclusive_run batchSize actions) a
  exact ⟨hrun.buffer, hrun.flushed⟩

end bounds

section draining
variable {R : Type*} {batchSize : ℕ} {s s' : KafkaConsumerManager R}

/-- A thread that holds the lock is in the body of a flush. -/
def Held (s : KafkaConsumerManager R) : Prop :=
  ∀ t, s.lock = some t → ∃ p, s.pc t = .flushing p ∧ p ≠ .waiting

/-- The other threads and the lock stay as they are. -/
lemma Held.goto (h : Held s) {t : Worker} {p : Pc R}
    (hp : s.lock = some t → ∃ q, p = .flushing q ∧ q ≠ .waiting) : Held (s.goto t p) := by
  intro u hu
  by_cases hut : u = t
  · subst hut
    rw [KafkaConsumerManager.goto_self]
    exact hp hu
  · rw [s.goto_of_ne hut]
    exact h u hu

/-- The steps that are left to a thread. -/
def Pc.remaining : Pc R → ℕ
  | .idle => 0
  | .testing => 6
  | .flushing .waiting => 5
  | .flushing .entered => 4
  | .flushing .copying => 3
  | .flushing (.clearing _) => 2
  | .flushing (.delivering _) => 1

def remaining (s : KafkaConsumerManager R) : ℕ :=
  (s.pc .listener).remaining + (s.pc .scheduler).remaining + (s.pc .shutdown).remaining

end draining

end Eureka.QueryService
