import Mathlib

/-! Threads that share one mutex and wait on condition variables, over any step function. A
wait sleeps until it is notified and then tests its condition again; a sleeper may also wake
without a notification. The notifications of a section are explicit steps. -/
namespace Eureka.WaitNotify

/-- Where a thread stands with the mutex. -/
inductive LockPc
  | outside
  | testing
  | asleep
  | woken
  | notifying
  | unlocking
  deriving DecidableEq, Repr

def LockPc.holds : LockPc → Prop
  | .testing | .notifying | .unlocking => True
  | _ => False

/-- On the way to the body of a section. -/
def LockPc.waits : LockPc → Prop
  | .testing | .asleep | .woken => True
  | _ => False

/-- `inSection`: the next step of the thread is a section under the mutex. It waits until
`ready`, and where it `notifies` it wakes the thread that waits on the variable of its `peer`. -/
structure Protocol (σ τ : Type*) where
  step : τ → σ → Option σ
  inSection : σ → τ → Bool
  ready : σ → τ → Bool
  notifies : σ → τ → Bool
  peer : τ → τ

structure Monitor (σ τ : Type*) where
  system : σ
  owner : Option τ
  lock : τ → LockPc

variable {σ τ : Type*}

def Monitor.start (s : σ) : Monitor σ τ := ⟨s, none, fun _ => .outside⟩

/-- Where a thread stands after the body of its section. -/
def Protocol.bodyEnd (P : Protocol σ τ) (s : σ) (th : τ) : LockPc :=
  if P.notifies s th then .notifying else .unlocking

/-- What the steps must obey: an invariant, and that a step moves no other thread and lets a
condition of another thread become true only in a section that notifies it. -/
structure Disciplined (P : Protocol σ τ) (Inv : σ → Prop) : Prop where
  keeps : ∀ {s s' th}, Inv s → P.step th s = some s' → Inv s'
  others : ∀ {s s' th th'}, P.step th s = some s' → th' ≠ th →
    P.inSection s' th' = P.inSection s th'
  wakes : ∀ {s s' th th'}, P.step th s = some s' → th' ≠ th → P.ready s' th' = true →
    P.ready s th' = true ∨ P.inSection s th = true ∧ P.notifies s th = true ∧ P.peer th = th'
  enters : ∀ {s th}, Inv s → P.inSection s th = true → P.ready s th = true →
    (P.step th s).isSome = true

/-- The mutex has at most one holder, a waiting thread is at its section, and a sleeper whose
condition is true is about to be notified. -/
structure Sound (P : Protocol σ τ) (Inv : σ → Prop) (m : Monitor σ τ) : Prop where
  inv : Inv m.system
  owns : ∀ th, m.owner = some th ↔ (m.lock th).holds
  waits : ∀ th, (m.lock th).waits → P.inSection m.system th = true
  wakes : ∀ th, m.lock th = .asleep → P.ready m.system th = true →
    ∃ th', m.lock th' = .notifying ∧ P.peer th' = th

variable {P : Protocol σ τ} {Inv : σ → Prop} {m m' : Monitor σ τ}

/-- What a move of one thread may do to the others, and what it leaves of itself. -/
structure MovedBy (P : Protocol σ τ) (m m' : Monitor σ τ) (th : τ) : Prop where
  lock : ∀ th' ≠ th, m'.lock th' = m.lock th' ∨ m.lock th' = .asleep ∧ m'.lock th' = .woken
  owner : (m'.owner = some th ↔ (m'.lock th).holds) ∧
    ∀ th' ≠ th, (m'.owner = some th' ↔ m.owner = some th')
  section_self : (m'.lock th).waits → P.inSection m'.system th = true
  section_others : ∀ th' ≠ th, P.inSection m'.system th' = P.inSection m.system th'
  asleep_self : m'.lock th = .asleep → P.ready m'.system th = false
  ready_others : ∀ th' ≠ th, P.ready m'.system th' = true →
    P.ready m.system th' = true ∨ m'.lock th = .notifying ∧ P.peer th = th'
  notified : m.lock th = .notifying → m'.lock (P.peer th) ≠ .asleep

lemma MovedBy.holds_others {th th' : τ} (h : MovedBy P m m' th) (hne : th' ≠ th) :
    (m'.lock th').holds ↔ (m.lock th').holds := by
  rcases h.lock th' hne with heq | ⟨hold, hnew⟩
  · rw [heq]
  · rw [hold, hnew]
    rfl

lemma MovedBy.waits_others {th th' : τ} (h : MovedBy P m m' th) (hne : th' ≠ th) :
    (m'.lock th').waits ↔ (m.lock th').waits := by
  rcases h.lock th' hne with heq | ⟨hold, hnew⟩
  · rw [heq]
  · rw [hold, hnew]
    rfl

theorem Sound.moved {th : τ} (h : Sound P Inv m) (hmove : MovedBy P m m' th)
    (hinv : Inv m'.system) : Sound P Inv m' where
  inv := hinv
  owns th' := by
    by_cases heq : th' = th
    · rw [heq]
      exact hmove.owner.1
    · rw [hmove.owner.2 th' heq, hmove.holds_others heq]
      exact h.owns th'
  waits th' hw := by
    by_cases heq : th' = th
    · rw [heq] at hw ⊢
      exact hmove.section_self hw
    · rw [hmove.section_others th' heq]
      exact h.waits th' ((hmove.waits_others heq).mp hw)
  wakes th' hs hr := by
    by_cases heq : th' = th
    · rw [heq] at hs hr
      exact absurd hr (by rw [hmove.asleep_self hs]; exact Bool.false_ne_true)
    · rcases hmove.ready_others th' heq hr with hold | hnew
      · have hasleep : m.lock th' = .asleep := by
          rcases hmove.lock th' heq with hsame | ⟨-, hwoken⟩
          · rw [← hsame, hs]
          · exact absurd (hs.symm.trans hwoken) (by simp)
        obtain ⟨n, hn, hpeer⟩ := h.wakes th' hasleep hold
        by_cases hnth : n = th
        · rw [hnth] at hn hpeer
          exact absurd (hpeer ▸ hs) (hmove.notified hn)
        · refine ⟨n, ?_, hpeer⟩
          rcases hmove.lock n hnth with hsame | ⟨hsleeps, -⟩
          · rw [hsame, hn]
          · exact absurd (hn.symm.trans hsleeps) (by simp)
      · exact ⟨th, hnew⟩

section moves
variable {th : τ} {s : σ}

lemma bodyEnd_holds (P : Protocol σ τ) (s : σ) (th : τ) : (P.bodyEnd s th).holds := by
  unfold Protocol.bodyEnd
  split_ifs <;> trivial

lemma not_owner (h : Sound P Inv m) (hhold : ¬ (m.lock th).holds) : m.owner ≠ some th :=
  fun ho => hhold ((h.owns th).mp ho)

/-- While one thread holds the mutex no other does. -/
lemma owner_others (h : Sound P Inv m) (hhold : (m.lock th).holds) :
    ∀ th' ≠ th, m.owner ≠ some th' := by
  intro th' hne ho
  exact hne (Option.some.inj (ho.symm.trans ((h.owns th).mpr hhold)))

lemma movedBy_local (hd : Disciplined P Inv) (h : Sound P Inv m) (hpc : m.lock th = .outside)
    (hsection : ¬ P.inSection m.system th = true) (hstep : P.step th m.system = some s) :
    MovedBy P m { m with system := s } th where
  lock _ _ := Or.inl rfl
  owner := ⟨h.owns th, fun _ _ => Iff.rfl⟩
  section_self hw := absurd hw (by simp [hpc, LockPc.waits])
  section_others _ hne := hd.others hstep hne
  asleep_self hs := absurd (hpc.symm.trans hs) (by simp)
  ready_others th' hne hr :=
    (hd.wakes hstep hne hr).imp_right fun hnotify => absurd hnotify.1 hsection
  notified hn := absurd (hpc.symm.trans hn) (by simp)

end moves

variable [DecidableEq τ]

def Monitor.acquire (m : Monitor σ τ) (th : τ) : Option (Monitor σ τ) :=
  if m.owner.isNone then
    some { m with owner := some th, lock := Function.update m.lock th .testing }
  else none

def Monitor.wake (m : Monitor σ τ) (th : τ) : τ → LockPc :=
  if m.lock th = .asleep then Function.update m.lock th .woken else m.lock

/-- The next step of a thread, if it has one. Going to sleep and leaving the mutex is one step. -/
def Monitor.act (P : Protocol σ τ) (m : Monitor σ τ) (th : τ) : Option (Monitor σ τ) :=
  match m.lock th with
  | .outside =>
    if P.inSection m.system th then m.acquire th
    else (P.step th m.system).map fun s => { m with system := s }
  | .testing =>
    if P.ready m.system th then
      (P.step th m.system).map fun s =>
        { m with
          system := s
          lock := Function.update m.lock th (P.bodyEnd m.system th) }
    else some { m with owner := none, lock := Function.update m.lock th .asleep }
  | .asleep => none
  | .woken => m.acquire th
  | .notifying => some { m with lock := Function.update (m.wake (P.peer th)) th .unlocking }
  | .unlocking => some { m with owner := none, lock := Function.update m.lock th .outside }

inductive Move (P : Protocol σ τ) (m : Monitor σ τ) : Monitor σ τ → Prop
  | act {m' : Monitor σ τ} (th : τ) (h : m.act P th = some m') : Move P m m'
  | spurious (th : τ) (h : m.lock th = .asleep) :
      Move P m { m with lock := Function.update m.lock th .woken }

section threads
variable {th : τ} {s : σ}

lemma lock_update_others (l : τ → LockPc) (pc : LockPc) :
    ∀ th' ≠ th, Function.update l th pc th' = l th' ∨
      l th' = .asleep ∧ Function.update l th pc th' = .woken :=
  fun _ hne => Or.inl (Function.update_of_ne hne _ _)

lemma movedBy_acquire (hfree : m.owner = none)
    (hsection : P.inSection m.system th = true) (hpc : m.lock th = .outside ∨ m.lock th = .woken) :
    MovedBy P m { m with owner := some th, lock := Function.update m.lock th .testing } th where
  lock := lock_update_others _ _
  owner := by
    refine ⟨?_, fun th' hne => ?_⟩
    · simp [LockPc.holds]
    · rw [hfree]
      exact iff_of_false (fun ho => hne (Option.some.inj ho).symm) (by simp)
  section_self _ := hsection
  section_others _ _ := rfl
  asleep_self hs := absurd hs (by simp)
  ready_others _ _ hr := Or.inl hr
  notified hn := by
    rcases hpc with hout | hwoken
    · exact absurd (hn.symm.trans hout) (by simp)
    · exact absurd (hn.symm.trans hwoken) (by simp)

lemma movedBy_body (hd : Disciplined P Inv) (h : Sound P Inv m) (hpc : m.lock th = .testing)
    (hstep : P.step th m.system = some s) :
    MovedBy P m { m with
      system := s
      lock := Function.update m.lock th (P.bodyEnd m.system th) } th where
  lock := lock_update_others _ _
  owner := by
    have hhold : (m.lock th).holds := by rw [hpc]; trivial
    refine ⟨iff_of_true ((h.owns th).mpr hhold) ?_, fun _ _ => Iff.rfl⟩
    simpa using bodyEnd_holds P m.system th
  section_self hw := by
    dsimp only [Protocol.bodyEnd] at hw
    rw [Function.update_self] at hw
    split_ifs at hw
    · exact absurd hw id
    · exact absurd hw id
  section_others _ hne := hd.others hstep hne
  asleep_self hs := by
    have hhold := bodyEnd_holds P m.system th
    dsimp only at hs
    rw [Function.update_self] at hs
    rw [hs] at hhold
    exact absurd hhold id
  ready_others th' hne hr := by
    refine (hd.wakes hstep hne hr).imp_right fun hnotify => ⟨?_, hnotify.2.2⟩
    dsimp only
    rw [Function.update_self, Protocol.bodyEnd, if_pos hnotify.2.1]
  notified hn := absurd (hpc.symm.trans hn) (by simp)

lemma movedBy_sleep (h : Sound P Inv m) (hpc : m.lock th = .testing)
    (hready : ¬ P.ready m.system th = true) :
    MovedBy P m { m with owner := none, lock := Function.update m.lock th .asleep } th where
  lock := lock_update_others _ _
  owner := by
    have hhold : (m.lock th).holds := by rw [hpc]; trivial
    refine ⟨by simp [LockPc.holds], fun th' hne => ?_⟩
    exact iff_of_false (by simp) (owner_others h hhold th' hne)
  section_self _ := h.waits th (by rw [hpc]; trivial)
  section_others _ _ := rfl
  asleep_self _ := Bool.eq_false_iff.mpr hready
  ready_others _ _ hr := Or.inl hr
  notified hn := absurd (hpc.symm.trans hn) (by simp)

lemma wake_cases (m : Monitor σ τ) (th th' : τ) :
    m.wake th th' = m.lock th' ∨ m.lock th' = .asleep ∧ m.wake th th' = .woken := by
  unfold Monitor.wake
  split_ifs with hs
  · by_cases heq : th' = th
    · subst heq
      exact Or.inr ⟨hs, Function.update_self ..⟩
    · exact Or.inl (Function.update_of_ne heq _ _)
  · exact Or.inl rfl

lemma wake_ne_asleep (m : Monitor σ τ) (th : τ) : m.wake th th ≠ .asleep := by
  unfold Monitor.wake
  split_ifs with hs
  · rw [Function.update_self]
    simp
  · exact hs

lemma movedBy_notify (h : Sound P Inv m) (hpc : m.lock th = .notifying) :
    MovedBy P m { m with lock := Function.update (m.wake (P.peer th)) th .unlocking } th where
  lock th' hne := by
    dsimp only
    rw [Function.update_of_ne hne]
    exact wake_cases m (P.peer th) th'
  owner := by
    have hhold : (m.lock th).holds := by rw [hpc]; trivial
    refine ⟨iff_of_true ((h.owns th).mpr hhold) ?_, fun _ _ => Iff.rfl⟩
    dsimp only
    rw [Function.update_self]
    trivial
  section_self hw := absurd hw (by simp [LockPc.waits])
  section_others _ _ := rfl
  asleep_self hs := absurd hs (by simp)
  ready_others _ _ hr := Or.inl hr
  notified _ := by
    by_cases heq : P.peer th = th
    · simp [heq]
    · dsimp only
      rw [Function.update_of_ne heq]
      exact wake_ne_asleep m (P.peer th)

lemma movedBy_unlock (h : Sound P Inv m) (hpc : m.lock th = .unlocking) :
    MovedBy P m { m with owner := none, lock := Function.update m.lock th .outside } th where
  lock := lock_update_others _ _
  owner := by
    have hhold : (m.lock th).holds := by rw [hpc]; trivial
    refine ⟨by simp [LockPc.holds], fun th' hne => ?_⟩
    exact iff_of_false (by simp) (owner_others h hhold th' hne)
  section_self hw := absurd hw (by simp [LockPc.waits])
  section_others _ _ := rfl
  asleep_self hs := absurd hs (by simp)
  ready_others _ _ hr := Or.inl hr
  notified hn := absurd (hpc.symm.trans hn) (by simp)

lemma movedBy_spurious (h : Sound P Inv m) (hpc : m.lock th = .asleep) :
    MovedBy P m { m with lock := Function.update m.lock th .woken } th where
  lock := lock_update_others _ _
  owner := by
    have hnot : ¬ (m.lock th).holds := by rw [hpc]; exact id
    have howner := not_owner h hnot
    refine ⟨iff_of_false howner ?_, fun _ _ => Iff.rfl⟩
    dsimp only
    rw [Function.update_self]
    exact id
  section_self _ := h.waits th (by rw [hpc]; trivial)
  section_others _ _ := rfl
  asleep_self hs := absurd hs (by simp)
  ready_others _ _ hr := Or.inl hr
  notified hn := absurd (hpc.symm.trans hn) (by simp)

end threads

lemma acquire_eq {th : τ} (h : m.acquire th = some m') : m.owner = none ∧
    m' = { m with owner := some th, lock := Function.update m.lock th .testing } := by
  unfold Monitor.acquire at h
  split_ifs at h with hfree
  exact ⟨Option.isNone_iff_eq_none.mp hfree, (Option.some.inj h).symm⟩

/-- A move is invisible to the system or a step of it. -/
theorem Move.refines (h : Move P m m') :
    m'.system = m.system ∨ ∃ th, P.step th m.system = some m'.system := by
  cases h with
  | spurious th h => exact Or.inl rfl
  | act th h =>
    unfold Monitor.act at h
    split at h
    case h_1 =>
      split_ifs at h with hsection
      · rw [(acquire_eq h).2]
        exact Or.inl rfl
      · obtain ⟨s, hs, rfl⟩ := Option.map_eq_some_iff.mp h
        exact Or.inr ⟨th, hs⟩
    case h_2 =>
      split_ifs at h with hready
      · obtain ⟨s, hs, rfl⟩ := Option.map_eq_some_iff.mp h
        exact Or.inr ⟨th, hs⟩
      · rw [← Option.some.inj h]
        exact Or.inl rfl
    case h_3 => exact absurd h (by simp)
    case h_4 =>
      rw [(acquire_eq h).2]
      exact Or.inl rfl
    all_goals
      rw [← Option.some.inj h]
      exact Or.inl rfl

lemma movedBy_of_move (hd : Disciplined P Inv) (h : Sound P Inv m) (hmove : Move P m m') :
    ∃ th, MovedBy P m m' th := by
  cases hmove with
  | spurious th hpc => exact ⟨th, movedBy_spurious h hpc⟩
  | act th hact =>
    refine ⟨th, ?_⟩
    unfold Monitor.act at hact
    split at hact
    case h_1 hpc =>
      split_ifs at hact with hsection
      · obtain ⟨hfree, rfl⟩ := acquire_eq hact
        exact movedBy_acquire hfree hsection (Or.inl hpc)
      · obtain ⟨s, hs, rfl⟩ := Option.map_eq_some_iff.mp hact
        exact movedBy_local hd h hpc hsection hs
    case h_2 hpc =>
      split_ifs at hact with hready
      · obtain ⟨s, hs, rfl⟩ := Option.map_eq_some_iff.mp hact
        exact movedBy_body hd h hpc hs
      · obtain rfl := Option.some.inj hact
        exact movedBy_sleep h hpc hready
    case h_3 => exact absurd hact (by simp)
    case h_4 hpc =>
      obtain ⟨hfree, rfl⟩ := acquire_eq hact
      exact movedBy_acquire hfree (h.waits th (by rw [hpc]; trivial)) (Or.inr hpc)
    case h_5 hpc =>
      obtain rfl := Option.some.inj hact
      exact movedBy_notify h hpc
    case h_6 hpc =>
      obtain rfl := Option.some.inj hact
      exact movedBy_unlock h hpc

theorem Sound.move (hd : Disciplined P Inv) (h : Sound P Inv m) (hmove : Move P m m') :
    Sound P Inv m' := by
  obtain ⟨th, hth⟩ := movedBy_of_move hd h hmove
  refine h.moved hth ?_
  rcases hmove.refines with hsame | ⟨th', hstep⟩
  · rw [hsame]
    exact h.inv
  · exact hd.keeps h.inv hstep

/-- Every interleaving of a disciplined protocol is sound throughout. -/
theorem Sound.run (hd : Disciplined P Inv) (h : Sound P Inv m)
    (hrun : Relation.ReflTransGen (Move P) m m') : Sound P Inv m' := by
  induction hrun with
  | refl => exact h
  | tail _ hmove ih => exact ih.move hd hmove

end Eureka.WaitNotify
