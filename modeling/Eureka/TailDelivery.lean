import Mathlib
import Eureka.TailHandler
import Eureka.TransitionRuns

/-! Runs of `RealTimeLogBroadcaster`: sessions come and go between broadcasts. What one session
receives is what it would receive on its own, whatever the other sessions do and in whatever order
the map lists them. -/
namespace Eureka.Gateway
open WordBytes JavaText TransitionRuns

abbrev Subscription := Session × TailSubscription

/-- The order in which the map lists its entries. -/
structure SubscriptionOrder where
  order : List Subscription → List Subscription
  perm : ∀ entries, (order entries).Perm entries

inductive TailAction
  | register (session : Session) (query : JString)
  | deregister (session : Session)
  | network (id : ℕ) (isOpen sendFails : Bool)
  | rehash (entries : SubscriptionOrder)
  | broadcast (currentTimeMillis : Word) (rawLogLines : List JString)

/-- The connection of a session changes. -/
def Session.reconnect (session : Session) (isOpen sendFails : Bool) : Session :=
  { session with isOpen := isOpen, sendFails := sendFails }

/-- A constructor that throws leaves the map as it was. -/
def Broadcaster.step (readMap : ReadMap) (b : Broadcaster) : TailAction → Broadcaster
  | .register session query => (b.registerSession session query).getD b
  | .deregister session => b.remove session
  | .network id isOpen sendFails =>
    { b with subscriptions := b.subscriptions.map fun s =>
        if s.1.id = id then (s.1.reconnect isOpen sendFails, s.2) else s }
  | .rehash entries => { b with subscriptions := entries.order b.subscriptions }
  | .broadcast now lines => (broadcastLogs readMap now b lines).1

/-- One subscriber on its own: its subscription and the messages that it has received. -/
structure Tail where
  subscription : Option Subscription
  received : List (List (Word × JString))

/-- The line with its timestamp, where the subscription selects it. -/
def tailValue (now : Word) (sub : TailSubscription) (e : ParsedLogEntry) : Option (Word × JString) :=
  e.map.bind fun log =>
    if fieldAccepted log "status" sub.statusTarget isTarget &&
        fieldAccepted log "latency" sub.latencyTarget isAbove &&
        sub.lineFilter.all (contains (messageText log e.rawLine)) then
      some (nsTimestamp now log, e.rawLine)
    else none

/-- What the subscription selects of a batch, in the order of the batch. -/
def selectedLines (readMap : ReadMap) (now : Word) (sub : TailSubscription) (lines : List JString) :
    List (Word × JString) :=
  lines.filterMap fun line => tailValue now sub (parseEntry readMap line)

/-- A message reaches an open session that accepts it; a closed session is dropped. -/
def Tail.take (t : Tail) (session : Session) (values : List (Word × JString)) : Tail :=
  if session.isOpen then
    if values.isEmpty ∨ session.sendFails then t else { t with received := t.received ++ [values] }
  else { t with subscription := none }

def Tail.step (readMap : ReadMap) (id : ℕ) (t : Tail) : TailAction → Tail
  | .register session query =>
    if session.id = id then
      match TailSubscription.create query with
      | none => t
      | some sub => { t with subscription := some (session, sub) }
    else t
  | .deregister session => if session.id = id then { t with subscription := none } else t
  | .network i isOpen sendFails =>
    if i = id then
      { t with subscription := t.subscription.map fun s => (s.1.reconnect isOpen sendFails, s.2) }
    else t
  | .rehash _ => t
  | .broadcast now lines =>
    if lines.isEmpty then t
    else
      match t.subscription with
      | none => t
      | some (session, sub) => t.take session (selectedLines readMap now sub lines)

/-- What a broadcaster holds for one session. -/
def Broadcaster.tail (b : Broadcaster) (id : ℕ) : Tail :=
  ⟨b.subscriptions.find? (·.1.id = id), (b.sent.filter (·.1 = id)).map Prod.snd⟩

/-- The keys of the map. -/
def Broadcaster.ids (b : Broadcaster) : List ℕ := b.subscriptions.map (·.1.id)

/-- A broadcast meets no line that makes it throw. -/
def SafeBroadcast (readMap : ReadMap) (b : Broadcaster) : TailAction → Prop
  | .broadcast _ lines => BatchSafe readMap b lines
  | _ => True

variable {readMap : ReadMap} {b : Broadcaster} {now : Word} {lines : List JString} {id : ℕ}

section messages
variable {sub : TailSubscription} {e : ParsedLogEntry} {es : List ParsedLogEntry}

lemma entryValue_safe (now : Word) (h : EntrySafe sub e) :
    entryValue now sub e = .ok (tailValue now sub e) := by
  obtain ⟨log, hlog, hlabels⟩ := h
  obtain ⟨rawLine, map⟩ := e
  obtain rfl : map = some log := hlog
  rw [sub.matches_some log rawLine] at hlabels
  rw [entryValue, sub.matches_some log rawLine, tailValue, Option.bind_some]
  cases hselected : fieldAccepted log "status" sub.statusTarget isTarget &&
      fieldAccepted log "latency" sub.latencyTarget isAbove &&
      sub.lineFilter.all (contains (messageText log rawLine)) with
  | false => rfl
  | true =>
    have htext := (collectLabels_isOk log).mpr (hlabels (congrArg Except.ok hselected))
    cases hcollect : collectLabels log with
    | error e =>
      rw [hcollect] at htext
      cases htext
    | ok labels =>
      simp only [hcollect, if_true]
      rfl

/-- Of a safe batch the loop collects what the subscription selects. -/
lemma collectValues_safe (now : Word) (h : ∀ e ∈ es, EntrySafe sub e) :
    collectValues now sub es = .ok (es.filterMap (tailValue now sub)) := by
  induction es with
  | nil => rfl
  | cons e es ih =>
    obtain ⟨he, hes⟩ := List.forall_mem_cons.mp h
    rw [collectValues, entryValue_safe now he, ih hes, List.filterMap_cons]
    cases tailValue now sub e <;> rfl

end messages

section subscriptions
variable {session : Session}

lemma find_iff {subs : List Subscription} (h : (subs.map (·.1.id)).Nodup) (id : ℕ) (s : Subscription) :
    subs.find? (·.1.id = id) = some s ↔ s ∈ subs ∧ s.1.id = id := by
  constructor
  · intro hfind
    exact ⟨List.mem_of_find?_eq_some hfind, by simpa using List.find?_some hfind⟩
  · rintro ⟨hmem, rfl⟩
    cases hfind : subs.find? (·.1.id = s.1.id) with
    | none =>
      have hother := List.find?_eq_none.mp hfind s hmem
      exact absurd (decide_eq_true rfl) hother
    | some s' =>
      have hid : s'.1.id = s.1.id := by simpa using List.find?_some hfind
      exact congrArg some (List.inj_on_of_nodup_map h (List.mem_of_find?_eq_some hfind) hmem hid)

lemma find_remove (subs : List Subscription) (session : Session) (id : ℕ) :
    (subs.filter fun s => s.1.id ≠ session.id).find? (·.1.id = id) =
      if session.id = id then none else subs.find? (·.1.id = id) := by
  rw [List.find?_filter]
  split_ifs with hid
  · refine List.find?_eq_none.mpr fun s _ => ?_
    simp [hid]
  · refine congrArg (fun p => subs.find? p) (funext fun s => ?_)
    by_cases hs : s.1.id = id
    · simp [hs, Ne.symm hid]
    · simp [hs]

lemma tail_remove (b : Broadcaster) (session : Session) (id : ℕ) :
    (b.remove session).tail id =
      if session.id = id then { b.tail id with subscription := none } else b.tail id := by
  rw [Broadcaster.tail, Broadcaster.remove, find_remove]
  split_ifs <;> rfl

lemma tail_sendMessage (b : Broadcaster) (session : Session) (values : List (Word × JString)) (id : ℕ) :
    (b.sendMessage session values).tail id =
      if session.id = id ∧ ¬ (values.isEmpty = true ∨ session.sendFails = true) then
        { b.tail id with received := (b.tail id).received ++ [values] }
      else b.tail id := by
  rw [Broadcaster.sendMessage]
  by_cases hkept : values.isEmpty = true ∨ session.sendFails = true
  · rw [if_pos hkept, if_neg fun h => h.2 hkept]
  · rw [if_neg hkept]
    by_cases hid : session.id = id
    · rw [if_pos ⟨hid, hkept⟩]
      simp [Broadcaster.tail, hid]
    · rw [if_neg fun h => hid h.1]
      simp [Broadcaster.tail, hid]

end subscriptions

/-- A safe broadcast does to each session what its own subscription says. -/
lemma tail_broadcastLoop {es : List ParsedLogEntry} {subs : List Subscription}
    (hids : (subs.map (·.1.id)).Nodup)
    (h : ∀ s ∈ subs, s.1.isOpen = true → ∀ e ∈ es, EntrySafe s.2 e) (b : Broadcaster) (id : ℕ) :
    (broadcastLoop now es subs b).1.tail id =
      match subs.find? (·.1.id = id) with
      | none => b.tail id
      | some (session, sub) => (b.tail id).take session (es.filterMap (tailValue now sub)) := by
  induction subs generalizing b with
  | nil => rfl
  | cons s subs ih =>
    obtain ⟨session, sub⟩ := s
    obtain ⟨hnew, hids⟩ := List.nodup_cons.mp hids
    obtain ⟨hsafe, hrest⟩ := List.forall_mem_cons.mp h
    have hlater : session.id = id → subs.find? (·.1.id = id) = none := by
      rintro rfl
      refine List.find?_eq_none.mpr fun s hs hid => hnew ?_
      exact List.mem_map.mpr ⟨s, hs, of_decide_eq_true hid⟩
    rw [broadcastLoop]
    cases hopen : session.isOpen with
    | false =>
      rw [if_neg Bool.false_ne_true, ih hids hrest, tail_remove]
      by_cases hid : session.id = id
      · simp [hlater hid, hid, Tail.take, hopen]
      · simp [hid]
    | true =>
      rw [if_pos rfl, collectValues_safe now (hsafe hopen)]
      simp only [ih hids hrest, tail_sendMessage]
      by_cases hid : session.id = id
      · rw [hlater hid, List.find?_cons_of_pos (by simpa using hid)]
        simp only [hid, true_and, Tail.take, hopen, if_true]
        exact ite_not _ _ _
      · rw [List.find?_cons_of_neg (by simpa using hid), if_neg fun h => hid h.1]

/-- The lines that an open session selects are those of its own subscription. -/
lemma tail_broadcastLogs (hids : b.ids.Nodup) (h : BatchSafe readMap b lines) (id : ℕ) :
    (broadcastLogs readMap now b lines).1.tail id =
      (b.tail id).step readMap id (.broadcast now lines) := by
  rw [Tail.step, broadcastLogs]
  cases hlines : lines.isEmpty with
  | true => simp
  | false =>
    cases hsubs : b.subscriptions.isEmpty with
    | true => simp [Broadcaster.tail, List.isEmpty_iff.mp hsubs]
    | false =>
      have hsafe : ∀ s ∈ b.subscriptions, s.1.isOpen = true →
          ∀ e ∈ lines.map (parseEntry readMap), EntrySafe s.2 e :=
        fun s hs hopen => List.forall_mem_map.mpr (h s hs hopen)
      simp only [Bool.false_eq_true, or_self, if_false]
      rw [tail_broadcastLoop hids hsafe]
      simp only [Broadcaster.tail, selectedLines, List.filterMap_map, Function.comp_def]

section keys
variable {session : Session} {sub : TailSubscription}

lemma ids_remove (h : b.ids.Nodup) (session : Session) : (b.remove session).ids.Nodup :=
  h.sublist (List.filter_sublist.map _)

lemma ids_put (h : b.ids.Nodup) (session : Session) (sub : TailSubscription) :
    (b.put session sub).ids.Nodup := by
  have hnew : session.id ∉ (b.remove session).ids := by
    intro hmem
    obtain ⟨s, hs, hid⟩ := List.mem_map.mp hmem
    exact absurd hid (of_decide_eq_true (List.mem_filter.mp hs).2)
  rw [Broadcaster.ids, Broadcaster.put, List.map_append]
  exact (ids_remove h session).append (List.nodup_singleton _) (List.disjoint_singleton.mpr hnew)

lemma ids_broadcastLoop (es : List ParsedLogEntry) (subs : List Subscription) {b : Broadcaster}
    (h : b.ids.Nodup) : (broadcastLoop now es subs b).1.ids.Nodup := by
  induction subs generalizing b with
  | nil => exact h
  | cons s subs ih =>
    obtain ⟨session, sub⟩ := s
    rw [broadcastLoop]
    split_ifs with hopen
    · cases collectValues now sub es with
      | error e => exact h
      | ok values =>
        refine ih ?_
        rw [Broadcaster.sendMessage]
        split_ifs
        · exact h
        · exact h
    · exact ih (ids_remove h session)

/-- The map holds each session once. -/
lemma ids_step (h : b.ids.Nodup) (a : TailAction) : (b.step readMap a).ids.Nodup := by
  cases a with
  | register session query =>
    rw [Broadcaster.step, Broadcaster.registerSession]
    cases TailSubscription.create query with
    | none => exact h
    | some sub => exact ids_put h session sub
  | deregister session => exact ids_remove h session
  | network i isOpen sendFails =>
    have hsame : (b.step readMap (.network i isOpen sendFails)).ids = b.ids := by
      rw [Broadcaster.ids, Broadcaster.step, List.map_map]
      refine List.map_congr_left fun s _ => ?_
      rw [Function.comp_apply]
      split_ifs <;> rfl
    rwa [hsame]
  | rehash entries => exact ((entries.perm b.subscriptions).map _).nodup_iff.mpr h
  | broadcast now lines =>
    rw [Broadcaster.step, broadcastLogs]
    split_ifs
    · exact h
    · exact ids_broadcastLoop _ _ h

lemma tail_put (b : Broadcaster) (session : Session) (sub : TailSubscription) (id : ℕ) :
    (b.put session sub).tail id =
      if session.id = id then { b.tail id with subscription := some (session, sub) }
      else b.tail id := by
  rw [Broadcaster.tail, Broadcaster.put, Broadcaster.remove, List.find?_append, find_remove]
  split_ifs with hid
  · simp [hid, Broadcaster.tail]
  · simp [hid, Broadcaster.tail]

lemma find_map_other {subs : List Subscription} {f : Subscription → Subscription}
    (hf : ∀ s, (f s).1.id = s.1.id) (id : ℕ) :
    (subs.map f).find? (·.1.id = id) = (subs.find? (·.1.id = id)).map f := by
  rw [List.find?_map]
  simp only [Function.comp_def, hf]

end keys

/-- One step of the broadcaster is one step of each of its tails. -/
lemma tail_step (hids : b.ids.Nodup) (a : TailAction) (h : SafeBroadcast readMap b a) (id : ℕ) :
    (b.step readMap a).tail id = (b.tail id).step readMap id a := by
  cases a with
  | register session query =>
    rw [Broadcaster.step, Broadcaster.registerSession, Tail.step]
    cases TailSubscription.create query with
    | none => simp
    | some sub => exact tail_put b session sub id
  | deregister session => exact tail_remove b session id
  | network i isOpen sendFails =>
    have hkept : ∀ s : Subscription,
        (if s.1.id = i then (s.1.reconnect isOpen sendFails, s.2) else s).1.id = s.1.id := by
      intro s
      split_ifs <;> rfl
    rw [Broadcaster.tail, Broadcaster.step, find_map_other hkept, Tail.step]
    cases hs : b.subscriptions.find? (·.1.id = id) with
    | none => simp [Broadcaster.tail, hs]
    | some s =>
      have hid : s.1.id = id := by simpa using List.find?_some hs
      simp only [Option.map_some, hid, eq_comm (a := id)]
      split_ifs <;> simp [Broadcaster.tail, hs]
  | rehash entries =>
    have hperm := entries.perm b.subscriptions
    have hnodup : ((entries.order b.subscriptions).map (·.1.id)).Nodup :=
      (hperm.map _).nodup_iff.mpr hids
    have hsame : (entries.order b.subscriptions).find? (·.1.id = id) =
        b.subscriptions.find? (·.1.id = id) := by
      refine Option.ext fun s => ?_
      rw [find_iff hnodup, find_iff hids, hperm.mem_iff]
    rw [Broadcaster.tail, Broadcaster.step, hsame]
    rfl
  | broadcast now lines => exact tail_broadcastLogs hids h id

/-- What a session receives is what it would receive on its own: over every run whose broadcasts
meet no line that throws, the other sessions and the order of the map make no difference. -/
theorem tail_isolated (readMap : ReadMap) (actions : List TailAction)
    (h : ∀ k (hk : k < actions.length),
      SafeBroadcast readMap ((actions.take k).foldl (Broadcaster.step readMap) noTails) actions[k])
    (id : ℕ) :
    (actions.foldl (Broadcaster.step readMap) noTails).tail id =
      actions.foldl (Tail.step readMap id) ⟨none, []⟩ := by
  have hstep : ∀ (b : Broadcaster) (t : Tail) (a : TailAction), b.ids.Nodup ∧ b.tail id = t →
      SafeBroadcast readMap b a →
        (b.step readMap a).ids.Nodup ∧ (b.step readMap a).tail id = t.step readMap id a := by
    rintro b t a ⟨hids, rfl⟩ hsafe
    exact ⟨ids_step hids a, tail_step hids a hsafe id⟩
  have hstart : noTails.ids.Nodup ∧ noTails.tail id = ⟨none, []⟩ := ⟨List.nodup_nil, rfl⟩
  exact (foldl_simulates hstep hstart h).2

section samples

lemma textLabels_fallback : TextLabels fallbackMap := by
  intro field _ value hvalue
  cases hvalue

/-- Lines that are no JSON never make a broadcast throw. -/
lemma batchSafe_plain (b : Broadcaster) (lines : List JString) :
    BatchSafe (fun _ => none) b lines := by
  intro s _ _ line _
  exact ⟨fallbackMap, rfl, fun _ => textLabels_fallback⟩

def twoTails : List TailAction :=
  [.register tailSession everyLine, .register ⟨2, true, true⟩ everyLine,
    .broadcast 5 [java "first"], .deregister tailSession, .broadcast 6 [java "second"]]

/-- The first session receives the line that is broadcast while it is registered. -/
theorem tail_isolated_sample :
    (twoTails.foldl (Broadcaster.step fun _ => none) noTails).tail 1 =
      ⟨none, [[(5000000#64, java "first")]]⟩ := by
  have hsafe : ∀ k (hk : k < twoTails.length), SafeBroadcast (fun _ => none)
      ((twoTails.take k).foldl (Broadcaster.step fun _ => none) noTails) twoTails[k] := by
    intro k hk
    cases hk' : twoTails[k] with
    | broadcast now lines => exact batchSafe_plain _ lines
    | _ => trivial
  rw [tail_isolated _ twoTails hsafe 1]
  have hcreate : TailSubscription.create everyLine = some ⟨everyLine, [], none, none, none⟩ := by
    decide +kernel
  simp only [twoTails, List.foldl_cons, List.foldl_nil, Tail.step, hcreate]
  rfl

end samples

end Eureka.Gateway
