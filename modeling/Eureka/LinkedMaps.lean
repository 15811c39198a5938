import Mathlib

/-! Maps that keep their keys in order of insertion and can hold null values, which count as absent
when a value is put. -/
namespace Eureka.LinkedMaps
variable {κ ν : Type*} [DecidableEq κ]

/-- `none` where the key is absent. -/
def entryAt (entries : List (κ × Option ν)) (k : κ) : Option (Option ν) := entries.lookup k

/-- A null where the key is absent or its value is null. -/
def valueAt (entries : List (κ × Option ν)) (k : κ) : Option ν := (entryAt entries k).join

/-- A value goes to the key that lacks one, where it stands, or behind all keys. -/
def put (k : κ) (v : Option ν) : List (κ × Option ν) → List (κ × Option ν)
  | [] => [(k, v)]
  | e :: es => if e.1 = k then (e.1, e.2.or v) :: es else e :: put k v es

lemma valueAt_cons (e : κ × Option ν) (es : List (κ × Option ν)) (k : κ) :
    valueAt (e :: es) k = if e.1 = k then e.2 else valueAt es k := by
  rw [valueAt, entryAt, List.lookup_cons, valueAt, entryAt]
  by_cases h : e.1 = k
  · rw [if_pos h, beq_iff_eq.mpr h.symm]
    rfl
  · rw [if_neg h, beq_false_of_ne (Ne.symm h)]

lemma keys_put (k : κ) (v : Option ν) (es : List (κ × Option ν)) :
    (put k v es).map Prod.fst =
      if k ∈ es.map Prod.fst then es.map Prod.fst else es.map Prod.fst ++ [k] := by
  induction es with
  | nil => rfl
  | cons e es ih =>
    rw [put]
    by_cases h : e.1 = k
    · rw [if_pos h, List.map_cons, List.map_cons, if_pos (by rw [h]; exact List.mem_cons_self)]
    · rw [if_neg h, List.map_cons, List.map_cons, ih]
      by_cases hk : k ∈ es.map Prod.fst
      · rw [if_pos hk, if_pos (List.mem_cons_of_mem _ hk)]
      · rw [if_neg hk, if_neg, List.cons_append]
        intro hmem
        rcases List.mem_cons.mp hmem with heq | hmem
        · exact h heq.symm
        · exact hk hmem

lemma valueAt_put (k : κ) (v : Option ν) (es : List (κ × Option ν)) (k' : κ) :
    valueAt (put k v es) k' = if k = k' then (valueAt es k').or v else valueAt es k' := by
  induction es with
  | nil => rw [put, valueAt_cons]; rfl
  | cons e es ih =>
    rw [put]
    split_ifs with h hk hk
    · subst hk
      rw [valueAt_cons, valueAt_cons, if_pos h, if_pos h]
    · rw [valueAt_cons, valueAt_cons, if_neg (h ▸ hk), if_neg (h ▸ hk)]
    · subst hk
      rw [valueAt_cons, valueAt_cons, if_neg h, if_neg h, ih, if_pos rfl]
    · rw [valueAt_cons, valueAt_cons, ih, if_neg hk]

/-- Nothing changes where the key is there and lacks no value. -/
lemma put_eq_self {k : κ} {v : Option ν} {es : List (κ × Option ν)} (hk : k ∈ es.map Prod.fst)
    (hv : v.isSome = true → (valueAt es k).isSome = true) : put k v es = es := by
  induction es with
  | nil => exact absurd hk List.not_mem_nil
  | cons e es ih =>
    rw [put]
    rw [valueAt_cons] at hv
    split_ifs at hv ⊢ with h
    · obtain ⟨key, value⟩ := e
      cases value with
      | some a => rfl
      | none =>
        cases v with
        | none => rfl
        | some b => exact absurd (hv rfl) Bool.false_ne_true
    · rcases List.mem_cons.mp hk with heq | hmem
      · exact absurd heq.symm h
      · rw [ih hmem hv]

/-- A map whose entries stand in the order in which their keys were put first. -/
structure LinkedMap (κ ν : Type*) where
  entries : List (κ × Option ν)
  nodup : (entries.map Prod.fst).Nodup

namespace LinkedMap
variable {m : LinkedMap κ ν} {es : List (κ × Option ν)} {k : κ}

def keys (m : LinkedMap κ ν) : List κ := m.entries.map Prod.fst

def get (m : LinkedMap κ ν) (k : κ) : Option ν := valueAt m.entries k

def putIfAbsent (m : LinkedMap κ ν) (k : κ) (v : Option ν) : LinkedMap κ ν :=
  ⟨put k v m.entries, by
    rw [keys_put]
    split_ifs with h
    · exact m.nodup
    · exact m.nodup.append (List.nodup_singleton k) (List.disjoint_singleton.mpr h)⟩

def putAllIfAbsent (m : LinkedMap κ ν) (es : List (κ × Option ν)) : LinkedMap κ ν :=
  es.foldl (fun m e => m.putIfAbsent e.1 e.2) m

/-- The first value that entries have for a key. -/
def firstValue (es : List (κ × Option ν)) (k : κ) : Option ν :=
  es.findSome? fun e => if e.1 = k then e.2 else none

lemma get_putIfAbsent (m : LinkedMap κ ν) (k : κ) (v : Option ν) (k' : κ) :
    (m.putIfAbsent k v).get k' = if k = k' then (m.get k').or v else m.get k' :=
  valueAt_put k v m.entries k'

lemma keys_putIfAbsent (m : LinkedMap κ ν) (k : κ) (v : Option ν) :
    (m.putIfAbsent k v).keys = if k ∈ m.keys then m.keys else m.keys ++ [k] :=
  keys_put k v m.entries

/-- What a map has stays, and the entries fill in the rest. -/
theorem get_putAllIfAbsent (m : LinkedMap κ ν) (es : List (κ × Option ν)) (k : κ) :
    (m.putAllIfAbsent es).get k = (m.get k).or (firstValue es k) := by
  induction es generalizing m with
  | nil => exact (Option.or_none).symm
  | cons e es ih =>
    have hstep := ih (m.putIfAbsent e.1 e.2)
    rw [get_putIfAbsent] at hstep
    refine hstep.trans ?_
    have hfirst : firstValue (e :: es) k =
        (if e.1 = k then e.2 else none).or (firstValue es k) := by
      rw [firstValue, List.findSome?_cons]
      cases (if e.1 = k then e.2 else none) <;> rfl
    rw [hfirst]
    split_ifs with h
    · exact Option.or_assoc
    · rfl

/-- The keys that are new come from the entries, and all of theirs are there. -/
lemma mem_keys_putAllIfAbsent :
    k ∈ (m.putAllIfAbsent es).keys ↔ k ∈ m.keys ∨ k ∈ es.map Prod.fst := by
  induction es generalizing m with
  | nil => simp [putAllIfAbsent]
  | cons e es ih =>
    have hstep := @ih (m.putIfAbsent e.1 e.2)
    have hkeys : k ∈ (m.putIfAbsent e.1 e.2).keys ↔ k ∈ m.keys ∨ k = e.1 := by
      rw [keys_putIfAbsent]
      split_ifs with h
      · exact ⟨Or.inl, fun hk => hk.elim id fun heq => heq ▸ h⟩
      · rw [List.mem_append, List.mem_singleton]
    rw [hkeys] at hstep
    refine hstep.trans ?_
    rw [List.map_cons, List.mem_cons, or_assoc]

lemma putAllIfAbsent_eq_self
    (h : ∀ e ∈ es, e.1 ∈ m.keys ∧ (e.2.isSome = true → (m.get e.1).isSome = true)) :
    m.putAllIfAbsent es = m := by
  induction es with
  | nil => rfl
  | cons e es ih =>
    have hself : m.putIfAbsent e.1 e.2 = m := by
      obtain ⟨hk, hv⟩ := h e List.mem_cons_self
      cases m
      simp only [putIfAbsent, mk.injEq]
      exact put_eq_self hk hv
    have hcons : m.putAllIfAbsent (e :: es) = (m.putIfAbsent e.1 e.2).putAllIfAbsent es := rfl
    rw [hcons, hself, ih fun e' he' => h e' (List.mem_cons_of_mem e he')]

/-- Filling in twice is filling in once. -/
theorem putAllIfAbsent_twice (m : LinkedMap κ ν) (es : List (κ × Option ν)) :
    (m.putAllIfAbsent es).putAllIfAbsent es = m.putAllIfAbsent es := by
  refine putAllIfAbsent_eq_self fun e he => ?_
  refine ⟨mem_keys_putAllIfAbsent.mpr (Or.inr (List.mem_map_of_mem he)), fun hv => ?_⟩
  have hfirst : (firstValue es e.1).isSome = true := by
    rw [firstValue, List.findSome?_isSome_iff]
    exact ⟨e, he, by rwa [if_pos rfl]⟩
  rw [get_putAllIfAbsent, Option.isSome_or, hfirst, Bool.or_true]

end LinkedMap

end Eureka.LinkedMaps
