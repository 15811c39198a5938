import Mathlib

/-! A bounded queue in a wrapping array: two indices and a size. Pushing and popping act on
the list of stored entries, oldest first, as append and tail. -/
namespace Eureka.RingQueue

structure Ring (α : Type*) (n : ℕ) where
  slots : Vector α n
  head : ℕ
  tail : ℕ
  size : ℕ

namespace Ring
variable {α : Type*} {n : ℕ}

/-- The write of a producer at `head`. -/
def push (r : Ring α n) (x : α) : Ring α n :=
  { r with slots := r.slots.setIfInBounds r.head x, head := (r.head + 1) % n, size := r.size + 1 }

/-- The entry that a consumer reads at `tail`. -/
def front (r : Ring α n) : Option α := r.slots[r.tail]?

def pop (r : Ring α n) : Ring α n := { r with tail := (r.tail + 1) % n, size := r.size - 1 }

def empty (slots : Vector α n) : Ring α n := ⟨slots, 0, 0, 0⟩

/-- The stored entries from the oldest to the newest. -/
def contents (r : Ring α n) : List α :=
  (List.range r.size).filterMap fun i => r.slots[(r.tail + i) % n]?

structure Valid (r : Ring α n) : Prop where
  size_le : r.size ≤ n
  tail_lt : r.tail < n
  head_eq : r.head = (r.tail + r.size) % n

variable {r : Ring α n}

lemma valid_empty (slots : Vector α n) (hn : 0 < n) : (empty slots).Valid :=
  ⟨Nat.zero_le n, hn, (Nat.zero_mod n).symm⟩

lemma Valid.pos (h : r.Valid) : 0 < n := Nat.zero_lt_of_lt h.tail_lt

lemma Valid.head_lt (h : r.Valid) : r.head < n := by
  rw [h.head_eq]
  exact Nat.mod_lt _ h.pos

theorem valid_push (h : r.Valid) (hroom : r.size < n) (x : α) : (r.push x).Valid := by
  refine ⟨hroom, h.tail_lt, ?_⟩
  show (r.head + 1) % n = (r.tail + (r.size + 1)) % n
  rw [h.head_eq, Nat.mod_add_mod, Nat.add_assoc]

theorem valid_pop (h : r.Valid) (hsome : 0 < r.size) : r.pop.Valid := by
  refine ⟨(Nat.sub_le _ _).trans h.size_le, Nat.mod_lt _ h.pos, ?_⟩
  show r.head = ((r.tail + 1) % n + (r.size - 1)) % n
  rw [h.head_eq, Nat.mod_add_mod]
  congr 1
  omega

/-- The entries before the newest keep their slots when the next slot is written. -/
lemma index_ne {a i k : ℕ} (hi : i < k) (hk : k < n) : (a + i) % n ≠ (a + k) % n := by
  intro he
  have hmod : i ≡ k [MOD n] := Nat.ModEq.add_left_cancel' a he
  have hik := hmod.eq_of_lt_of_lt (hi.trans hk) hk
  omega

theorem contents_push (h : r.Valid) (hroom : r.size < n) (x : α) :
    (r.push x).contents = r.contents ++ [x] := by
  have hold : ∀ i ∈ List.range r.size,
      (r.slots.setIfInBounds r.head x)[(r.tail + i) % n]? = r.slots[(r.tail + i) % n]? := by
    intro i hi
    have hne := index_ne (a := r.tail) (List.mem_range.mp hi) hroom
    rw [← h.head_eq] at hne
    rw [Vector.getElem?_setIfInBounds_ne hne.symm]
  have hnew : (r.slots.setIfInBounds r.head x)[(r.tail + r.size) % n]? = some x := by
    rw [← h.head_eq, Vector.getElem?_setIfInBounds_self_of_lt h.head_lt]
  show (List.range (r.size + 1)).filterMap
    (fun i => (r.slots.setIfInBounds r.head x)[(r.tail + i) % n]?) = r.contents ++ [x]
  rw [List.range_succ, List.filterMap_append, List.filterMap_congr hold, List.filterMap_cons, hnew]
  rfl

/-- A non-empty queue yields its oldest entry and keeps the others. -/
theorem contents_pop (h : r.Valid) (hsome : 0 < r.size) :
    ∃ x, r.front = some x ∧ r.contents = x :: r.pop.contents := by
  obtain ⟨k, hk⟩ := Nat.exists_eq_succ_of_ne_zero hsome.ne'
  have htail := h.tail_lt
  have hfront : r.slots[(r.tail + 0) % n]? = some r.slots[r.tail] := by
    rw [Nat.add_zero, Nat.mod_eq_of_lt h.tail_lt, Vector.getElem?_eq_getElem h.tail_lt]
  refine ⟨r.slots[r.tail], Vector.getElem?_eq_getElem h.tail_lt, ?_⟩
  have hrest : ∀ i, r.slots[((r.tail + 1) % n + i) % n]? = r.slots[(r.tail + (i + 1)) % n]? := by
    intro i
    rw [Nat.mod_add_mod, Nat.add_assoc, Nat.add_comm 1 i]
  show (List.range r.size).filterMap _ = _ :: (List.range (r.size - 1)).filterMap
    fun i => r.slots[((r.tail + 1) % n + i) % n]?
  rw [hk, List.range_succ_eq_map, List.filterMap_cons, hfront, List.filterMap_map]
  simp only [hrest]
  rfl

lemma size_pos_iff (h : r.Valid) : r.contents = [] ↔ r.size = 0 := by
  constructor
  · intro hc
    by_contra hne
    obtain ⟨x, -, hx⟩ := contents_pop h (Nat.pos_of_ne_zero hne)
    rw [hc] at hx
    exact absurd hx (List.cons_ne_nil x _).symm
  · intro hz
    rw [contents, hz]
    rfl

end Ring

end Eureka.RingQueue
