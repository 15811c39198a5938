import Mathlib

/-! Lists cut into blocks of sixty-four entries, and byte or word images that place
block `b` at a fixed multiple of the block length. -/
namespace Eureka.FixedBlocks
variable {α β : Type*}

/-- A counted loop keeps an invariant that may mention the counter. -/
theorem foldl_range_induction {P : ℕ → β → Prop} {f : β → ℕ → β} {s : β} {n : ℕ}
    (init : P 0 s) (step : ∀ k s, k < n → P k s → P (k + 1) (f s k)) :
    P n ((List.range n).foldl f s) := by
  have h : ∀ m ≤ n, P m ((List.range m).foldl f s) := by
    intro m hm
    induction m with
    | zero => exact init
    | succ m ih =>
      rw [List.range_succ, List.foldl_append]
      exact step m _ hm (ih (by omega))
  exact h n le_rfl

/-- The number of blocks of sixty-four that `n` entries need. -/
def blockCount (n : ℕ) : ℕ := (n + 63) / 64

/-- Lane `i` of block `b`, a default past the end of the list. -/
def laneOf (xs : List α) (d : α) (b i : ℕ) : α := xs.getD (64 * b + i) d

lemma laneOf_append (xs ys : List α) (d : α) {b i : ℕ} (h : 64 * b + i < xs.length) :
    laneOf (xs ++ ys) d b i = laneOf xs d b i := List.getD_append _ _ _ _ h

lemma laneOf_map (f : α → β) (xs : List α) (d : α) (b i : ℕ) :
    laneOf (xs.map f) (f d) b i = f (laneOf xs d b i) := List.getD_map _ _ _

lemma laneOf_eq_default {xs : List α} {d : α} {b i : ℕ} (h : xs.length ≤ 64 * b + i) :
    laneOf xs d b i = d := List.getD_eq_default _ _ h

lemma laneOf_divMod (xs : List α) (d : α) (r : ℕ) :
    laneOf xs d (r / 64) (r % 64) = xs.getD r d := by
  rw [laneOf, Nat.div_add_mod]

lemma flatMap_range_succ (f : ℕ → List α) (n : ℕ) :
    (List.range (n + 1)).flatMap f = (List.range n).flatMap f ++ f n := by
  simp [List.range_succ]

lemma flatMap_range_double (f : ℕ → List α) (n : ℕ) :
    (List.range (2 * n)).flatMap f = (List.range n).flatMap fun j => f (2 * j) ++ f (2 * j + 1) := by
  induction n with
  | zero => rfl
  | succ n ih =>
    rw [Nat.mul_succ, flatMap_range_succ, flatMap_range_succ, ih, flatMap_range_succ,
      List.append_assoc]

lemma flatMap_range_congr {f g : ℕ → List α} {n : ℕ} (h : ∀ b < n, f b = g b) :
    (List.range n).flatMap f = (List.range n).flatMap g :=
  List.flatMap_congr fun b hb => h b (List.mem_range.mp hb)

lemma length_flatMap_range {f : ℕ → List α} {k : ℕ} (hf : ∀ b, (f b).length = k) (n : ℕ) :
    ((List.range n).flatMap f).length = k * n := by
  simp [List.length_flatMap, hf, Nat.mul_comm]

/-- Entry `p` of block `b` sits at `k * b + p` when every block has length `k`. -/
theorem getD_flatMap_range {f : ℕ → List α} {k : ℕ} (hf : ∀ b, (f b).length = k) (d : α)
    {n b p : ℕ} (hb : b < n) (hp : p < k) :
    ((List.range n).flatMap f).getD (k * b + p) d = (f b).getD p d := by
  induction n with
  | zero => omega
  | succ n ih =>
    have hl := length_flatMap_range hf n
    rw [flatMap_range_succ]
    rcases Nat.lt_or_ge b n with h | h
    · have hle : k * b + p < k * n := by
        have := Nat.mul_le_mul_left k (Nat.succ_le_of_lt h)
        rw [Nat.mul_succ] at this
        omega
      rw [List.getD_append _ _ _ _ (by omega), ih h]
    · obtain rfl : b = n := by omega
      rw [List.getD_append_right _ _ _ _ (by omega), hl, Nat.add_sub_cancel_left]

/-- The lanes of the blocks of a list, in order, are the list padded with the default. -/
theorem flatMap_lanes (xs : List α) (d : α) :
    (List.range (blockCount xs.length)).flatMap (fun b => (List.range 64).map (laneOf xs d b)) =
      xs ++ List.replicate (64 * blockCount xs.length - xs.length) d := by
  have hl := length_flatMap_range (f := fun b => (List.range 64).map (laneOf xs d b)) (k := 64)
    (by simp) (blockCount xs.length)
  have hn : xs.length ≤ 64 * blockCount xs.length := by unfold blockCount; omega
  apply List.ext_getElem?
  intro r
  by_cases hr : r < 64 * blockCount xs.length
  · have hg := getD_flatMap_range (f := fun b => (List.range 64).map (laneOf xs d b)) (k := 64)
      (by simp) d (b := r / 64) (p := r % 64) (n := blockCount xs.length) (by omega) (by omega)
    rw [Nat.div_add_mod] at hg
    have hm : ((List.range 64).map (laneOf xs d (r / 64))).getD (r % 64) d = xs.getD r d := by
      rw [List.getD_eq_getElem _ _ (by simp; omega)]
      simp [laneOf_divMod]
    rw [hm, List.getD_eq_getElem _ _ (by omega)] at hg
    rw [List.getElem?_eq_getElem (by omega), hg]
    by_cases hx : r < xs.length
    · rw [List.getElem?_append_left hx, List.getElem?_eq_getElem hx, List.getD_eq_getElem _ _ hx]
    · rw [List.getElem?_append_right (by omega), List.getElem?_replicate, if_pos (by omega),
        List.getD_eq_default _ _ (by omega)]
  · rw [List.getElem?_eq_none (by omega), List.getElem?_eq_none (by simp; omega)]

end Eureka.FixedBlocks
