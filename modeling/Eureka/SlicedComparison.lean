import Mathlib

/-! Comparison of many numbers with one constant, on bit planes: plane `b` holds bit `b` of the
number in each lane. The planes are visited from the most significant one down. -/
namespace Eureka.SlicedComparison
variable {w : ℕ}

/-- The lanes still equal to the constant, after the planes below `k`. -/
def equalMask (plane : ℕ → BitVec w) (c : ℕ) : ℕ → BitVec w → BitVec w
  | 0, mask => mask
  | bit + 1, mask =>
    equalMask plane c bit (if c.testBit bit then mask &&& plane bit else mask &&& ~~~ plane bit)

/-- The lanes found greater, with the lanes equal so far. -/
def greaterMask (plane : ℕ → BitVec w) (c : ℕ) : ℕ → BitVec w → BitVec w → BitVec w
  | 0, greater, _ => greater
  | bit + 1, greater, equal =>
    let target := if c.testBit bit then BitVec.allOnes w else 0
    greaterMask plane c bit (greater ||| (plane bit &&& ~~~ target &&& equal))
      (equal &&& ~~~ (plane bit ^^^ target))

/-- The planes below `k` hold the bits of `v` in a lane. -/
def Holds (plane : ℕ → BitVec w) (lane k v : ℕ) : Prop :=
  ∀ b < k, (plane b).getLsbD lane = v.testBit b

lemma div_two_pow_eq (v n : ℕ) :
    v / 2 ^ n = 2 * (v / 2 ^ (n + 1)) + (v.testBit n).toNat := by
  have hbit : (v.testBit n).toNat = v / 2 ^ n % 2 := by
    rw [Nat.testBit_eq_decide_div_mod_eq]
    rcases Nat.mod_two_eq_zero_or_one (v / 2 ^ n) with h | h <;> simp [h]
  rw [hbit, Nat.pow_succ, ← Nat.div_div_eq_div_mul]
  omega

section
variable {plane : ℕ → BitVec w} {lane v : ℕ}

lemma equal_lane (hlane : lane < w) (p mask : BitVec w) (t : Bool) :
    (if t then mask &&& p else mask &&& ~~~ p).getLsbD lane =
      (mask.getLsbD lane && (p.getLsbD lane == t)) := by
  cases t with
  | false =>
    rw [if_neg Bool.false_ne_true, BitVec.getLsbD_and, BitVec.getLsbD_not, decide_eq_true hlane,
      Bool.true_and]
    cases p.getLsbD lane <;> rfl
  | true =>
    rw [if_pos rfl, BitVec.getLsbD_and]
    cases p.getLsbD lane <;> rfl

lemma target_lane (hlane : lane < w) (t : Bool) :
    (if t then BitVec.allOnes w else 0).getLsbD lane = t := by
  cases t with
  | false => exact BitVec.getLsbD_zero
  | true => rw [if_pos rfl, BitVec.getLsbD_allOnes, decide_eq_true hlane]

lemma xnor_lane (hlane : lane < w) (p equal target : BitVec w) :
    (equal &&& ~~~ (p ^^^ target)).getLsbD lane =
      (equal.getLsbD lane && (p.getLsbD lane == target.getLsbD lane)) := by
  rw [BitVec.getLsbD_and, BitVec.getLsbD_not, BitVec.getLsbD_xor, decide_eq_true hlane,
    Bool.true_and]
  cases p.getLsbD lane <;> cases target.getLsbD lane <;> rfl

lemma greater_lane (hlane : lane < w) (p greater equal target : BitVec w) :
    (greater ||| (p &&& ~~~ target &&& equal)).getLsbD lane =
      (greater.getLsbD lane ||
        (p.getLsbD lane && !target.getLsbD lane && equal.getLsbD lane)) := by
  rw [BitVec.getLsbD_or, BitVec.getLsbD_and, BitVec.getLsbD_and, BitVec.getLsbD_not,
    decide_eq_true hlane, Bool.true_and]

/-- One more binary digit below two numbers. -/
lemma digit_eq_iff (a b : ℕ) (s t : Bool) :
    2 * a + s.toNat = 2 * b + t.toNat ↔ a = b ∧ t = s := by
  cases s <;> cases t <;> simp <;> omega

lemma digit_lt_iff (a b : ℕ) (s t : Bool) :
    2 * a + s.toNat < 2 * b + t.toNat ↔ a < b ∨ (t = true ∧ s = false ∧ a = b) := by
  cases s <;> cases t <;> simp <;> omega

/-- A lane survives exactly if the numbers agree; `n` planes are still to come, and the mask
tells whether the numbers agree above them. -/
theorem equalMask_lane (hlane : lane < w) (c n : ℕ) (h : Holds plane lane n v) {mask : BitVec w}
    (hmask : mask.getLsbD lane = true ↔ c / 2 ^ n = v / 2 ^ n) :
    (equalMask plane c n mask).getLsbD lane = true ↔ c = v := by
  induction n generalizing mask with
  | zero => simpa [equalMask] using hmask
  | succ n ih =>
    rw [equalMask]
    apply ih fun b hb => h b (Nat.lt_succ_of_lt hb)
    rw [equal_lane hlane, h n n.lt_succ_self, Bool.and_eq_true, hmask, beq_iff_eq,
      div_two_pow_eq c n, div_two_pow_eq v n, digit_eq_iff]

/-- A lane is found exactly if its number is greater than the constant. -/
theorem greaterMask_lane (hlane : lane < w) (c n : ℕ) (h : Holds plane lane n v)
    {greater equal : BitVec w}
    (hgreater : greater.getLsbD lane = true ↔ c / 2 ^ n < v / 2 ^ n)
    (hequal : equal.getLsbD lane = true ↔ c / 2 ^ n = v / 2 ^ n) :
    (greaterMask plane c n greater equal).getLsbD lane = true ↔ c < v := by
  induction n generalizing greater equal with
  | zero => simpa [greaterMask] using hgreater
  | succ n ih =>
    have hplane := h n n.lt_succ_self
    rw [greaterMask]
    apply ih fun b hb => h b (Nat.lt_succ_of_lt hb)
    · rw [greater_lane hlane, target_lane hlane, hplane, Bool.or_eq_true, Bool.and_eq_true,
        Bool.and_eq_true, Bool.not_eq_true', hgreater, hequal, div_two_pow_eq c n,
        div_two_pow_eq v n, digit_lt_iff, and_assoc]
    · rw [xnor_lane hlane, target_lane hlane, hplane, Bool.and_eq_true, hequal, beq_iff_eq,
        div_two_pow_eq c n, div_two_pow_eq v n, digit_eq_iff]

end

end Eureka.SlicedComparison
