import Mathlib
import Eureka.WordBytes

/-! Sixty-four words as sixty-four bit planes. Plane `b` collects bit `b` of every
lane; reading one lane across the planes undoes the transposition. -/
namespace Eureka.BitPlanes
open WordBytes

abbrev Lanes := Vector Word 64

/-- Zero padding of the lanes from `start` on. -/
def zeroFrom (buf : Lanes) (start : ℕ) : Lanes :=
  Vector.ofFn fun i => if i.val < start then buf[i] else 0

def transpose (buf : Lanes) : Lanes :=
  Vector.ofFn fun b => BitVec.ofFnLE fun i => buf[i].getLsbD b

/-- The word read at `lane` across the planes. -/
def laneValue (plane : ℕ → Word) (lane : ℕ) : Word :=
  BitVec.ofFnLE fun b : Fin 64 => (plane b).getLsbD lane

lemma getLsbD_transpose (buf : Lanes) {b i : ℕ} (hb : b < 64) (hi : i < 64) :
    (transpose buf)[b].getLsbD i = buf[i].getLsbD b := by
  simp [transpose, hi, BitVec.getLsbD_eq_getElem hb]

lemma getLsbD_laneValue (plane : ℕ → Word) (lane : ℕ) {b : ℕ} (hb : b < 64) :
    (laneValue plane lane).getLsbD b = (plane b).getLsbD lane := by
  simp [laneValue, hb]

lemma laneValue_congr {p q : ℕ → Word} (h : ∀ b < 64, p b = q b) (lane : ℕ) :
    laneValue p lane = laneValue q lane := by
  apply BitVec.eq_of_getLsbD_eq
  intro b hb
  rw [getLsbD_laneValue _ _ hb, getLsbD_laneValue _ _ hb, h b hb]

/-- Any planes that agree with the transposition of a buffer give its lanes back. -/
theorem laneValue_of_transpose {plane : ℕ → Word} {buf : Lanes}
    (h : ∀ b (hb : b < 64), plane b = (transpose buf)[b]) {i : ℕ} (hi : i < 64) :
    laneValue plane i = buf[i] := by
  apply BitVec.eq_of_getLsbD_eq
  intro b hb
  rw [getLsbD_laneValue _ _ hb, h b hb, getLsbD_transpose buf hb hi]

@[simp] lemma laneValue_zero (lane : ℕ) : laneValue (fun _ => 0) lane = 0 := by
  apply BitVec.eq_of_getLsbD_eq
  intro b hb
  simp [getLsbD_laneValue _ _ hb]

/-- The transposition is the only function that moves bit `b` of lane `i` to bit `i` of plane `b`. -/
theorem eq_transpose {slice : Lanes → Lanes}
    (h : ∀ (buf : Lanes) (b i : Fin 64), (slice buf)[b].getLsbD i = buf[i].getLsbD b)
    (buf : Lanes) : slice buf = transpose buf := by
  ext b hb : 1
  apply BitVec.eq_of_getLsbD_eq
  intro i hi
  rw [getLsbD_transpose buf hb hi]
  exact h buf ⟨b, hb⟩ ⟨i, hi⟩

end Eureka.BitPlanes
