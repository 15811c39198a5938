import Mathlib
import Eureka.WordBytes

/-! A bit set over `n` words in which every key owns a few positions. Inserting keys only
ever adds positions, so a key is covered exactly when all its positions were inserted. -/
namespace Eureka.HashFilter
open WordBytes
variable {n : ℕ} {K : Type*}

abbrev Position (n : ℕ) := Fin n × Fin 64

def testBit (bits : Vector Word n) (p : Position n) : Bool :=
  bits[p.1] &&& (1#64 <<< p.2.val) ≠ 0

def setBit (bits : Vector Word n) (p : Position n) : Vector Word n :=
  bits.set p.1 (bits[p.1] ||| (1#64 <<< p.2.val))

def insert (pos : K → List (Position n)) (bits : Vector Word n) (k : K) : Vector Word n :=
  (pos k).foldl setBit bits

def covers (pos : K → List (Position n)) (bits : Vector Word n) (k : K) : Prop :=
  ∀ p ∈ pos k, testBit bits p

lemma one_shiftLeft (j : ℕ) : (1#64 <<< j) = BitVec.twoPow 64 j := (BitVec.twoPow_eq 64 j).symm

lemma and_bit_ne_zero (w : Word) {j : ℕ} (hj : j < 64) :
    w &&& (1#64 <<< j) ≠ 0 ↔ w.getLsbD j = true := by
  rw [one_shiftLeft, BitVec.and_twoPow]
  cases h : w.getLsbD j with
  | false => simp
  | true =>
    simp only [if_true, iff_true]
    intro hz
    have hb := congrArg (fun v => BitVec.getLsbD v j) hz
    simp [hj] at hb

lemma getLsbD_or_bit (w : Word) {i : ℕ} (j : ℕ) (hi : i < 64) :
    (w ||| (1#64 <<< i)).getLsbD j = (w.getLsbD j || decide (i = j)) := by
  rw [one_shiftLeft, BitVec.getLsbD_or, BitVec.getLsbD_twoPow]
  simp [hi]

lemma testBit_eq (bits : Vector Word n) (p : Position n) :
    testBit bits p = bits[p.1].getLsbD p.2 := by
  apply Bool.eq_iff_iff.mpr
  rw [testBit, decide_eq_true_eq]
  exact and_bit_ne_zero _ p.2.isLt

@[simp] lemma testBit_replicate (p : Position n) : testBit (Vector.replicate n 0) p = false := by
  simp [testBit]

theorem testBit_setBit (bits : Vector Word n) (p q : Position n) :
    testBit (setBit bits p) q ↔ q = p ∨ testBit bits q := by
  obtain ⟨i, a⟩ := p
  obtain ⟨j, b⟩ := q
  rw [testBit_eq, testBit_eq]
  by_cases h : i = j
  · subst h
    simp only [setBit, Fin.getElem_fin, Vector.getElem_set_self, getLsbD_or_bit _ _ a.isLt,
      Bool.or_eq_true, decide_eq_true_eq, Prod.mk.injEq, true_and]
    rw [or_comm, Fin.val_inj, eq_comm]
  · have hv : i.val ≠ j.val := fun he => h (Fin.ext he)
    simp [setBit, Vector.getElem_set_ne _ _ hv, Ne.symm h]

lemma testBit_foldl_setBit (ps : List (Position n)) (bits : Vector Word n) (q : Position n) :
    testBit (ps.foldl setBit bits) q ↔ q ∈ ps ∨ testBit bits q := by
  induction ps generalizing bits with
  | nil => simp
  | cons p ps ih =>
    rw [List.foldl_cons, ih, testBit_setBit, List.mem_cons]
    tauto

/-- The positions set after any sequence of insertions. -/
theorem testBit_insertAll (pos : K → List (Position n)) (ks : List K) (bits : Vector Word n)
    (q : Position n) :
    testBit (ks.foldl (insert pos) bits) q ↔ (∃ k ∈ ks, q ∈ pos k) ∨ testBit bits q := by
  induction ks generalizing bits with
  | nil => simp
  | cons k ks ih =>
    rw [List.foldl_cons, ih, insert, testBit_foldl_setBit]
    simp only [List.mem_cons, exists_eq_or_imp]
    rw [← or_assoc, or_comm (a := ∃ k' ∈ ks, q ∈ pos k')]

/-- Coverage after insertions into an empty set: the positions of the key are among those
of the inserted keys. -/
theorem covers_insertAll (pos : K → List (Position n)) (ks : List K) (k : K) :
    covers pos (ks.foldl (insert pos) (Vector.replicate n 0)) k ↔
      ∀ p ∈ pos k, ∃ k' ∈ ks, p ∈ pos k' := by
  unfold covers
  constructor
  · intro h p hp
    have ht := (testBit_insertAll pos ks _ p).mp (h p hp)
    rw [testBit_replicate] at ht
    simpa using ht
  · intro h p hp
    exact (testBit_insertAll pos ks _ p).mpr (Or.inl (h p hp))

end Eureka.HashFilter
