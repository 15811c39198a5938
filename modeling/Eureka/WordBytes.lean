import Mathlib

/-! Machine words as little-endian bytes: the byte string of a word list, the word
read back at an index, and a byte memory with aligned word loads and stores. -/
namespace Eureka.WordBytes

abbrev Byte := BitVec 8
abbrev Word := BitVec 64
abbrev Bytes := List Byte

/-- Byte `k` of a word, the least significant byte first. -/
def byteOf (w : Word) (k : ℕ) : Byte := w.extractLsb' (8 * k) 8

/-- The word whose byte `k` is `b k`. -/
def joinBytes (b : ℕ → Byte) : Word :=
  BitVec.ofFnLE fun i : Fin 64 => (b (i / 8)).getLsbD (i % 8)

lemma getLsbD_byteOf (w : Word) (k i : ℕ) :
    (byteOf w k).getLsbD i = (decide (i < 8) && w.getLsbD (8 * k + i)) := by
  simp [byteOf, BitVec.getLsbD_extractLsb']

lemma getLsbD_joinBytes (b : ℕ → Byte) {i : ℕ} (hi : i < 64) :
    (joinBytes b).getLsbD i = (b (i / 8)).getLsbD (i % 8) := by
  simp [joinBytes, hi]

lemma joinBytes_byteOf (w : Word) : joinBytes (byteOf w) = w := by
  apply BitVec.eq_of_getLsbD_eq
  intro i hi
  have hm : i % 8 < 8 := Nat.mod_lt _ (by norm_num)
  rw [getLsbD_joinBytes _ hi, getLsbD_byteOf, Nat.div_add_mod]
  simp [hm]

lemma joinBytes_congr {b c : ℕ → Byte} (h : ∀ k < 8, b k = c k) : joinBytes b = joinBytes c := by
  apply BitVec.eq_of_getLsbD_eq
  intro i hi
  rw [getLsbD_joinBytes _ hi, getLsbD_joinBytes _ hi, h _ (by omega)]

/-- The eight bytes of a word in memory order. -/
def wordBytes (w : Word) : Bytes := (List.range 8).map (byteOf w)

def encodeWords (ws : List Word) : Bytes := ws.flatMap wordBytes

/-- The `k`-th word of a byte string, bytes past the end read as zero. -/
def wordAt (bs : Bytes) (k : ℕ) : Word := joinBytes fun j => bs.getD (8 * k + j) 0

@[simp] lemma wordBytes_length (w : Word) : (wordBytes w).length = 8 := by simp [wordBytes]

@[simp] lemma encodeWords_nil : encodeWords [] = [] := rfl

@[simp] lemma encodeWords_append (xs ys : List Word) :
    encodeWords (xs ++ ys) = encodeWords xs ++ encodeWords ys := by simp [encodeWords]

@[simp] lemma encodeWords_length (ws : List Word) : (encodeWords ws).length = 8 * ws.length := by
  induction ws with
  | nil => rfl
  | cons w ws ih =>
    simp only [encodeWords, List.flatMap_cons, List.length_append, wordBytes_length,
      List.length_cons] at ih ⊢
    omega

/-- Reading a word back from the bytes of a word list. -/
theorem wordAt_encodeWords (ws : List Word) (k : ℕ) :
    wordAt (encodeWords ws) k = ws.getD k 0 := by
  induction ws generalizing k with
  | nil =>
    apply BitVec.eq_of_getLsbD_eq
    intro i hi
    simp [wordAt, getLsbD_joinBytes _ hi]
  | cons w ws ih =>
    cases k with
    | zero =>
      have hb : ∀ j < 8, (encodeWords (w :: ws)).getD (8 * 0 + j) 0 = byteOf w j := by
        intro j hj
        have he : encodeWords (w :: ws) = wordBytes w ++ encodeWords ws := rfl
        rw [he, List.getD_append _ _ _ _ (by simpa using hj)]
        simp [wordBytes, hj]
      rw [wordAt, joinBytes_congr hb, joinBytes_byteOf, List.getD_cons_zero]
    | succ k =>
      have hb : ∀ j < 8, (encodeWords (w :: ws)).getD (8 * (k + 1) + j) 0 =
          (encodeWords ws).getD (8 * k + j) 0 := by
        intro j _
        have he : encodeWords (w :: ws) = wordBytes w ++ encodeWords ws := rfl
        rw [he, List.getD_append_right _ _ _ _ (by simp; omega), wordBytes_length]
        congr 1
        omega
      rw [wordAt, joinBytes_congr hb, List.getD_cons_succ]
      exact ih k

/-- A byte memory of a fixed size; addresses at or beyond `size` are not part of it. -/
structure Memory where
  size : ℕ
  get : ℕ → Byte

namespace Memory

def zero (size : ℕ) : Memory := ⟨size, fun _ => 0⟩

def loadWord (m : Memory) (a : ℕ) : Word := joinBytes fun k => m.get (a + k)

def storeWord (m : Memory) (a : ℕ) (w : Word) : Memory :=
  { m with get := fun x => if a ≤ x ∧ x < a + 8 then byteOf w (x - a) else m.get x }

@[simp] lemma loadWord_zero (size a : ℕ) : (zero size).loadWord a = 0 := by
  apply BitVec.eq_of_getLsbD_eq
  intro i hi
  simp [loadWord, zero, getLsbD_joinBytes _ hi]

@[simp] theorem loadWord_storeWord_self (m : Memory) (a : ℕ) (w : Word) :
    (m.storeWord a w).loadWord a = w := by
  have hb : ∀ k < 8, (m.storeWord a w).get (a + k) = byteOf w k := by
    intro k hk
    simp [storeWord, hk]
  rw [loadWord, joinBytes_congr hb, joinBytes_byteOf]

theorem loadWord_storeWord_of_disjoint (m : Memory) {a b : ℕ} (w : Word)
    (h : a + 8 ≤ b ∨ b + 8 ≤ a) : (m.storeWord a w).loadWord b = m.loadWord b := by
  apply joinBytes_congr
  intro k hk
  have : ¬ (a ≤ b + k ∧ b + k < a + 8) := by omega
  simp [storeWord, this]

/-- Word `k` of the region at `base`, as a word pointer into it indexes. -/
def wordIn (m : Memory) (base k : ℕ) : Word := m.loadWord (base + 8 * k)

def setWordIn (m : Memory) (base k : ℕ) (w : Word) : Memory := m.storeWord (base + 8 * k) w

@[simp] lemma wordIn_zero (size base k : ℕ) : (zero size).wordIn base k = 0 := by simp [wordIn]

/-- A region read sees exactly the last store to its own word when the two bases are
a whole number of words apart. -/
theorem wordIn_setWordIn (m : Memory) {base base' k k' : ℕ} (w : Word)
    (hb : 8 ∣ base) (hb' : 8 ∣ base') :
    (m.setWordIn base k w).wordIn base' k' =
      if base + 8 * k = base' + 8 * k' then w else m.wordIn base' k' := by
  obtain ⟨c, rfl⟩ := hb
  obtain ⟨d, rfl⟩ := hb'
  unfold setWordIn wordIn
  split_ifs with h
  · rw [h, loadWord_storeWord_self]
  · exact loadWord_storeWord_of_disjoint _ _ (by omega)

end Memory

end Eureka.WordBytes
