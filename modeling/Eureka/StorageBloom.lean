import Mathlib
import Eureka.HashFilter

/-! `BloomFilter`: two positions per key, derived from two seeded hashes, in neighbouring
words of the filter. -/
namespace Eureka.Storage
open WordBytes HashFilter

def rotl (k : Word) (r : ℕ) : Word := (k <<< r) ||| (k >>> (64 - r))

def mixKey (k : Word) : Word := rotl (k * 0x87c37b91114253d5#64) 31 * 0x4cf5ad432745937f#64

/-- Eight key bytes as a word; `memcpy` leaves the bytes past the end zero. -/
def keyWord (key : Bytes) (i : ℕ) : Word := joinBytes fun j => key.getD (8 * i + j) 0

def mixGroup (key : Bytes) (h : Word) (i : ℕ) : Word :=
  rotl (h ^^^ mixKey (keyWord key i)) 27 * 5 + 0x52dce729#64

def finalMix (h : Word) : Word :=
  let h := h ^^^ (h >>> 33)
  let h := h * 0xff51afd7ed558ccd#64
  let h := h ^^^ (h >>> 33)
  let h := h * 0xc4ceb9fe1a85ec53#64
  h ^^^ (h >>> 33)

def murmurHash3 (key : Bytes) (seed : BitVec 32) : Word :=
  let len := key.length
  let h := (List.range (len / 8)).foldl (mixGroup key) (seed.setWidth 64)
  let h := if 0 < len % 8 then h ^^^ mixKey (keyWord key (len / 8)) else h
  finalMix (h ^^^ BitVec.ofNat 64 len)

structure BloomFilter where
  numWords : ℕ
  numWords_pos : 0 < numWords
  bits : Vector Word numWords

def hash1 (key : Bytes) : Word := murmurHash3 key 0x13579bdf#32
def hash2 (key : Bytes) : Word := murmurHash3 key 0x2468ace0#32

/-- The low six bits of a word as a bit index. -/
def low6 (w : Word) : Fin 64 :=
  ⟨(w &&& 63#64).toNat, by
    rw [BitVec.toNat_and]
    exact Nat.and_lt_two_pow _ (show 63 < 2 ^ 6 by norm_num)⟩

section
variable (n : ℕ) (hn : 0 < n)

def firstPosition (key : Bytes) : Position n :=
  (⟨(hash1 key).toNat % n, Nat.mod_lt _ hn⟩, low6 (hash2 key))

def secondPosition (key : Bytes) : Position n :=
  (⟨((hash1 key).toNat % n + 1) % n, Nat.mod_lt _ hn⟩, low6 (hash1 key >>> 6))

def positions (key : Bytes) : List (Position n) :=
  [firstPosition n hn key, secondPosition n hn key]

end

namespace BloomFilter

def empty (n : ℕ) (hn : 0 < n) : BloomFilter := ⟨n, hn, Vector.replicate n 0⟩

/-- The constructor: a size below one word falls back to 1024 words. -/
def new (sizeInBytes : ℕ) : BloomFilter :=
  if h : sizeInBytes / 8 = 0 then empty 1024 (by norm_num)
  else empty (sizeInBytes / 8) (Nat.pos_of_ne_zero h)

def add (f : BloomFilter) (key : Bytes) : BloomFilter :=
  let first := firstPosition f.numWords f.numWords_pos key
  let second := secondPosition f.numWords f.numWords_pos key
  { f with bits := setBit (setBit f.bits first) second }

def contains (f : BloomFilter) (key : Bytes) : Bool :=
  if ¬ testBit f.bits (firstPosition f.numWords f.numWords_pos key) then false
  else if ¬ testBit f.bits (secondPosition f.numWords f.numWords_pos key) then false
  else true

def reset (f : BloomFilter) : BloomFilter := { f with bits := Vector.replicate f.numWords 0 }

lemma contains_iff_covers (f : BloomFilter) (key : Bytes) :
    f.contains key = true ↔ covers (positions f.numWords f.numWords_pos) f.bits key := by
  unfold contains covers positions
  split_ifs <;> simp_all

/-- A run of additions is a run of insertions into the underlying bit set. -/
lemma foldl_add (keys : List Bytes) (f : BloomFilter) :
    keys.foldl add f =
      ⟨f.numWords, f.numWords_pos,
        keys.foldl (insert (positions f.numWords f.numWords_pos)) f.bits⟩ := by
  induction keys generalizing f with
  | nil => rfl
  | cons key keys ih => exact ih (f.add key)

/-- After any additions to an empty filter, membership is coverage by the added keys. -/
theorem contains_foldl_add (n : ℕ) (hn : 0 < n) (keys : List Bytes) (key : Bytes) :
    (keys.foldl add (empty n hn)).contains key = true ↔
      ∀ p ∈ positions n hn key, ∃ k ∈ keys, p ∈ positions n hn k := by
  rw [foldl_add, contains_iff_covers]
  exact covers_insertAll _ _ _

theorem contains_of_mem (n : ℕ) (hn : 0 < n) {keys : List Bytes} {key : Bytes}
    (h : key ∈ keys) : (keys.foldl add (empty n hn)).contains key = true :=
  (contains_foldl_add n hn keys key).mpr fun _ hp => ⟨key, h, hp⟩

/-- The calls that change a filter. -/
inductive Call
  | add (key : Bytes)
  | reset
  deriving DecidableEq, Repr

def call (f : BloomFilter) : Call → BloomFilter
  | .add key => f.add key
  | .reset => f.reset

/-- A filter of the given size after a sequence of calls. -/
def run (sizeInBytes : ℕ) (calls : List Call) : BloomFilter := calls.foldl call (new sizeInBytes)

def noteCall (keys : List Bytes) : Call → List Bytes
  | .add key => keys ++ [key]
  | .reset => []

/-- The keys added since the last reset, in order. -/
def keysAdded (calls : List Call) : List Bytes := calls.foldl noteCall []

lemma call_foldl_add (n : ℕ) (hn : 0 < n) (keys : List Bytes) (c : Call) :
    (keys.foldl add (empty n hn)).call c = (noteCall keys c).foldl add (empty n hn) := by
  cases c with
  | add key => simp [call, noteCall]
  | reset => rw [foldl_add]; rfl

/-- Any calls leave the filter as the additions since the last reset do. -/
lemma foldl_call (n : ℕ) (hn : 0 < n) (calls : List Call) :
    calls.foldl call (empty n hn) = (keysAdded calls).foldl add (empty n hn) := by
  have h : calls.foldl call (([] : List Bytes).foldl add (empty n hn)) =
      (calls.foldl noteCall []).foldl add (empty n hn) :=
    List.foldl_hom (fun keys : List Bytes => keys.foldl add (empty n hn)) (call_foldl_add n hn)
  exact h

lemma new_eq_empty (sizeInBytes : ℕ) : ∃ n hn, new sizeInBytes = empty n hn := by
  by_cases h : sizeInBytes / 8 = 0
  · exact ⟨1024, by norm_num, dif_pos h⟩
  · exact ⟨sizeInBytes / 8, Nat.pos_of_ne_zero h, dif_neg h⟩

/-- The filter represents the union of the keys added since the last reset. -/
theorem contains_run (sizeInBytes : ℕ) (calls : List Call) :
    let f := run sizeInBytes calls
    (∀ key, f.contains key = true ↔
      ∀ p ∈ positions f.numWords f.numWords_pos key,
        ∃ k ∈ keysAdded calls, p ∈ positions f.numWords f.numWords_pos k) ∧
      ∀ key ∈ keysAdded calls, f.contains key = true := by
  obtain ⟨n, hn, hnew⟩ := new_eq_empty sizeInBytes
  have hrun : run sizeInBytes calls = (keysAdded calls).foldl add (empty n hn) := by
    rw [run, hnew, foldl_call]
  intro f
  constructor
  · intro key
    have hf : f = _ := hrun.trans (foldl_add _ _)
    rw [contains_iff_covers, hf]
    exact covers_insertAll _ _ _
  · intro key hkey
    rw [show f = _ from hrun]
    exact contains_of_mem n hn hkey

end BloomFilter

end Eureka.Storage
