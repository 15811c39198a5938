import Mathlib
import Eureka.WordBytes

/-! Byte strings under the string functions of the C++ library: trimming, substring search
and replacement, whitespace tokens, and unsigned decimal numbers. -/
namespace Eureka.ByteText
open WordBytes

def ascii (s : String) : Bytes := s.toList.map fun c => BitVec.ofNat 8 c.toNat

/-- `isspace` in the default locale. -/
def isSpace (c : Byte) : Bool :=
  c = 0x20#8 ∨ c = 0x09#8 ∨ c = 0x0a#8 ∨ c = 0x0b#8 ∨ c = 0x0c#8 ∨ c = 0x0d#8

def isDigit (c : Byte) : Bool := 0x30#8 ≤ c ∧ c ≤ 0x39#8

def trim (s : Bytes) : Bytes := (s.dropWhile isSpace).rdropWhile isSpace

/-- `find`: the first position at which the pattern stands. -/
def find (pat : Bytes) : Bytes → Option ℕ
  | [] => if pat = [] then some 0 else none
  | c :: cs => if pat.isPrefixOf (c :: cs) then some 0 else (find pat cs).map (· + 1)

def contains (pat s : Bytes) : Bool := (find pat s).isSome

/-- Replacement from left to right; `skip` bytes of a match are still to be passed over. -/
def replaceFrom (pat new : Bytes) : ℕ → Bytes → Bytes
  | _, [] => []
  | 0, c :: cs =>
    if pat.isPrefixOf (c :: cs) then new ++ replaceFrom pat new (pat.length - 1) cs
    else c :: replaceFrom pat new 0 cs
  | skip + 1, _ :: cs => replaceFrom pat new skip cs

def replaceAll (pat new s : Bytes) : Bytes := replaceFrom pat new 0 s

/-- The words that repeated `>>` extracts; `cur` is the word being read. -/
def wordsFrom (cur : Bytes) : Bytes → List Bytes
  | [] => if cur = [] then [] else [cur]
  | c :: cs =>
    if isSpace c then (if cur = [] then wordsFrom [] cs else cur :: wordsFrom [] cs)
    else wordsFrom (cur ++ [c]) cs

def words (s : Bytes) : List Bytes := wordsFrom [] s

def digitsValue (ds : Bytes) : ℕ := ds.foldl (fun v d => 10 * v + (d.toNat - 48)) 0

/-- `stoull`: `none` where it throws, which is without digits and past 64 bits. A minus sign
negates modulo 2^64, and what follows the digits is ignored. -/
def stoull (s : Bytes) : Option Word :=
  let s := s.dropWhile isSpace
  let negative := s.head? = some 0x2d#8
  let digits := (if negative ∨ s.head? = some 0x2b#8 then s.tail else s).takeWhile isDigit
  if digits = [] ∨ 2 ^ 64 ≤ digitsValue digits then none
  else
    let value := BitVec.ofNat 64 (digitsValue digits)
    some (if negative then -value else value)

def decimal (n : ℕ) : Bytes := (Nat.toDigits 10 n).map fun c => BitVec.ofNat 8 c.toNat

/-- Whitespace around a text that begins and ends otherwise is removed. -/
lemma trim_pad {u v w : Bytes} {a z : Byte} (hu : ∀ c ∈ u, isSpace c = true)
    (hv : ∀ c ∈ v, isSpace c = true) (hhead : w.head? = some a) (ha : isSpace a = false)
    (hlast : w.getLast? = some z) (hz : isSpace z = false) : trim (u ++ (w ++ v)) = w := by
  have hleft : (u ++ (w ++ v)).dropWhile isSpace = w ++ v := by
    obtain ⟨w, rfl⟩ := List.head?_eq_some_iff.mp hhead
    rw [List.dropWhile_append_of_pos hu, List.cons_append,
      List.dropWhile_cons_of_neg (by rw [ha]; exact Bool.false_ne_true)]
  have hrev : ∀ c ∈ v.reverse, isSpace c = true := fun c hc => hv c (List.mem_reverse.mp hc)
  obtain ⟨w, rfl⟩ := List.getLast?_eq_some_iff.mp hlast
  rw [trim, hleft, List.rdropWhile, List.reverse_append, List.dropWhile_append_of_pos hrev,
    List.reverse_append, List.reverse_singleton, List.singleton_append,
    List.dropWhile_cons_of_neg (by rw [hz]; exact Bool.false_ne_true)]
  simp

lemma contains_prefix (pat rest : Bytes) : contains pat (pat ++ rest) = true := by
  cases hs : pat ++ rest with
  | nil => simp [contains, find, (List.append_eq_nil_iff.mp hs).1]
  | cons c cs =>
    have hpre : pat.isPrefixOf (c :: cs) = true := by
      rw [List.isPrefixOf_iff_prefix, ← hs]
      exact List.prefix_append pat rest
    rw [contains, find, if_pos hpre]
    rfl

/-- A pattern is found wherever it stands. -/
theorem contains_append (pat w rest : Bytes) : contains pat (w ++ (pat ++ rest)) = true := by
  induction w with
  | nil => exact contains_prefix pat rest
  | cons c cs ih =>
    rw [contains, List.cons_append, find]
    split_ifs
    · rfl
    · rw [Option.isSome_map]
      exact ih

/-- Text without the first byte of the pattern holds no start of it. -/
lemma contains_skip {p : Byte} {ps u : Bytes} (hu : p ∉ u) (s : Bytes) :
    contains (p :: ps) (u ++ s) = contains (p :: ps) s := by
  induction u with
  | nil => rfl
  | cons c u ih =>
    rw [List.mem_cons, not_or] at hu
    have hpre : ¬ (p :: ps).isPrefixOf (c :: (u ++ s)) = true := by
      intro h
      rw [List.isPrefixOf_cons_cons, Bool.and_eq_true, beq_iff_eq] at h
      exact hu.1 h.1
    rw [← ih hu.2]
    simp only [contains, List.cons_append, find, if_neg hpre, Option.isSome_map]

lemma contains_of_notMem {p : Byte} {ps s : Bytes} (h : p ∉ s) : contains (p :: ps) s = false := by
  have hskip := @contains_skip p ps s h []
  rw [List.append_nil] at hskip
  exact hskip

section words

lemma wordsFrom_append {w : Bytes} (hw : ∀ c ∈ w, isSpace c = false) (cur rest : Bytes) :
    wordsFrom cur (w ++ rest) = wordsFrom (cur ++ w) rest := by
  induction w generalizing cur with
  | nil => rw [List.append_nil, List.nil_append]
  | cons c cs ih =>
    have hc := hw c List.mem_cons_self
    rw [List.cons_append, wordsFrom, hc, if_neg Bool.false_ne_true,
      ih fun d hd => hw d (List.mem_cons_of_mem _ hd)]
    simp

/-- A word followed by a space is the first token. -/
theorem words_append_space {w : Bytes} (hw : ∀ c ∈ w, isSpace c = false) (hne : w ≠ [])
    {sp : Byte} (hsp : isSpace sp = true) (rest : Bytes) :
    words (w ++ sp :: rest) = w :: words rest := by
  rw [words, wordsFrom_append hw, List.nil_append, wordsFrom, if_pos hsp, if_neg hne, words]

lemma words_space {sp : Byte} (hsp : isSpace sp = true) (rest : Bytes) :
    words (sp :: rest) = words rest := by
  rw [words, wordsFrom, if_pos hsp, if_pos rfl, words]

lemma words_blank {b : Bytes} (hb : ∀ c ∈ b, isSpace c = true) (rest : Bytes) :
    words (b ++ rest) = words rest := by
  induction b with
  | nil => rfl
  | cons c b ih =>
    rw [List.cons_append, words_space (hb c List.mem_cons_self)]
    exact ih fun d hd => hb d (List.mem_cons_of_mem _ hd)

lemma words_append_blank {w b : Bytes} (hw : ∀ c ∈ w, isSpace c = false) (hne : w ≠ [])
    (hb : ∀ c ∈ b, isSpace c = true) (hb' : b ≠ []) (rest : Bytes) :
    words (w ++ (b ++ rest)) = w :: words rest := by
  obtain ⟨sp, b, rfl⟩ := List.exists_cons_of_ne_nil hb'
  rw [List.cons_append, words_append_space hw hne (hb sp List.mem_cons_self),
    words_blank fun c hc => hb c (List.mem_cons_of_mem _ hc)]

lemma words_singleton {w : Bytes} (hw : ∀ c ∈ w, isSpace c = false) (hne : w ≠ []) :
    words w = [w] := by
  have h := wordsFrom_append hw [] []
  rw [List.append_nil, List.nil_append] at h
  rw [words, h, wordsFrom, if_neg hne]

end words

section replace

/-- Text without the first byte of the pattern is copied. -/
lemma replaceAll_append {p : Byte} {ps new w : Bytes} (hw : p ∉ w) (rest : Bytes) :
    replaceAll (p :: ps) new (w ++ rest) = w ++ replaceAll (p :: ps) new rest := by
  unfold replaceAll
  induction w with
  | nil => rfl
  | cons c cs ih =>
    have hc : ¬ (p :: ps).isPrefixOf (c :: (cs ++ rest)) = true := by
      intro h
      rw [List.isPrefixOf_cons_cons, Bool.and_eq_true, beq_iff_eq] at h
      exact hw (h.1 ▸ List.mem_cons_self)
    rw [List.cons_append, replaceFrom, if_neg hc, List.cons_append,
      ih fun h => hw (List.mem_cons_of_mem _ h)]

end replace

section decimal

lemma toNat_of_isDigit {c : Char} (h : c.isDigit = true) : 48 ≤ c.toNat ∧ c.toNat ≤ 57 :=
  Char.isDigit_iff_toNat.mp h

lemma digit_of_mem_decimal {n : ℕ} {c : Byte} (h : c ∈ decimal n) : isDigit c = true := by
  obtain ⟨ch, hch, rfl⟩ := List.mem_map.mp h
  have hd := toNat_of_isDigit (Nat.isDigit_of_mem_toDigits (by norm_num) (by norm_num) hch)
  simp only [isDigit, decide_eq_true_eq, BitVec.le_def, BitVec.toNat_ofNat]
  omega

lemma decimal_ne_nil (n : ℕ) : decimal n ≠ [] := by
  simp [decimal, Nat.toDigits_ne_nil]

lemma digitsValue_decimal (n : ℕ) : digitsValue (decimal n) = n := by
  have hval : ∀ ds : List Char, (∀ c ∈ ds, c.isDigit = true) → ∀ v,
      (ds.map fun c => BitVec.ofNat 8 c.toNat).foldl (fun v d => 10 * v + (d.toNat - 48)) v =
        Nat.ofDigitChars 10 ds v := by
    intro ds
    induction ds with
    | nil => intro _ v; simp
    | cons c cs ih =>
      intro h v
      have hc := toNat_of_isDigit (h c List.mem_cons_self)
      have hbyte : (BitVec.ofNat 8 c.toNat).toNat = c.toNat := by
        rw [BitVec.toNat_ofNat]
        omega
      rw [List.map_cons, List.foldl_cons, hbyte, ih fun d hd => h d (List.mem_cons_of_mem _ hd),
        Nat.ofDigitChars_cons]
      rfl
  have hdigits : ∀ c ∈ Nat.toDigits 10 n, c.isDigit = true := fun c hc =>
    Nat.isDigit_of_mem_toDigits (by norm_num) (by norm_num) hc
  rw [digitsValue, decimal, hval _ hdigits]
  exact Nat.ofDigitChars_toDigits (by norm_num) (by norm_num)

lemma isSpace_of_isDigit {c : Byte} (h : isDigit c = true) : isSpace c = false := by
  revert h
  revert c
  decide

/-- Reading a printed number gives it back below 2^64 and throws from there on. -/
theorem stoull_decimal (n : ℕ) :
    stoull (decimal n) = if n < 2 ^ 64 then some (BitVec.ofNat 64 n) else none := by
  have hdrop : (decimal n).dropWhile isSpace = decimal n := by
    cases hd : decimal n with
    | nil => rfl
    | cons c cs =>
      have hc := isSpace_of_isDigit (digit_of_mem_decimal (n := n) (hd ▸ List.mem_cons_self))
      rw [List.dropWhile_cons, hc, if_neg Bool.false_ne_true]
  have hsign : ∀ sign : Byte, isDigit sign = false → (decimal n).head? ≠ some sign := by
    intro sign hs hh
    have hmem := digit_of_mem_decimal (n := n) (List.mem_of_mem_head? hh)
    exact absurd (hmem.symm.trans hs) (by simp)
  have htake : (decimal n).takeWhile isDigit = decimal n :=
    List.takeWhile_eq_self_iff.mpr fun c hc => digit_of_mem_decimal hc
  have hminus := hsign 0x2d#8 (by decide)
  have hplus := hsign 0x2b#8 (by decide)
  simp only [stoull, hdrop, hminus, hplus, or_self, if_false, htake, digitsValue_decimal,
    decimal_ne_nil, false_or]
  by_cases hn : n < 2 ^ 64
  · rw [if_neg (Nat.not_le.mpr hn), if_pos hn]
  · rw [if_pos (Nat.not_lt.mp hn), if_neg hn]

/-- Text that begins with a letter is no number. -/
lemma stoull_cons {c : Byte} (hspace : isSpace c = false) (hdigit : isDigit c = false)
    (hminus : c ≠ 0x2d#8) (hplus : c ≠ 0x2b#8) (s : Bytes) : stoull (c :: s) = none := by
  simp [stoull, hspace, hdigit, hminus, hplus]

end decimal

end Eureka.ByteText
