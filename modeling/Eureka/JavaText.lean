import Mathlib
import Eureka.ByteText
import Eureka.RegexSearch

/-! Java strings as lists of UTF-16 units, and the patterns of the query service that compare a
keyword with a number. -/
namespace Eureka.JavaText
open WordBytes ByteText RegexSearch Regex

abbrev JChar := BitVec 16

abbrev JString := List JChar

/-- A string whose units are single bytes. -/
def widen (s : Bytes) : JString := s.map (BitVec.setWidth 16)

def java (s : String) : JString := widen (ascii s)

/-- `String.valueOf` of an integer that is not negative. -/
def number (n : ℕ) : JString := widen (decimal n)

/-- `trim().isEmpty()` -/
def isBlank (s : JString) : Bool := s.all fun c => c ≤ 0x20#16

def contains (s pat : JString) : Bool := decide (pat <:+: s)

/-- The class `\s`. -/
def isSpace (c : JChar) : Bool :=
  c = 0x20#16 ∨ c = 0x09#16 ∨ c = 0x0a#16 ∨ c = 0x0b#16 ∨ c = 0x0c#16 ∨ c = 0x0d#16

/-- The class `\d`. -/
def isDigit (c : JChar) : Bool := 0x30#16 ≤ c ∧ c ≤ 0x39#16

def digitsValue (s : JString) : ℕ := s.foldl (fun v d => 10 * v + (d.toNat - 48)) 0

/-- `Integer.parseInt` of a string of digits; `none` where it throws. -/
def parseInt (s : JString) : Option ℕ :=
  if digitsValue s ≤ 2147483647 then some (digitsValue s) else none

def isHighSurrogate (c : JChar) : Bool := 0xd800#16 ≤ c ∧ c ≤ 0xdbff#16

def isLowSurrogate (c : JChar) : Bool := 0xdc00#16 ≤ c ∧ c ≤ 0xdfff#16

/-- The low six bits of a code point from a bit position on, as a continuation byte. -/
def continuation (c : BitVec 32) (shift : ℕ) : Byte :=
  0x80#8 ||| ((c >>> shift) &&& 0x3f#32).setWidth 8

/-- UTF-8 of one unit; a surrogate on its own is replaced. -/
def encodeUnit (c : JChar) : Bytes :=
  let point := c.setWidth 32
  if c < 0x80#16 then [c.setWidth 8]
  else if c < 0x800#16 then [0xc0#8 ||| (point >>> 6).setWidth 8, continuation point 0]
  else if isHighSurrogate c ∨ isLowSurrogate c then [0x3f#8]
  else [0xe0#8 ||| (point >>> 12).setWidth 8, continuation point 6, continuation point 0]

def encodePair (high low : JChar) : Bytes :=
  let point := 0x10000#32 + ((high.setWidth 32 - 0xd800#32) <<< 10) + (low.setWidth 32 - 0xdc00#32)
  [0xf0#8 ||| (point >>> 18).setWidth 8, continuation point 12, continuation point 6,
    continuation point 0]

def utf8 : JString → Bytes
  | [] => []
  | [c] => encodeUnit c
  | c :: d :: ds =>
    if isHighSurrogate c ∧ isLowSurrogate d then encodePair c d ++ utf8 ds
    else encodeUnit c ++ utf8 (d :: ds)

section patterns

def spaces : Regex JChar := .star isSpace

def doubleQuote : JChar := 0x22#16

def optionalQuote : Regex JChar := opt (.char (· = doubleQuote))

/-- `keyword\s*op\s*(\d+)`, with the number between two `quotes`. -/
def comparison (keyword : String) (op quotes : Regex JChar) : Regex JChar :=
  .seq (lit (java keyword)) (.seq spaces (.seq op (.seq spaces
    (.seq quotes (.seq (.group (plus isDigit)) quotes)))))

def operators (ops : List String) : Regex JChar := oneOf (ops.map java)

end patterns

section strings

@[simp] lemma widen_append (a b : Bytes) : widen (a ++ b) = widen a ++ widen b := List.map_append

lemma utf8_cons {c : JChar} (h : c < 0x80#16) (s : JString) :
    utf8 (c :: s) = c.setWidth 8 :: utf8 s := by
  have hhigh : ¬ isHighSurrogate c = true := by
    simp only [isHighSurrogate, decide_eq_true_eq, BitVec.le_def, BitVec.lt_def] at h ⊢
    simp only [BitVec.toNat_ofNat] at h ⊢
    omega
  have hunit : encodeUnit c = [c.setWidth 8] := if_pos h
  cases s with
  | nil => exact hunit
  | cons d ds =>
    rw [utf8, if_neg fun hp => hhigh hp.1, hunit]
    rfl

/-- Text below 0x80 is its own encoding. -/
theorem utf8_widen {s : Bytes} (h : ∀ c ∈ s, c < 0x80#8) : utf8 (widen s) = s := by
  induction s with
  | nil => rfl
  | cons c cs ih =>
    obtain ⟨hc, hcs⟩ := List.forall_mem_cons.mp h
    have hwide : c.setWidth 16 < 0x80#16 := by
      simp only [BitVec.lt_def, BitVec.toNat_setWidth, BitVec.toNat_ofNat] at hc ⊢
      omega
    have hback : (c.setWidth 16).setWidth 8 = c := by simp
    have hcons : widen (c :: cs) = c.setWidth 16 :: widen cs := rfl
    rw [hcons, utf8_cons hwide, hback, ih hcs]

lemma digitsValue_widen (ds : Bytes) : digitsValue (widen ds) = ByteText.digitsValue ds := by
  have hbyte : ∀ d : Byte, (d.setWidth 16).toNat = d.toNat := by
    intro d
    have := d.isLt
    rw [BitVec.toNat_setWidth]
    omega
  simp only [digitsValue, ByteText.digitsValue, widen, List.foldl_map, hbyte]

lemma isDigit_widen (d : Byte) : isDigit (d.setWidth 16) = ByteText.isDigit d := by
  revert d
  decide

lemma isDigit_of_mem_number {n : ℕ} {c : JChar} (h : c ∈ number n) : isDigit c = true := by
  obtain ⟨d, hd, rfl⟩ := List.mem_map.mp h
  rw [isDigit_widen]
  exact digit_of_mem_decimal hd

lemma number_ne_nil (n : ℕ) : number n ≠ [] := by
  simp [number, widen, decimal_ne_nil]

lemma parseInt_number (n : ℕ) : parseInt (number n) = if n ≤ 2147483647 then some n else none := by
  rw [parseInt, number, digitsValue_widen, digitsValue_decimal]

lemma parseInt_le {s : JString} {n : ℕ} (h : parseInt s = some n) : n ≤ 2147483647 := by
  unfold parseInt at h
  split_ifs at h with hle
  rw [← Option.some.inj h]
  exact hle

lemma isSpace_of_isDigit {c : JChar} (h : isDigit c = true) : isSpace c = false := by
  rw [Bool.eq_false_iff]
  intro hs
  simp only [isDigit, isSpace, decide_eq_true_eq] at h hs
  rcases hs with rfl | rfl | rfl | rfl | rfl | rfl <;> exact absurd h (by decide)

end strings

section matching
variable {keyword : String} {op op' quotes quotes' : Regex JChar} {s : JString}

lemma mem_lang_comparison {w : JString} (h : w ∈ lang (comparison keyword op quotes)) :
    java keyword <+: w := by
  obtain ⟨a, ha, b, -, rfl⟩ := mem_lang_seq.mp h
  rw [(mem_lang_lit _).mp ha]
  exact List.prefix_append _ b

/-- A comparison is found only where its keyword stands. -/
lemma keyword_of_find (h : (find (comparison keyword op quotes) s).isSome = true) :
    java keyword <:+: s := by
  obtain ⟨w, hw, hin⟩ := find_isSome_iff.mp h
  exact (mem_lang_comparison hw).isInfix.trans hin

lemma find_eq_none (h : ¬ java keyword <:+: s) : find (comparison keyword op quotes) s = none := by
  rw [← Option.not_isSome_iff_eq_none]
  exact fun hfound => h (keyword_of_find hfound)

/-- More operators and more quotes match more. -/
lemma comparison_mono (hop : lang op ≤ lang op') (hquotes : lang quotes ≤ lang quotes') :
    lang (comparison keyword op quotes) ≤ lang (comparison keyword op' quotes') := by
  refine mul_le_mul' le_rfl (mul_le_mul' le_rfl (mul_le_mul' hop (mul_le_mul' le_rfl ?_)))
  exact mul_le_mul' hquotes (mul_le_mul' le_rfl hquotes)

lemma operators_mono {ops ops' : List String} (h : ops ⊆ ops') :
    lang (operators ops) ≤ lang (operators ops') := by
  intro w hw
  obtain ⟨o, ho, rfl⟩ := List.mem_map.mp ((mem_lang_oneOf _).mp hw)
  exact (mem_lang_oneOf _).mpr (List.mem_map_of_mem (h ho))

lemma eps_le_optionalQuote : lang (.eps : Regex JChar) ≤ lang optionalQuote :=
  fun _ hw => mem_lang_alt.mpr (Or.inr hw)

/-- The parts of a comparison in a text, and what may follow them. -/
structure Written (op quotes : Regex JChar) (g : List JString)
    (gap opText gap' opening digits closing tail : JString) : Prop where
  spaces_gap : ∀ c ∈ gap, isSpace c = true
  head_op : ∃ c, opText.head? = some c ∧ isSpace c = false
  first_op : first op (opText ++ (gap' ++ (opening ++ (digits ++ (closing ++ tail))))) =
    some (g, gap' ++ (opening ++ (digits ++ (closing ++ tail))))
  spaces_gap' : ∀ c ∈ gap', isSpace c = true
  head_opening : ∀ c, (opening ++ digits).head? = some c → isSpace c = false
  first_opening : first quotes (opening ++ (digits ++ (closing ++ tail))) =
    some ([], digits ++ (closing ++ tail))
  all_digits : ∀ c ∈ digits, isDigit c = true
  digits_ne : digits ≠ []
  head_closing : ∀ c, (closing ++ tail).head? = some c → isDigit c = false
  first_closing : first quotes (closing ++ tail) = some ([], tail)

/-- A comparison that is written in a text is matched as written. -/
theorem first_comparison {g : List JString} {gap opText gap' opening digits closing tail : JString}
    (h : Written op quotes g gap opText gap' opening digits closing tail) :
    first (comparison keyword op quotes) (java keyword ++ (gap ++ (opText ++ (gap' ++
      (opening ++ (digits ++ (closing ++ tail))))))) = some (g ++ [digits], tail) := by
  have hdigits := first_group (first_plus h.all_digits h.digits_ne h.head_closing)
  have hnumber := first_seq h.first_opening (first_seq hdigits h.first_closing)
  have hstop : ∀ c, (opening ++ (digits ++ (closing ++ tail))).head? = some c → isSpace c = false := by
    intro c hc
    refine h.head_opening c ?_
    rw [← List.append_assoc, List.head?_append_of_ne_nil] at hc
    · exact hc
    · simp [h.digits_ne]
  have hop := first_seq h.first_op (first_seq (first_star h.spaces_gap' hstop) hnumber)
  have hstart : ∀ c, (opText ++ (gap' ++ (opening ++ (digits ++ (closing ++ tail))))).head? = some c →
      isSpace c = false := by
    obtain ⟨d, hd, hspace⟩ := h.head_op
    intro c hc
    rw [List.head?_append, hd] at hc
    rwa [← Option.some.inj hc]
  have hall := first_seq (first_lit (java keyword)) (first_seq (first_star h.spaces_gap hstart) hop)
  simpa [comparison, spaces] using hall

lemma first_eq_none_of_head (hpre : ¬ java keyword <+: s) :
    first (comparison keyword op quotes) s = none :=
  first_eq_none fun _ hw hin => hpre ((mem_lang_comparison hw).trans hin)

/-- Text without the first letter of the keyword is passed over. -/
lemma find_skip_letter {pre : JString} {c : JChar} (hc : (java keyword).head? = some c)
    (hpre : c ∉ pre) :
    find (comparison keyword op quotes) (pre ++ s) = find (comparison keyword op quotes) s := by
  obtain ⟨cs, hcs⟩ := List.head?_eq_some_iff.mp hc
  refine find_skip pre fun k hk => first_eq_none_of_head ?_
  rw [List.drop_append_of_le_length hk.le, List.drop_eq_getElem_cons hk, List.cons_append, hcs,
    List.cons_prefix_cons]
  rintro ⟨heq, -⟩
  exact hpre (heq ▸ List.getElem_mem hk)

lemma space_only : ∀ c ∈ java " ", isSpace c = true := by
  have hspace : java " " = [0x20#16] := rfl
  rw [hspace]
  exact List.forall_mem_singleton.mpr rfl

/-- A number with one space on both sides of the operator, where the quotes match nothing, and no
digit after it. -/
lemma written_unquoted {g : List JString} {opText tail : JString} {c : JChar}
    (hhead : opText.head? = some c) (hc : isSpace c = false)
    (hop : ∀ rest, first op (opText ++ (java " " ++ rest)) = some (g, java " " ++ rest)) (n : ℕ)
    (hopening : first quotes (number n ++ tail) = some ([], number n ++ tail))
    (hclosing : first quotes tail = some ([], tail))
    (htail : ∀ d, tail.head? = some d → isDigit d = false) :
    Written op quotes g (java " ") opText (java " ") [] (number n) [] tail where
  spaces_gap := space_only
  head_op := ⟨c, hhead, hc⟩
  first_op := hop _
  spaces_gap' := space_only
  head_opening d hd := by
    rw [List.nil_append] at hd
    exact isSpace_of_isDigit (isDigit_of_mem_number (List.mem_of_mem_head? hd))
  first_opening := by rwa [List.nil_append, List.nil_append]
  all_digits _ hd := isDigit_of_mem_number hd
  digits_ne := number_ne_nil n
  head_closing d hd := by
    rw [List.nil_append] at hd
    exact htail d hd
  first_closing := by rwa [List.nil_append]

lemma head_number (n : ℕ) (tail : JString) : (number n ++ tail).head? ≠ some doubleQuote := by
  rw [List.head?_append_of_ne_nil _ (number_ne_nil n)]
  intro h
  exact absurd (isDigit_of_mem_number (List.mem_of_mem_head? h)) (by decide)

lemma first_optionalQuote (h : s.head? ≠ some doubleQuote) : first optionalQuote s = some ([], s) := by
  have hnone : first (.char (· = doubleQuote)) s = none := by
    refine first_eq_none fun w hw hpre => h ?_
    obtain ⟨c, hc, rfl⟩ := hw
    obtain ⟨rest, rfl⟩ := hpre
    exact congrArg some (of_decide_eq_true hc)
  rw [optionalQuote, opt, first_alt_right hnone]
  exact first_eps

lemma not_keyword {c : JChar} (hc : c ∈ java keyword) (hs : c ∉ s) : ¬ java keyword <:+: s :=
  fun h => hs (h.subset hc)

lemma notMem_number {c : JChar} (hc : isDigit c = false) (n : ℕ) : c ∉ number n := by
  intro h
  exact absurd ((isDigit_of_mem_number h).symm.trans hc) (by simp)

end matching

end Eureka.JavaText
