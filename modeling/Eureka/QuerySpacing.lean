import Mathlib
import Eureka.NumericQueries
import Eureka.StringQueries

/-! Conjunctions of a status and a latency comparison in any spacing: which words the token
loop sees, and when it reads both constants. -/
namespace Eureka.Dispatcher
open WordBytes ByteText

abbrev Blank := { b : Bytes // ∀ c ∈ b, isSpace c = true }

/-- The space on the two sides of an operator. -/
structure Spelling where
  before : Blank
  after : Blank

inductive Connective
  | upper
  | lower
  | ampersands
  deriving DecidableEq, Repr

def Connective.text : Connective → Bytes
  | .upper => ascii "AND"
  | .lower => ascii "and"
  | .ampersands => ascii "&&"

/-- What the clean-up leaves of a connective. -/
def Connective.cleaned : Connective → Bytes
  | .upper => ascii " "
  | .lower => ascii " "
  | .ampersands => ascii "  "

/-- An atom in a spelling. -/
structure Spelled where
  atom : Atom
  spelling : Spelling

namespace Spelled

def text (s : Spelled) : Bytes :=
  s.atom.keyword ++ (s.spelling.before ++
    (s.atom.op ++ (s.spelling.after ++ decimal s.atom.constant)))

/-- The operator stands apart from the keyword and touches the number. -/
def Glued (s : Spelled) : Prop := s.spelling.before.val ≠ [] ∧ s.spelling.after.val = []

instance (s : Spelled) : Decidable s.Glued := inferInstanceAs (Decidable (_ ∧ _))

def words (s : Spelled) : List Bytes :=
  if s.spelling.before.val = [] then
    if s.spelling.after.val = [] then
      [s.atom.keyword ++ (s.atom.op ++ decimal s.atom.constant)]
    else [s.atom.keyword ++ s.atom.op, decimal s.atom.constant]
  else if s.spelling.after.val = [] then
    [s.atom.keyword, s.atom.op ++ decimal s.atom.constant]
  else [s.atom.keyword, s.atom.op, decimal s.atom.constant]

end Spelled

section cleaning

lemma inert_blank (b : Blank) : Inert b := by
  have hmarks : ∀ c ∈ marks, isSpace c = false := by decide
  exact Inert.of_notMem fun c hc hm =>
    Bool.false_ne_true ((hmarks c hc).symm.trans (b.property c hm))

lemma inert_spelled (s : Spelled) : Inert s.text :=
  (inert_keyword _).append ((inert_blank _).append
    ((inert_op _).append ((inert_blank _).append (inert_decimal _))))

lemma cleanConnectives_of_inert {x y : Bytes} (hx : Inert x) (hy : Inert y) (c : Connective) :
    cleanConnectives (x ++ (c.text ++ y)) = x ++ (c.cleaned ++ y) := by
  cases c with
  | upper =>
    exact @Inert.pair x y hx hy (ascii "AND") (ascii "AND") (ascii " ") (ascii " ") rfl
      (fun _ => rfl) (fun _ => rfl)
  | lower =>
    exact @Inert.pair x y hx hy (ascii "and") (ascii "and") (ascii "and") (ascii " ") rfl
      (fun _ => rfl) (fun _ => rfl)
  | ampersands =>
    exact @Inert.pair x y hx hy (ascii "&&") (ascii "  ") (ascii "  ") (ascii "  ") rfl
      (fun _ => rfl) (fun _ => rfl)

end cleaning

section tokens

/-- After this tail a word ends, and then come the words `ws`. -/
def EndsWord (tail : Bytes) (ws : List Bytes) : Prop :=
  ∀ w : Bytes, (∀ c ∈ w, isSpace c = false) → w ≠ [] → ByteText.words (w ++ tail) = w :: ws

lemma endsWord_nil : EndsWord [] [] := by
  intro w hw hne
  rw [List.append_nil, words_singleton hw hne]

lemma endsWord_blank {b : Bytes} (hb : ∀ c ∈ b, isSpace c = true) (hb' : b ≠ []) (rest : Bytes) :
    EndsWord (b ++ rest) (ByteText.words rest) := fun _ hw hne =>
  words_append_blank hw hne hb hb' rest

lemma not_space_append {x y : Bytes} (hx : ∀ c ∈ x, isSpace c = false)
    (hy : ∀ c ∈ y, isSpace c = false) : ∀ c ∈ x ++ y, isSpace c = false := by
  intro c hc
  rcases List.mem_append.mp hc with hc | hc
  · exact hx c hc
  · exact hy c hc

lemma words_spelled (s : Spelled) {tail : Bytes} {ws : List Bytes} (htail : EndsWord tail ws) :
    ByteText.words (s.text ++ tail) = s.words ++ ws := by
  obtain ⟨hk, hk'⟩ := keyword_word s.atom
  obtain ⟨ho, ho'⟩ := op_word s.atom
  have hd := not_space_decimal s.atom.constant
  have hd' := decimal_ne_nil s.atom.constant
  have hb := s.spelling.before.property
  have ha := s.spelling.after.property
  have hnum := htail _ hd hd'
  have hassoc : s.text ++ tail = s.atom.keyword ++ (s.spelling.before.val ++
      (s.atom.op ++ (s.spelling.after.val ++ (decimal s.atom.constant ++ tail)))) := by
    simp only [Spelled.text, List.append_assoc]
  rw [hassoc, Spelled.words]
  by_cases hbefore : s.spelling.before.val = []
  · by_cases hafter : s.spelling.after.val = []
    · have hone := htail (s.atom.keyword ++ (s.atom.op ++ decimal s.atom.constant))
        (not_space_append hk (not_space_append ho hd)) (by simp [hk'])
      rw [if_pos hbefore, if_pos hafter, hbefore, hafter]
      simpa only [List.append_assoc, List.nil_append, List.cons_append] using hone
    · have htwo := words_append_blank (not_space_append hk ho) (by simp [hk']) ha hafter
        (decimal s.atom.constant ++ tail)
      rw [if_pos hbefore, if_neg hafter, hbefore]
      rw [hnum] at htwo
      simpa only [List.append_assoc, List.nil_append, List.cons_append] using htwo
  · have hfirst := words_append_blank hk hk' hb hbefore
    rw [hfirst, if_neg hbefore]
    by_cases hafter : s.spelling.after.val = []
    · have hglued := htail (s.atom.op ++ decimal s.atom.constant) (not_space_append ho hd)
        (by simp [ho'])
      rw [if_pos hafter, hafter, List.nil_append]
      rw [List.append_assoc] at hglued
      rw [hglued]
      rfl
    · rw [if_neg hafter, words_append_blank ho ho' ha hafter, hnum]
      rfl

end tokens

section reading

/-- A word that names neither field is passed over. -/
lemma parseTerms_foreign {ws : List Bytes}
    (h : ∀ w ∈ ws, contains (ascii "status") w = false ∧ contains (ascii "latency") w = false)
    (t : Targets) : parseTerms ws t = t := by
  induction ws with
  | nil => exact parseTerms_nil t
  | cons w ws ih =>
    obtain ⟨hs, hl⟩ := h w List.mem_cons_self
    rw [parseTerms, hs, hl, if_neg Bool.false_ne_true, if_neg Bool.false_ne_true]
    exact ih fun v hv => h v (List.mem_cons_of_mem _ hv)

def Atom.set : Atom → Targets → Bytes → Targets
  | .status _ => Targets.setStatus
  | .latency _ => Targets.setLatency

lemma Atom.apply_eq (a : Atom) (t : Targets) : a.apply t = a.set t (decimal a.constant) := by
  cases a <;> rfl

lemma find_keyword (a : Atom) : find a.op a.keyword = none := by cases a <;> rfl

lemma find_op (a : Atom) (y : Bytes) :
    find a.op (a.keyword ++ (a.op ++ y)) = some a.keyword.length := by
  cases a <;> rfl

/-- The number behind the operator in the same word. -/
lemma takeTerm_joined (a : Atom) {y : Bytes} (hy : y ≠ []) (rest : List Bytes) (t : Targets) :
    takeTerm a.op a.set (a.keyword ++ (a.op ++ y)) rest t = (rest, a.set t y) := by
  have hdrop : (a.keyword ++ (a.op ++ y)).drop (a.keyword.length + a.op.length) = y := by
    rw [← List.append_assoc]
    exact List.drop_left' List.length_append
  simp only [takeTerm, find_op, hdrop, if_neg hy]

lemma takeTerm_op (a : Atom) (val : Bytes) (rest : List Bytes) (t : Targets) :
    takeTerm a.op a.set (a.keyword ++ a.op) (val :: rest) t = (rest, a.set t val) := by
  have hfind := find_op a []
  have hdrop : (a.keyword ++ a.op).drop (a.keyword.length + a.op.length) = [] := by
    rw [← List.length_append, List.drop_length]
  rw [List.append_nil] at hfind
  simp only [takeTerm, hfind, hdrop, if_true]

lemma takeTerm_keyword (a : Atom) (op val : Bytes) (rest : List Bytes) (t : Targets) :
    takeTerm a.op a.set a.keyword (op :: val :: rest) t = (rest, a.set t val) := by
  simp only [takeTerm, find_keyword]

/-- A word that begins with a keyword is a field; the letter `s` occurs in no operator or
number, so the word of a latency names no status. -/
lemma parseTerms_field (a : Atom) {x : Bytes} (hx : 0x73#8 ∉ x) (rest : List Bytes) (t : Targets) :
    parseTerms ((a.keyword ++ x) :: rest) t =
      parseTerms (takeTerm a.op a.set (a.keyword ++ x) rest t).1
        (takeTerm a.op a.set (a.keyword ++ x) rest t).2 := by
  cases a with
  | status n =>
    have hs : contains (ascii "status") (ascii "status" ++ x) = true := contains_prefix _ _
    exact (parseTerms.eq_2 _ _ _).trans (if_pos hs)
  | latency m =>
    have hl : contains (ascii "latency") (ascii "latency" ++ x) = true := contains_prefix _ _
    have hall : 0x73#8 ∉ ascii "latency" ++ x := by
      rw [List.mem_append, not_or]
      exact ⟨by decide, hx⟩
    have hs : ¬ contains (ascii "status") (ascii "latency" ++ x) = true := by
      rw [Bool.not_eq_true]
      exact contains_of_notMem hall
    exact (parseTerms.eq_2 _ _ _).trans ((if_neg hs).trans (if_pos hl))

/-- Neither keyword begins in an operator or a number. -/
lemma op_letters (a : Atom) : 0x73#8 ∉ a.op ∧ 0x6c#8 ∉ a.op := by
  cases a with
  | status n => exact ⟨show 0x73#8 ∉ ascii "==" by decide, show 0x6c#8 ∉ ascii "==" by decide⟩
  | latency m => exact ⟨show 0x73#8 ∉ ascii ">" by decide, show 0x6c#8 ∉ ascii ">" by decide⟩

lemma decimal_letters (n : ℕ) : 0x73#8 ∉ decimal n ∧ 0x6c#8 ∉ decimal n :=
  ⟨notMem_decimal rfl n, notMem_decimal rfl n⟩

/-- A spelling that is not glued is read like the canonical one. -/
lemma parseTerms_spelled (s : Spelled) (h : ¬ s.Glued) (rest : List Bytes) (t : Targets) :
    parseTerms (s.words ++ rest) t = parseTerms rest (s.atom.apply t) := by
  have hop := (op_letters s.atom).1
  have hnum : 0x73#8 ∉ s.atom.op ++ decimal s.atom.constant := by
    rw [List.mem_append, not_or]
    exact ⟨hop, (decimal_letters _).1⟩
  rw [Spelled.words, Atom.apply_eq]
  by_cases hbefore : s.spelling.before.val = []
  · by_cases hafter : s.spelling.after.val = []
    · rw [if_pos hbefore, if_pos hafter, List.singleton_append, parseTerms_field _ hnum,
        takeTerm_joined _ (decimal_ne_nil _)]
    · rw [if_pos hbefore, if_neg hafter, List.cons_append, parseTerms_field _ hop,
        List.singleton_append, takeTerm_op]
  · have hafter : s.spelling.after.val ≠ [] := fun ha => h ⟨hbefore, ha⟩
    have hfield := parseTerms_field s.atom (x := []) (by simp)
      (s.atom.op :: decimal s.atom.constant :: rest) t
    rw [List.append_nil, takeTerm_keyword] at hfield
    rw [if_neg hbefore, if_neg hafter]
    exact hfield

/-- After a glued spelling the next word is lost. -/
lemma parseTerms_glued (s : Spelled) (h : s.Glued) (rest : List Bytes) (t : Targets)
    (hrest : ∀ w, rest.head? = some w → stoull w = none) :
    parseTerms (s.words ++ rest) t = parseTerms rest.tail t := by
  have hfield := parseTerms_field s.atom (x := []) (by simp)
    ((s.atom.op ++ decimal s.atom.constant) :: rest) t
  rw [List.append_nil] at hfield
  rw [Spelled.words, if_neg h.1, if_pos h.2]
  refine hfield.trans ?_
  cases rest with
  | nil => simp only [takeTerm, find_keyword, List.tail_nil]
  | cons w rest =>
    have hw := hrest w rfl
    have hset : s.atom.set t w = t := by
      cases s.atom <;> simp [Atom.set, Targets.setStatus, Targets.setLatency, hw]
    rw [takeTerm_keyword, hset, List.tail_cons]

lemma stoull_keyword (a : Atom) (x : Bytes) : stoull (a.keyword ++ x) = none := by
  cases a with
  | status n => exact stoull_cons (c := 0x73#8) rfl rfl (by decide) (by decide) _
  | latency m => exact stoull_cons (c := 0x6c#8) rfl rfl (by decide) (by decide) _

/-- Every word of an atom begins with its keyword or names no field. -/
lemma words_head (s : Spelled) : ∃ x, s.words.head? = some (s.atom.keyword ++ x) := by
  unfold Spelled.words
  split_ifs
  · exact ⟨_, rfl⟩
  · exact ⟨_, rfl⟩
  · exact ⟨[], by rw [List.append_nil]; rfl⟩
  · exact ⟨[], by rw [List.append_nil]; rfl⟩

lemma words_tail (s : Spelled) : ∀ w ∈ s.words.tail,
    contains (ascii "status") w = false ∧ contains (ascii "latency") w = false := by
  have hforeign : ∀ w : Bytes, 0x73#8 ∉ w ∧ 0x6c#8 ∉ w →
      contains (ascii "status") w = false ∧ contains (ascii "latency") w = false := fun w h =>
    ⟨contains_of_notMem h.1, contains_of_notMem h.2⟩
  have hop := op_letters s.atom
  have hnum := decimal_letters s.atom.constant
  unfold Spelled.words
  split_ifs
  · simp
  · simpa using hforeign _ hnum
  · have hboth : 0x73#8 ∉ s.atom.op ++ decimal s.atom.constant ∧
        0x6c#8 ∉ s.atom.op ++ decimal s.atom.constant := by
      rw [List.mem_append, List.mem_append, not_or, not_or]
      exact ⟨⟨hop.1, hnum.1⟩, ⟨hop.2, hnum.2⟩⟩
    simpa using hforeign _ hboth
  · simpa using ⟨hforeign _ hop, hforeign _ hnum⟩

end reading

/-- A status and a latency comparison joined by a connective. -/
structure Conjunction where
  status : Word
  latency : Word
  statusFirst : Bool
  first : Spelling
  second : Spelling
  connective : Connective
  left : Blank
  right : Blank

namespace Conjunction

def atoms (q : Conjunction) : Atom × Atom :=
  let s := Atom.status q.status.toNat
  let l := Atom.latency q.latency.toNat
  if q.statusFirst then (s, l) else (l, s)

def spelledFirst (q : Conjunction) : Spelled := ⟨q.atoms.1, q.first⟩

def spelledSecond (q : Conjunction) : Spelled := ⟨q.atoms.2, q.second⟩

def text (q : Conjunction) : Bytes :=
  (q.spelledFirst.text ++ q.left) ++ (q.connective.text ++ (q.right ++ q.spelledSecond.text))

/-- The targets that the token loop leaves. -/
def targets (q : Conjunction) : Targets :=
  if q.spelledFirst.Glued then ⟨0, 0⟩
  else if q.spelledSecond.Glued then q.atoms.1.apply ⟨0, 0⟩
  else q.atoms.2.apply (q.atoms.1.apply ⟨0, 0⟩)

lemma parseTerms_words (q : Conjunction) :
    parseTerms (q.spelledFirst.words ++ q.spelledSecond.words) ⟨0, 0⟩ = q.targets := by
  have hsecond : ∀ t, parseTerms q.spelledSecond.words t =
      if q.spelledSecond.Glued then t else q.atoms.2.apply t := by
    intro t
    split_ifs with h
    · have hg := parseTerms_glued q.spelledSecond h [] t (by simp)
      rwa [List.append_nil, List.tail_nil, parseTerms_nil] at hg
    · have hs := parseTerms_spelled q.spelledSecond h [] t
      rwa [List.append_nil, parseTerms_nil] at hs
  unfold targets
  by_cases h : q.spelledFirst.Glued
  · rw [if_pos h, parseTerms_glued _ h]
    · exact parseTerms_foreign (words_tail _) _
    · intro w hw
      obtain ⟨x, hx⟩ := words_head q.spelledSecond
      rw [← Option.some.inj (hx.symm.trans hw)]
      exact stoull_keyword _ x
  · rw [if_neg h, parseTerms_spelled _ h, hsecond]
    rfl

lemma words_text (q : Conjunction) : ByteText.words (cleanConnectives q.text) =
    q.spelledFirst.words ++ q.spelledSecond.words := by
  have hclean : cleanConnectives q.text =
      q.spelledFirst.text ++ ((q.left.val ++ q.connective.cleaned) ++
        (q.right.val ++ q.spelledSecond.text)) := by
    rw [text, cleanConnectives_of_inert ((inert_spelled _).append (inert_blank _))
      ((inert_blank _).append (inert_spelled _))]
    simp only [List.append_assoc]
  have hgap : ∀ c ∈ q.left.val ++ q.connective.cleaned, isSpace c = true := by
    intro c hc
    rcases List.mem_append.mp hc with hc | hc
    · exact q.left.property c hc
    · have hcleaned : ∀ k : Connective, ∀ d ∈ k.cleaned, isSpace d = true := by
        intro k
        cases k <;> decide
      exact hcleaned _ c hc
  have hne : q.left.val ++ q.connective.cleaned ≠ [] := by
    intro h
    have hc := (List.append_eq_nil_iff.mp h).2
    revert hc
    cases q.connective <;> decide
  have hsecond := words_spelled q.spelledSecond endsWord_nil
  rw [List.append_nil, List.append_nil] at hsecond
  rw [hclean, words_spelled _ (endsWord_blank hgap hne _), words_blank q.right.property, hsecond]

lemma trim_text (q : Conjunction) : trim q.text = q.text := by
  have hstart : ∃ x, q.text = q.atoms.1.keyword ++ x := by
    simp only [text, Spelled.text, spelledFirst, List.append_assoc]
    exact ⟨_, rfl⟩
  have hend : ∃ x, q.text = x ++ decimal q.atoms.2.constant := by
    simp only [text, Spelled.text, spelledSecond, ← List.append_assoc]
    exact ⟨_, rfl⟩
  obtain ⟨x, hx⟩ := hstart
  obtain ⟨y, hy⟩ := hend
  exact trim_comparison hx hy

lemma isNumerical_text (q : Conjunction) : isNumerical q.text = true := by
  have h := isNumerical_op q.atoms.1 (q.atoms.1.keyword ++ q.first.before.val)
    (q.first.after.val ++ (decimal q.atoms.1.constant ++ (q.left.val ++
      (q.connective.text ++ (q.right.val ++ q.spelledSecond.text)))))
  simpa only [text, Spelled.text, spelledFirst, List.append_assoc] using h

/-- What the dispatcher makes of a conjunction. -/
lemma parseQuery_text (q : Conjunction) : parseQuery q.text =
    some ⟨.bitSlicedNumericalLogic, [], q.targets.status, q.targets.latency⟩ := by
  simp only [parseQuery, trim_text, isNumerical_text, not_true_eq_false, if_false, words_text,
    parseTerms_words]

lemma apply_status (n : Word) (t : Targets) :
    (Atom.status n.toNat).apply t = { t with status := n } := by
  rw [Atom.apply, Targets.setStatus, stoull_decimal, if_pos n.isLt, BitVec.ofNat_toNat,
    BitVec.setWidth_eq, Option.getD_some]

lemma apply_latency (m : Word) (t : Targets) :
    (Atom.latency m.toNat).apply t = { t with latency := m } := by
  rw [Atom.apply, Targets.setLatency, stoull_decimal, if_pos m.isLt, BitVec.ofNat_toNat,
    BitVec.setWidth_eq, Option.getD_some]

lemma word_eq_zero_iff (w : Word) : w.toNat = 0 ↔ 0 = w := by
  rw [eq_comm (a := 0), BitVec.toNat_eq]
  rfl

/-- Both constants are read exactly if no glued spelling loses one, apart from zeros: a
number that is not read leaves a zero. -/
theorem spaced_query_iff (q : Conjunction) :
    parseQuery q.text = some ⟨.bitSlicedNumericalLogic, [], q.status, q.latency⟩ ↔
      if q.spelledFirst.Glued then q.status = 0 ∧ q.latency = 0
      else q.spelledSecond.Glued → q.atoms.2.constant = 0 := by
  have hread : parseQuery q.text = some ⟨.bitSlicedNumericalLogic, [], q.status, q.latency⟩ ↔
      q.targets.status = q.status ∧ q.targets.latency = q.latency := by
    rw [parseQuery_text]
    simp
  rw [hread, targets]
  split_ifs with hfirst hsecond
  · exact and_congr eq_comm eq_comm
  · cases hq : q.statusFirst with
    | true =>
      have ha : q.atoms = (.status q.status.toNat, .latency q.latency.toNat) := by
        simp [atoms, hq]
      rw [ha, apply_status, Atom.constant, word_eq_zero_iff]
      exact ⟨fun h _ => h.2, fun h => ⟨rfl, h hsecond⟩⟩
    | false =>
      have ha : q.atoms = (.latency q.latency.toNat, .status q.status.toNat) := by
        simp [atoms, hq]
      rw [ha, apply_latency, Atom.constant, word_eq_zero_iff]
      exact ⟨fun h _ => h.1, fun h => ⟨h hsecond, rfl⟩⟩
  · have ha : (q.atoms.2.apply (q.atoms.1.apply ⟨0, 0⟩)) = ⟨q.status, q.latency⟩ := by
      cases hq : q.statusFirst with
      | true => simp only [atoms, hq, if_true, apply_status, apply_latency]
      | false => simp only [atoms, hq, Bool.false_eq_true, if_false, apply_status, apply_latency]
    rw [ha]
    exact iff_of_true ⟨rfl, rfl⟩ fun h => absurd h hsecond

/-- `status ==500 AND latency > 100` -/
def gluedQuery : Conjunction where
  status := 500
  latency := 100
  statusFirst := true
  first := ⟨⟨ascii " ", by decide⟩, ⟨[], by simp⟩⟩
  second := ⟨⟨ascii " ", by decide⟩, ⟨ascii " ", by decide⟩⟩
  connective := .upper
  left := ⟨ascii " ", by decide⟩
  right := ⟨ascii " ", by decide⟩

example : gluedQuery.text = ascii "status ==500 AND latency > 100" := by decide

/-- The glued comparison swallows the keyword behind it, and neither number is read. -/
theorem glued_query_reads_zeros :
    ¬ ∀ q : Conjunction,
      parseQuery q.text = some ⟨.bitSlicedNumericalLogic, [], q.status, q.latency⟩ := by
  intro h
  have hq := h gluedQuery
  have hglued : gluedQuery.spelledFirst.Glued := by decide
  rw [parseQuery_text, targets, if_pos hglued] at hq
  revert hq
  decide

end Conjunction

end Eureka.Dispatcher
