import Mathlib
import Eureka.Dispatcher
import Eureka.PipelineProgress

/-! The numerical queries in canonical spacing: what they say about a record, which two
numbers the dispatcher makes of them, and when a scan for these numbers counts the records
that the query describes. -/
namespace Eureka.Dispatcher
open WordBytes Apex Simdjson ByteText Pipeline

inductive Atom
  | status (n : ℕ)
  | latency (m : ℕ)
  deriving DecidableEq, Repr

inductive Query
  | single (a : Atom)
  | both (a b : Atom)
  | either (a b : Atom)
  deriving DecidableEq, Repr

namespace Atom

def text : Atom → Bytes
  | .status n => ascii "status == " ++ decimal n
  | .latency m => ascii "latency > " ++ decimal m

def holds (r : LogRecord) : Atom → Bool
  | .status n => r.status.toNat = n
  | .latency m => m < r.latency.toNat

def constant : Atom → ℕ
  | .status n => n
  | .latency m => m

/-- Constants from 2^64 on are skipped by the parser. -/
def InRange (a : Atom) : Prop := a.constant < 2 ^ 64

instance (a : Atom) : Decidable a.InRange := inferInstanceAs (Decidable (_ < _))

end Atom

namespace Query

def text : Query → Bytes
  | .single a => a.text
  | .both a b => a.text ++ (ascii " AND " ++ b.text)
  | .either a b => a.text ++ (ascii " || " ++ b.text)

/-- The query as written. -/
def holds (r : LogRecord) : Query → Bool
  | .single a => a.holds r
  | .both a b => a.holds r && b.holds r
  | .either a b => a.holds r || b.holds r

end Query

section parsing

def Atom.words : Atom → List Bytes
  | .status n => [ascii "status", ascii "==", decimal n]
  | .latency m => [ascii "latency", ascii ">", decimal m]

def Atom.apply (t : Targets) : Atom → Targets
  | .status n => t.setStatus (decimal n)
  | .latency m => t.setLatency (decimal m)

lemma not_space_decimal (n : ℕ) : ∀ c ∈ decimal n, isSpace c = false := fun _ hc =>
  isSpace_of_isDigit (digit_of_mem_decimal hc)

lemma notMem_decimal {c : Byte} (hc : isDigit c = false) (n : ℕ) : c ∉ decimal n := by
  intro h
  exact absurd ((digit_of_mem_decimal h).symm.trans hc) (by simp)

lemma words_word_space {w : Bytes} (hw : ∀ c ∈ w, isSpace c = false) (hne : w ≠ [])
    (rest : Bytes) : ByteText.words (w ++ 0x20#8 :: rest) = w :: ByteText.words rest :=
  words_append_space hw hne rfl rest

def Atom.keyword : Atom → Bytes
  | .status _ => ascii "status"
  | .latency _ => ascii "latency"

def Atom.op : Atom → Bytes
  | .status _ => ascii "=="
  | .latency _ => ascii ">"

lemma Atom.text_eq (a : Atom) :
    a.text = a.keyword ++ 0x20#8 :: (a.op ++ 0x20#8 :: decimal a.constant) := by
  cases a <;> rfl

lemma Atom.words_eq (a : Atom) : a.words = [a.keyword, a.op, decimal a.constant] := by
  cases a <;> rfl

lemma keyword_word (a : Atom) : (∀ c ∈ a.keyword, isSpace c = false) ∧ a.keyword ≠ [] := by
  cases a with
  | status n => exact ⟨show ∀ c ∈ ascii "status", _ by decide, show ascii "status" ≠ [] by decide⟩
  | latency m =>
    exact ⟨show ∀ c ∈ ascii "latency", _ by decide, show ascii "latency" ≠ [] by decide⟩

lemma op_word (a : Atom) : (∀ c ∈ a.op, isSpace c = false) ∧ a.op ≠ [] := by
  cases a with
  | status n => exact ⟨show ∀ c ∈ ascii "==", _ by decide, show ascii "==" ≠ [] by decide⟩
  | latency m => exact ⟨show ∀ c ∈ ascii ">", _ by decide, show ascii ">" ≠ [] by decide⟩

/-- The words of a text that starts with an atom, before its end or a space. -/
lemma words_atom_append (a : Atom) {tail : Bytes} {ws : List Bytes}
    (htail : ByteText.words (decimal a.constant ++ tail) = decimal a.constant :: ws) :
    ByteText.words (a.text ++ tail) = a.words ++ ws := by
  obtain ⟨hk, hk'⟩ := keyword_word a
  obtain ⟨ho, ho'⟩ := op_word a
  have h1 := words_word_space hk hk' (a.op ++ 0x20#8 :: (decimal a.constant ++ tail))
  have h2 := words_word_space ho ho' (decimal a.constant ++ tail)
  rw [a.words_eq, a.text_eq]
  simp only [List.append_assoc, List.cons_append, List.nil_append]
  rw [h1, h2, htail]

lemma words_atom (a : Atom) : ByteText.words a.text = a.words := by
  have hend : ByteText.words (decimal a.constant ++ []) = [decimal a.constant] := by
    rw [List.append_nil]
    exact words_singleton (not_space_decimal _) (decimal_ne_nil _)
  have h := words_atom_append a hend
  rwa [List.append_nil, List.append_nil] at h

lemma words_atom_space (a : Atom) (rest : Bytes) :
    ByteText.words (a.text ++ 0x20#8 :: rest) = a.words ++ ByteText.words rest :=
  words_atom_append a (words_word_space (not_space_decimal _) (decimal_ne_nil _) rest)

lemma parseTerms_nil (t : Targets) : parseTerms [] t = t := by rw [parseTerms]

/-- The token loop consumes the words of an atom and sets its target. -/
lemma parseTerms_atom (a : Atom) (rest : List Bytes) (t : Targets) :
    parseTerms (a.words ++ rest) t = parseTerms rest (a.apply t) := by
  cases a with
  | status n =>
    have hword : contains (ascii "status") (ascii "status") = true := rfl
    have hfind : find (ascii "==") (ascii "status") = none := rfl
    rw [Atom.words, List.cons_append, parseTerms, if_pos hword]
    simp only [takeTerm, hfind, List.cons_append, List.nil_append]
    rfl
  | latency m =>
    have hword : contains (ascii "status") (ascii "latency") = false := rfl
    have hword' : contains (ascii "latency") (ascii "latency") = true := rfl
    have hfind : find (ascii ">") (ascii "latency") = none := rfl
    rw [Atom.words, List.cons_append, parseTerms, hword, if_neg Bool.false_ne_true, if_pos hword']
    simp only [takeTerm, hfind, List.cons_append, List.nil_append]
    rfl

/-- A byte of an atom is a byte of its keyword and operator, a space or a digit. -/
lemma mem_atom {a : Atom} {c : Byte} (h : c ∈ a.text) :
    c ∈ ascii "status == latency > " ∨ isDigit c = true := by
  cases a with
  | status n =>
    rcases List.mem_append.mp h with h | h
    · exact Or.inl (List.mem_append_left (ascii "latency > ") h)
    · exact Or.inr (digit_of_mem_decimal h)
  | latency m =>
    rcases List.mem_append.mp h with h | h
    · exact Or.inl (List.mem_append_right (ascii "status == ") h)
    · exact Or.inr (digit_of_mem_decimal h)

lemma replaceByte_of_notMem {old : Byte} (new : Byte) {s : Bytes} (h : old ∉ s) :
    replaceByte old new s = s := by
  refine (List.map_congr_left fun c hc => ?_).trans (List.map_id s)
  have hne : c ≠ old := fun he => h (he ▸ hc)
  exact if_neg hne

lemma replaceByte_append (old new : Byte) (s t : Bytes) :
    replaceByte old new (s ++ t) = replaceByte old new s ++ replaceByte old new t :=
  List.map_append

/-- A text that the clean-up copies, whatever follows. -/
structure Inert (x : Bytes) : Prop where
  separators : replaceByte 0x7c#8 0x20#8 (replaceByte 0x26#8 0x20#8 x) = x
  upper : ∀ rest, replaceAll (ascii "AND") (ascii " ") (x ++ rest) =
    x ++ replaceAll (ascii "AND") (ascii " ") rest
  lower : ∀ rest, replaceAll (ascii "and") (ascii " ") (x ++ rest) =
    x ++ replaceAll (ascii "and") (ascii " ") rest

lemma Inert.append {x y : Bytes} (hx : Inert x) (hy : Inert y) : Inert (x ++ y) where
  separators := by rw [replaceByte_append, replaceByte_append, hx.separators, hy.separators]
  upper rest := by rw [List.append_assoc, hx.upper, hy.upper, List.append_assoc]
  lower rest := by rw [List.append_assoc, hx.lower, hy.lower, List.append_assoc]

/-- The bytes at which the clean-up changes a text. -/
def marks : Bytes := [0x26#8, 0x7c#8, 0x41#8, 0x61#8]

lemma Inert.of_notMem {x : Bytes} (h : ∀ c ∈ marks, c ∉ x) : Inert x where
  separators := by
    rw [replaceByte_of_notMem _ (h 0x26#8 (by decide)), replaceByte_of_notMem _ (h 0x7c#8 (by decide))]
  upper rest := replaceAll_append (h 0x41#8 (by decide)) rest
  lower rest := replaceAll_append (h 0x61#8 (by decide)) rest

lemma inert_decimal (n : ℕ) : Inert (decimal n) := by
  have hmarks : ∀ c ∈ marks, isDigit c = false := by decide
  exact Inert.of_notMem fun c hc => notMem_decimal (hmarks c hc) n

/-- No match of a connective begins inside a keyword. -/
lemma inert_keyword (a : Atom) : Inert a.keyword := by
  cases a with
  | status n => exact ⟨rfl, fun _ => rfl, fun _ => rfl⟩
  | latency m => exact ⟨rfl, fun _ => rfl, fun _ => rfl⟩

lemma inert_op (a : Atom) : Inert a.op := by
  cases a with
  | status n => exact ⟨rfl, fun _ => rfl, fun _ => rfl⟩
  | latency m => exact ⟨rfl, fun _ => rfl, fun _ => rfl⟩

lemma inert_atom (a : Atom) : Inert a.text := by
  have hspace : Inert [0x20#8] := Inert.of_notMem (by decide)
  rw [a.text_eq]
  exact (inert_keyword a).append (hspace.append ((inert_op a).append (hspace.append
    (inert_decimal _))))

section
variable {x y : Bytes}

lemma Inert.replaced (h : Inert x) :
    replaceAll (ascii "AND") (ascii " ") x = x ∧ replaceAll (ascii "and") (ascii " ") x = x := by
  have hupper := h.upper []
  have hlower := h.lower []
  rw [List.append_nil] at hupper hlower
  exact ⟨hupper.trans (List.append_nil x), hlower.trans (List.append_nil x)⟩

lemma Inert.clean (h : Inert x) : cleanConnectives x = x := by
  simp only [cleanConnectives, h.separators, h.replaced.1, h.replaced.2]

/-- The three passes over two inert texts see only what stands between them. -/
lemma Inert.pair (hx : Inert x) (hy : Inert y) {mid gap spaces cleaned : Bytes}
    (hbytes : replaceByte 0x7c#8 0x20#8 (replaceByte 0x26#8 0x20#8 mid) = gap)
    (hupper : ∀ z, replaceAll (ascii "AND") (ascii " ") (gap ++ z) =
      spaces ++ replaceAll (ascii "AND") (ascii " ") z)
    (hlower : ∀ z, replaceAll (ascii "and") (ascii " ") (spaces ++ z) =
      cleaned ++ replaceAll (ascii "and") (ascii " ") z) :
    cleanConnectives (x ++ (mid ++ y)) = x ++ (cleaned ++ y) := by
  simp only [cleanConnectives, replaceByte_append, hx.separators, hy.separators, hbytes, hx.upper,
    hupper, hy.replaced.1, hx.lower, hlower, hy.replaced.2]

end

/-- Each connective becomes a run of spaces. -/
def Query.cleaned : Query → Bytes
  | .single a => a.text
  | .both a b => a.text ++ (ascii "   " ++ b.text)
  | .either a b => a.text ++ (ascii "    " ++ b.text)

theorem cleanConnectives_text (q : Query) : cleanConnectives q.text = q.cleaned := by
  cases q with
  | single a => exact (inert_atom a).clean
  | both a b =>
    exact @Inert.pair _ _ (inert_atom a) (inert_atom b) (ascii " AND ") (ascii " AND ") (ascii "   ")
      (ascii "   ") rfl (fun _ => rfl) (fun _ => rfl)
  | either a b =>
    exact @Inert.pair _ _ (inert_atom a) (inert_atom b) (ascii " || ") (ascii "    ") (ascii "    ")
      (ascii "    ") rfl (fun _ => rfl) (fun _ => rfl)

def Query.atoms : Query → List Atom
  | .single a => [a]
  | .both a b => [a, b]
  | .either a b => [a, b]

lemma words_cleaned (q : Query) : ByteText.words q.cleaned = q.atoms.flatMap Atom.words := by
  cases q with
  | single a => simp [Query.cleaned, Query.atoms, words_atom]
  | both a b =>
    have h : ByteText.words (ascii "  " ++ b.text) = b.words :=
      (words_space rfl _).trans ((words_space rfl _).trans (words_atom b))
    refine (words_atom_space a (ascii "  " ++ b.text)).trans ?_
    rw [h, Query.atoms, List.flatMap_cons, List.flatMap_singleton]
  | either a b =>
    have h : ByteText.words (ascii "   " ++ b.text) = b.words :=
      (words_space rfl _).trans ((words_space rfl _).trans
        ((words_space rfl _).trans (words_atom b)))
    refine (words_atom_space a (ascii "   " ++ b.text)).trans ?_
    rw [h, Query.atoms, List.flatMap_cons, List.flatMap_singleton]

lemma parseTerms_atoms (atoms : List Atom) (t : Targets) :
    parseTerms (atoms.flatMap Atom.words) t = atoms.foldl Atom.apply t := by
  induction atoms generalizing t with
  | nil => exact parseTerms_nil t
  | cons a atoms ih => rw [List.flatMap_cons, parseTerms_atom, ih, List.foldl_cons]

lemma text_start (q : Query) : ∃ (a : Atom) (x : Bytes), q.text = a.keyword ++ x := by
  cases q with
  | single a => exact ⟨a, _, a.text_eq⟩
  | both a b | either a b =>
    rw [Query.text, a.text_eq, List.append_assoc]
    exact ⟨a, _, rfl⟩

lemma text_end (q : Query) : ∃ (a : Atom) (x : Bytes), q.text = x ++ decimal a.constant := by
  have hatom : ∀ a : Atom, ∃ x, a.text = x ++ decimal a.constant := fun a =>
    ⟨a.keyword ++ 0x20#8 :: (a.op ++ [0x20#8]), by simp [a.text_eq]⟩
  have hpair : ∀ (a b : Atom) (mid : Bytes), ∃ x, a.text ++ (mid ++ b.text) = x ++ decimal b.constant := by
    intro a b mid
    obtain ⟨x, hx⟩ := hatom b
    exact ⟨a.text ++ (mid ++ x), by rw [hx, List.append_assoc, List.append_assoc]⟩
  cases q with
  | single a => exact ⟨a, hatom a⟩
  | both a b => exact ⟨b, hpair a b _⟩
  | either a b => exact ⟨b, hpair a b _⟩

/-- A text from a keyword to a number has no whitespace at its ends. -/
lemma trim_comparison {s x y : Bytes} {a : Atom} {n : ℕ} (hx : s = a.keyword ++ x)
    (hy : s = y ++ decimal n) : trim s = s := by
  have hhead : ∃ c, s.head? = some c ∧ isSpace c = false := by
    rw [hx]
    cases a with
    | status n => exact ⟨0x73#8, rfl, rfl⟩
    | latency m => exact ⟨0x6c#8, rfl, rfl⟩
  obtain ⟨c, hc, hcs⟩ := hhead
  obtain ⟨w, d, hw⟩ := (List.eq_nil_or_concat' (decimal n)).resolve_left (decimal_ne_nil _)
  have hds : isSpace d = false := not_space_decimal n d (by rw [hw]; simp)
  have hlast : s.getLast? = some d := by
    rw [hy, hw, ← List.append_assoc, List.getLast?_concat]
  have hpad := @trim_pad [] [] s c d (by simp) (by simp) hc hcs hlast hds
  rwa [List.nil_append, List.append_nil] at hpad

lemma trim_text (q : Query) : trim q.text = q.text := by
  obtain ⟨a, x, hx⟩ := text_start q
  obtain ⟨b, y, hy⟩ := text_end q
  exact trim_comparison hx hy

lemma isNumerical_op (a : Atom) (x y : Bytes) : isNumerical (x ++ (a.op ++ y)) = true := by
  have hop : contains a.op (x ++ (a.op ++ y)) = true := contains_append a.op x y
  rw [isNumerical, decide_eq_true_eq]
  cases a with
  | status n => exact Or.inl hop
  | latency m => exact Or.inr (Or.inl hop)

lemma isNumerical_text (q : Query) : isNumerical q.text = true := by
  have hatom : ∀ (a : Atom) (rest : Bytes), isNumerical (a.text ++ rest) = true := by
    intro a rest
    have h := isNumerical_op a (a.keyword ++ [0x20#8]) (0x20#8 :: (decimal a.constant ++ rest))
    simpa [a.text_eq] using h
  cases q with
  | single a =>
    have h := hatom a []
    rwa [List.append_nil] at h
  | both a b => exact hatom a _
  | either a b => exact hatom a _

/-- The numbers that the scan compares with: for each field the last constant below 2^64,
zero if there is none. -/
def Atom.scan (t : ℕ × ℕ) (a : Atom) : ℕ × ℕ :=
  if a.InRange then
    match a with
    | .status n => (n, t.2)
    | .latency m => (t.1, m)
  else t

def Query.scan (q : Query) : ℕ × ℕ := q.atoms.foldl Atom.scan (0, 0)

lemma apply_scan (a : Atom) (t : ℕ × ℕ) :
    a.apply ⟨BitVec.ofNat 64 t.1, BitVec.ofNat 64 t.2⟩ =
      ⟨BitVec.ofNat 64 (a.scan t).1, BitVec.ofNat 64 (a.scan t).2⟩ := by
  cases a with
  | status n =>
    rw [Atom.apply, Targets.setStatus, stoull_decimal]
    by_cases h : n < 2 ^ 64
    · have hr : (Atom.status n).InRange := h
      rw [if_pos h, Atom.scan, if_pos hr]
      rfl
    · have hr : ¬ (Atom.status n).InRange := h
      rw [if_neg h, Atom.scan, if_neg hr]
      rfl
  | latency m =>
    rw [Atom.apply, Targets.setLatency, stoull_decimal]
    by_cases h : m < 2 ^ 64
    · have hr : (Atom.latency m).InRange := h
      rw [if_pos h, Atom.scan, if_pos hr]
      rfl
    · have hr : ¬ (Atom.latency m).InRange := h
      rw [if_neg h, Atom.scan, if_neg hr]
      rfl

lemma foldl_scan (atoms : List Atom) (t : ℕ × ℕ) :
    atoms.foldl Atom.apply ⟨BitVec.ofNat 64 t.1, BitVec.ofNat 64 t.2⟩ =
      ⟨BitVec.ofNat 64 (atoms.foldl Atom.scan t).1, BitVec.ofNat 64 (atoms.foldl Atom.scan t).2⟩ := by
  induction atoms generalizing t with
  | nil => rfl
  | cons a atoms ih => rw [List.foldl_cons, apply_scan, ih, List.foldl_cons]

/-- What the dispatcher makes of a canonical query. -/
theorem parseQuery_text (q : Query) : parseQuery q.text =
    some ⟨.bitSlicedNumericalLogic, [], BitVec.ofNat 64 q.scan.1, BitVec.ofNat 64 q.scan.2⟩ := by
  have hfold := foldl_scan q.atoms (0, 0)
  have hterms : parseTerms (ByteText.words (cleanConnectives q.text)) ⟨0, 0⟩ =
      ⟨BitVec.ofNat 64 q.scan.1, BitVec.ofNat 64 q.scan.2⟩ := by
    rw [cleanConnectives_text, words_cleaned, parseTerms_atoms]
    exact hfold
  simp only [parseQuery, trim_text, isNumerical_text, not_true_eq_false, if_false, hterms]

lemma scan_lt (q : Query) : q.scan.1 < 2 ^ 64 ∧ q.scan.2 < 2 ^ 64 := by
  have h : ∀ (atoms : List Atom) (t : ℕ × ℕ), t.1 < 2 ^ 64 ∧ t.2 < 2 ^ 64 →
      (atoms.foldl Atom.scan t).1 < 2 ^ 64 ∧ (atoms.foldl Atom.scan t).2 < 2 ^ 64 := by
    intro atoms
    induction atoms with
    | nil => exact fun _ ht => ht
    | cons a atoms ih =>
      intro t ht
      refine ih _ ?_
      unfold Atom.scan
      split_ifs with hr
      · cases a with
        | status n => exact ⟨hr, ht.2⟩
        | latency m => exact ⟨ht.1, hr⟩
      · exact ht
  exact h q.atoms (0, 0) ⟨by norm_num, by norm_num⟩

end parsing

end Eureka.Dispatcher
