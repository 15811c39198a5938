import Mathlib
import Eureka.CountComparison
import Eureka.NumericQueries

/-! The count that a numerical query returns against the records that it describes. The two
numbers of a scan cannot say that a field is unconstrained or that the atoms are joined by a
disjunction, so the answer is right only for some record lists. -/
namespace Eureka.Dispatcher
open WordBytes Apex Simdjson ByteText Pipeline CountComparison

/-- What a scan for a pair of numbers counts. -/
def scanned (t : ℕ × ℕ) (r : LogRecord) : Bool := r.status.toNat = t.1 ∧ t.2 < r.latency.toNat

lemma satisfies_ofNat {s l : ℕ} (hs : s < 2 ^ 64) (hl : l < 2 ^ 64) (r : LogRecord) :
    satisfies (BitVec.ofNat 64 s) (BitVec.ofNat 64 l) r = scanned (s, l) r := by
  have heq : r.status = BitVec.ofNat 64 s ↔ r.status.toNat = s := by
    rw [← BitVec.toNat_inj, BitVec.toNat_ofNat, Nat.mod_eq_of_lt hs]
  have hlt : BitVec.ofNat 64 l < r.latency ↔ l < r.latency.toNat := by
    rw [BitVec.lt_def, BitVec.toNat_ofNat, Nat.mod_eq_of_lt hl]
  rw [Bool.eq_iff_iff]
  simp only [satisfies, scanned, Bool.and_eq_true, beq_iff_eq, decide_eq_true_eq, heq, hlt]

/-- The atom whose constant is kept when not both are below 2^64. -/
def kept (a b : Atom) : Atom := if a.InRange then a else b

/-- What the scan for a single atom counts. -/
def Atom.alone (r : LogRecord) (a : Atom) : Bool := scanned (a.scan (0, 0)) r

/-- The conjunctions of two atoms below 2^64 on which the scan is right. -/
def BothSafe (records : List LogRecord) : Atom → Atom → Prop
  | .status n, .status n' => ∀ r ∈ records, r.status.toNat = n' → (n = n' ↔ 0 < r.latency.toNat)
  | .latency m, .latency m' =>
    if m' < m then
      records.countP (fun r => r.status.toNat = 0 ∧ m' < r.latency.toNat ∧ r.latency.toNat ≤ m) =
        records.countP (fun r => r.status.toNat ≠ 0 ∧ m < r.latency.toNat)
    else ∀ r ∈ records, m' < r.latency.toNat → r.status.toNat = 0
  | _, _ => True

/-- The disjunctions of two atoms below 2^64 on which the scan is right. -/
def EitherSafe (r : LogRecord) : Atom → Atom → Prop
  | .status n, .latency m => r.status.toNat = n ↔ m < r.latency.toNat
  | .latency m, .status n => r.status.toNat = n ↔ m < r.latency.toNat
  | .status n, .status n' =>
    (r.status.toNat = n' → 0 < r.latency.toNat) ∧ (r.status.toNat = n → n = n')
  | .latency m, .latency m' =>
    min m m' < r.latency.toNat → r.status.toNat = 0 ∧ m' < r.latency.toNat

/-- The record lists on which the count of a query is right. -/
def Query.Safe (records : List LogRecord) : Query → Prop
  | .single a => ∀ r ∈ records, a.holds r = a.alone r
  | .both a b =>
    if a.InRange ∧ b.InRange then BothSafe records a b
    else ∀ r ∈ records, (kept a b).alone r = false
  | .either a b =>
    if a.InRange ∧ b.InRange then ∀ r ∈ records, EitherSafe r a b
    else ∀ r ∈ records, (kept a b).holds r = (kept a b).alone r

lemma holds_outOfRange {a : Atom} (h : ¬ a.InRange) (r : LogRecord) : a.holds r = false := by
  have hs := r.status.isLt
  have hl := r.latency.isLt
  cases a with
  | status n =>
    have hn : ¬ n < 2 ^ 64 := h
    simp only [Atom.holds, decide_eq_false_iff_not]
    omega
  | latency m =>
    have hm : ¬ m < 2 ^ 64 := h
    simp only [Atom.holds, decide_eq_false_iff_not]
    omega

lemma scan_outOfRange {a : Atom} (h : ¬ a.InRange) (t : ℕ × ℕ) : a.scan t = t := if_neg h

/-- A constant that the parser skips leaves the scan of the other atom. -/
lemma scan_kept {a b : Atom} (h : ¬ (a.InRange ∧ b.InRange)) :
    b.scan (a.scan (0, 0)) = (kept a b).scan (0, 0) := by
  unfold kept
  split_ifs with ha
  · rw [scan_outOfRange fun hb => h ⟨ha, hb⟩]
  · rw [scan_outOfRange ha]

section shapes
variable {records : List LogRecord} {a b : Atom}

lemma alone_inRange (h : a.InRange) (r : LogRecord) : a.alone r = match a with
    | .status n => scanned (n, 0) r
    | .latency m => scanned (0, m) r := by
  cases a with
  | status n => simp only [Atom.alone, Atom.scan, if_pos h]
  | latency m => simp only [Atom.alone, Atom.scan, if_pos h]

/-- The scan for a single atom. -/
lemma count_single (records : List LogRecord) (a : Atom) :
    records.countP (fun r => a.alone r) = records.countP (fun r => a.holds r) ↔
      ∀ r ∈ records, a.holds r = a.alone r := by
  refine countP_eq_iff_forall_eq ?_
  by_cases h : a.InRange
  · refine Or.inl fun r _ hr => ?_
    rw [alone_inRange h] at hr
    cases a with
    | status n =>
      simp only [scanned, decide_eq_true_eq] at hr
      exact decide_eq_true hr.1
    | latency m =>
      simp only [scanned, decide_eq_true_eq] at hr
      exact decide_eq_true hr.2
  · exact Or.inr fun r _ hr => absurd ((holds_outOfRange h r).symm.trans hr) (by simp)

lemma count_both_status (records : List LogRecord) (n n' : ℕ) :
    records.countP (scanned (n', 0)) =
        records.countP (fun r => r.status.toNat = n ∧ r.status.toNat = n') ↔
      ∀ r ∈ records, r.status.toNat = n' → (n = n' ↔ 0 < r.latency.toNat) := by
  rw [countP_eq_iff_forall_eq]
  · refine forall_congr' fun r => forall_congr' fun _ => ?_
    simp only [scanned, decide_eq_decide]
    constructor
    · rintro h rfl
      have := h
      tauto
    · intro h
      by_cases hs : r.status.toNat = n'
      · have := h hs
        constructor
        · rintro ⟨h1, h2⟩
          exact ⟨h2, this.mp (h1.symm.trans h2)⟩
        · rintro ⟨h1, h2⟩
          exact ⟨h1.trans (this.mpr h2).symm, h1⟩
      · exact ⟨fun h' => absurd h'.2 hs, fun h' => absurd h'.1 hs⟩
  · by_cases hn : n = n'
    · refine Or.inl fun r _ hr => ?_
      simp only [scanned, decide_eq_true_eq] at hr ⊢
      omega
    · refine Or.inr fun r _ hr => ?_
      simp only [decide_eq_true_eq] at hr
      omega

lemma count_both_latency (records : List LogRecord) (m m' : ℕ) :
    records.countP (scanned (0, m')) =
        records.countP (fun r => m < r.latency.toNat ∧ m' < r.latency.toNat) ↔
      BothSafe records (.latency m) (.latency m') := by
  simp only [BothSafe]
  split_ifs with hm
  · rw [countP_eq_iff_diff]
    refine Eq.congr (List.countP_congr fun r _ => ?_) (List.countP_congr fun r _ => ?_)
    · simp only [scanned, Bool.and_eq_true, Bool.not_eq_true', decide_eq_true_eq,
        decide_eq_false_iff_not]
      omega
    · simp only [scanned, Bool.and_eq_true, Bool.not_eq_true', decide_eq_true_eq,
        decide_eq_false_iff_not]
      omega
  · rw [countP_eq_iff_forall_eq]
    · refine forall_congr' fun r => forall_congr' fun _ => ?_
      simp only [scanned, decide_eq_decide]
      omega
    · refine Or.inl fun r _ hr => ?_
      simp only [scanned, decide_eq_true_eq] at hr ⊢
      omega

/-- Two atoms below 2^64, joined by AND. -/
lemma count_both (records : List LogRecord) (ha : a.InRange) (hb : b.InRange) :
    records.countP (scanned (b.scan (a.scan (0, 0)))) =
        records.countP (fun r => a.holds r && b.holds r) ↔ BothSafe records a b := by
  simp only [Atom.scan, if_pos ha, if_pos hb]
  cases a with
  | status n =>
    cases b with
    | status n' =>
      have h := count_both_status records n n'
      simpa only [Atom.holds, BothSafe, Bool.decide_and] using h
    | latency m =>
      refine iff_of_true (List.countP_congr fun r _ => ?_) trivial
      simp [scanned, Atom.holds]
  | latency m =>
    cases b with
    | status n =>
      refine iff_of_true (List.countP_congr fun r _ => ?_) trivial
      simp [scanned, Atom.holds, and_comm]
    | latency m' =>
      have h := count_both_latency records m m'
      simp only [Bool.decide_and] at h
      exact h

/-- Two atoms below 2^64, joined by a disjunction: the scan counts no other records. -/
lemma count_either (records : List LogRecord) (ha : a.InRange) (hb : b.InRange) :
    records.countP (scanned (b.scan (a.scan (0, 0)))) =
        records.countP (fun r => a.holds r || b.holds r) ↔ ∀ r ∈ records, EitherSafe r a b := by
  simp only [Atom.scan, if_pos ha, if_pos hb]
  rw [countP_eq_iff_of_imp]
  · refine forall_congr' fun r => forall_congr' fun _ => ?_
    cases a <;> cases b <;>
      simp only [scanned, Atom.holds, EitherSafe, Bool.or_eq_true, decide_eq_true_eq] <;> omega
  · intro r _ hr
    cases a <;> cases b <;>
      simp only [scanned, Atom.holds, Bool.or_eq_true, decide_eq_true_eq] at hr ⊢ <;> omega

/-- The scan of a query counts what the query describes exactly on its safe records. -/
theorem count_scan_iff (records : List LogRecord) (q : Query) :
    records.countP (scanned q.scan) = records.countP (fun r => q.holds r) ↔ q.Safe records := by
  cases q with
  | single a => exact count_single records a
  | both a b =>
    simp only [Query.Safe]
    split_ifs with hr
    · exact count_both records hr.1 hr.2
    · have hfalse : records.countP (fun r => a.holds r && b.holds r) = 0 := by
        refine List.countP_eq_zero.mpr fun r _ => ?_
        rcases not_and_or.mp hr with h | h
        · simp [holds_outOfRange h]
        · simp [holds_outOfRange h]
      show records.countP (scanned (b.scan (a.scan (0, 0)))) = _ ↔ _
      rw [scan_kept hr]
      refine (Eq.congr rfl hfalse).trans (List.countP_eq_zero.trans ?_)
      exact forall_congr' fun r => forall_congr' fun _ => iff_of_eq (Bool.not_eq_true _)
  | either a b =>
    simp only [Query.Safe]
    split_ifs with hr
    · exact count_either records hr.1 hr.2
    · have hkept : ∀ r, (a.holds r || b.holds r) = (kept a b).holds r := by
        intro r
        unfold kept
        split_ifs with ha
        · rw [holds_outOfRange fun hb => hr ⟨ha, hb⟩, Bool.or_false]
        · rw [holds_outOfRange ha, Bool.false_or]
      show records.countP (scanned (b.scan (a.scan (0, 0)))) =
        records.countP (fun r => a.holds r || b.holds r) ↔ _
      rw [scan_kept hr]
      simp only [hkept]
      exact count_single records (kept a b)

end shapes

lemma returns_scan (q : Query) (engine : ApexEngine) (parser : Parser) {env : IngestEnv}
    (hend : env.throwsAfter = none) (prev : Ingester) (c : ℕ) :
    Returns engine parser env prev (BitVec.ofNat 64 q.scan.1) (BitVec.ofNat 64 q.scan.2) c ↔
      c = (parsedRecords parser env prev).countP (scanned q.scan) := by
  obtain ⟨hs, hl⟩ := scan_lt q
  rw [returns_iff, sentRecords_of_ends hend,
    List.countP_congr fun r _ => iff_of_eq (congrArg (· = true) (satisfies_ofNat hs hl r))]

/-- The dispatcher and the pipeline together: a canonical query is parsed, the pipeline
returns, and the count is the number of records that satisfy the query as written exactly
when the records are safe for it. -/
theorem numeric_query_count_iff (q : Query) (engine : ApexEngine) (parser : Parser)
    {env : IngestEnv} (hend : env.throwsAfter = none) (prev : Ingester) :
    ∃ p, parseQuery q.text = some p ∧ p.type = .bitSlicedNumericalLogic ∧
      (∃ c, Returns engine parser env prev p.statusTarget p.latencyTarget c) ∧
      ∀ c, Returns engine parser env prev p.statusTarget p.latencyTarget c →
        (c = (parsedRecords parser env prev).countP (fun r => q.holds r) ↔
          q.Safe (parsedRecords parser env prev)) := by
  refine ⟨_, parseQuery_text q, rfl, ⟨_, (returns_scan q engine parser hend prev _).mpr rfl⟩, ?_⟩
  intro c hc
  rw [(returns_scan q engine parser hend prev c).mp hc]
  exact count_scan_iff _ q

section samples

/-- One record with the status 200 and no latency. -/
def plainParser : Parser := .ofStream [some (.ofFields statusLine 0 (some 200) none)]

def plainEnv : IngestEnv :=
  ⟨fun _ => some statusLine, none, ⟨Vector.replicate 64 0, Vector.replicate 64 0, 0⟩⟩

def plainIngester : Ingester := { Ingester.new with filepath := "app.log" }

theorem numeric_query_count_iff_sample :
    ∃ p, parseQuery (Query.both (.status 200) (.latency 10)).text = some p ∧
      p.type = .bitSlicedNumericalLogic ∧
      (∃ c, Returns .reference plainParser plainEnv plainIngester p.statusTarget p.latencyTarget c) ∧
      ∀ c, Returns .reference plainParser plainEnv plainIngester p.statusTarget p.latencyTarget c →
        (c = (parsedRecords plainParser plainEnv plainIngester).countP
            (fun r => (Query.both (.status 200) (.latency 10)).holds r) ↔
          (Query.both (.status 200) (.latency 10)).Safe
            (parsedRecords plainParser plainEnv plainIngester)) :=
  numeric_query_count_iff _ .reference plainParser rfl plainIngester

/-- The record has status 200 and the query asks for no more, yet it is not counted: the
target for the latency is zero and zero is not above it. -/
theorem status_query_misses_record :
    ∃ p, parseQuery (ascii "status == 200") = some p ∧
      Returns .reference plainParser plainEnv plainIngester p.statusTarget p.latencyTarget 0 ∧
      (parsedRecords plainParser plainEnv plainIngester).countP
        (fun r => (Query.single (.status 200)).holds r) = 1 := by
  refine ⟨_, parseQuery_text (.single (.status 200)), ?_, by decide⟩
  rw [returns_scan _ _ _ rfl]
  decide

end samples

end Eureka.Dispatcher
