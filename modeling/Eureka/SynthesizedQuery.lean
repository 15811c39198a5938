import Mathlib
import Eureka.LogQLParser

/-! Reading the numbers back from the parser's output, with any pattern that knows the operator
that the output uses. -/
namespace Eureka.LogQL
open RegexSearch Regex JavaText

variable {op quotes : Regex JChar} {g : List JString}

lemma status_text (n : ℕ) (tail : JString) : java "status == " ++ number n ++ tail =
    java "status" ++ (java " " ++ (java "==" ++ (java " " ++ ([] ++ (number n ++ ([] ++ tail)))))) := by
  rw [List.append_assoc]
  rfl

lemma latency_text (m : ℕ) : java "latency > " ++ number m =
    java "latency" ++ (java " " ++ (java ">" ++ (java " " ++ ([] ++ (number m ++ ([] ++ [])))))) := by
  simp only [List.nil_append, List.append_nil]
  rfl

lemma synthesize_both (n m : ℕ) : synthesize (some n) (some m) =
    java "status == " ++ number n ++ (java " AND " ++ (java "latency > " ++ number m)) := by
  have hpos : 0 < (java "status == " ++ number n).length := by
    rw [List.length_append]
    exact Nat.add_pos_left (by decide) _
  simp only [synthesize, if_pos hpos, List.append_assoc]

lemma notMem_latency {c : JChar} (hc : c ∉ java " AND latency > ") (hd : isDigit c = false) (m : ℕ) :
    c ∉ java "latency > " ++ number m := by
  intro h
  rcases List.mem_append.mp h with h | h
  · exact hc (List.mem_append_right (java " AND ") h)
  · exact notMem_number hd m h

lemma notMem_status {c : JChar} (hc : c ∉ java "status == ") (hd : isDigit c = false) (n : ℕ) :
    c ∉ java "status == " ++ number n := by
  intro h
  rcases List.mem_append.mp h with h | h
  · exact hc h
  · exact notMem_number hd n h

/-- Where a number is not quoted, the quotes of the pattern match nothing. -/
def MayOmit (quotes : Regex JChar) : Prop :=
  ∀ s : JString, s.head? ≠ some doubleQuote → first quotes s = some ([], s)

lemma mayOmit_eps : MayOmit .eps := fun _ _ => first_eps

lemma mayOmit_optionalQuote : MayOmit optionalQuote := fun _ => first_optionalQuote

/-- A comparison that knows the operator `==` reads the status back. -/
theorem find_status_written (hq : MayOmit quotes)
    (hop : ∀ rest, first op (java "==" ++ (java " " ++ rest)) = some (g, java " " ++ rest))
    (status latency : Option ℕ) :
    find (comparison "status" op quotes) (synthesize status latency) =
      status.map fun n => g ++ [number n] := by
  have hread : ∀ n tail, (∀ d, List.head? tail = some d → isDigit d = false ∧ d ≠ doubleQuote) →
      find (comparison "status" op quotes) (java "status == " ++ number n ++ tail) =
        some (g ++ [number n]) := by
    intro n tail htail
    have hclosing := hq tail fun h => (htail doubleQuote h).2 rfl
    rw [status_text]
    exact find_of_first (first_comparison (written_unquoted (c := 0x3d#16) rfl rfl hop n
      (hq _ (head_number n tail)) hclosing fun d hd => (htail d hd).1))
  cases status with
  | none =>
    refine find_eq_none (not_keyword (c := 0x73#16) (by decide) ?_)
    cases latency with
    | none => exact List.not_mem_nil
    | some m => exact notMem_latency (by decide) rfl m
  | some n =>
    cases latency with
    | none =>
      have h := hread n [] (by simp)
      rwa [List.append_nil] at h
    | some m =>
      rw [synthesize_both]
      refine hread n _ fun d hd => ?_
      obtain rfl : 0x20#16 = d := Option.some.inj hd
      exact ⟨rfl, by decide⟩

/-- A comparison that knows the operator `>` reads the latency back. -/
theorem find_latency_written (hq : MayOmit quotes)
    (hop : ∀ rest, first op (java ">" ++ (java " " ++ rest)) = some (g, java " " ++ rest))
    (status latency : Option ℕ) :
    find (comparison "latency" op quotes) (synthesize status latency) =
      latency.map fun m => g ++ [number m] := by
  have hread : ∀ m, find (comparison "latency" op quotes) (java "latency > " ++ number m) =
      some (g ++ [number m]) := by
    intro m
    have hopening := hq (number m ++ []) (head_number m [])
    rw [latency_text]
    exact find_of_first (first_comparison (written_unquoted (c := 0x3e#16) rfl rfl hop m hopening
      (hq [] (by simp)) (by simp)))
  cases latency with
  | none =>
    refine find_eq_none (not_keyword (c := 0x6c#16) (by decide) ?_)
    cases status with
    | none => exact List.not_mem_nil
    | some n => exact notMem_status (by decide) rfl n
  | some m =>
    cases status with
    | none => exact hread m
    | some n =>
      have hskip : (0x6c#16) ∉ java " AND " := by decide
      rw [synthesize_both, find_skip_letter (c := 0x6c#16) rfl (notMem_status (by decide) rfl n),
        find_skip_letter (c := 0x6c#16) rfl hskip]
      exact hread m

theorem find_status_synthesize (hop : ∀ rest, first op (java "==" ++ rest) = some (g, rest))
    (status latency : Option ℕ) :
    find (comparison "status" op .eps) (synthesize status latency) =
      status.map fun n => g ++ [number n] :=
  find_status_written mayOmit_eps (fun _ => hop _) status latency

theorem find_latency_synthesize (hop : ∀ rest, first op (java ">" ++ rest) = some (g, rest))
    (status latency : Option ℕ) :
    find (comparison "latency" op .eps) (synthesize status latency) =
      latency.map fun m => g ++ [number m] :=
  find_latency_written mayOmit_eps (fun _ => hop _) status latency

end Eureka.LogQL
