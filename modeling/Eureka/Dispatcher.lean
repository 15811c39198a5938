import Mathlib
import Eureka.ByteText

/-! `QueryDispatcher::parse_query`: a query string becomes a substring search or the two
numbers of a bit-sliced scan. -/
namespace Eureka.Dispatcher
open WordBytes ByteText

inductive QueryType
  | scalarStringSearch
  | bitSlicedNumericalLogic
  deriving DecidableEq, Repr

structure ParsedQuery where
  type : QueryType
  stringPattern : Bytes
  statusTarget : Word
  latencyTarget : Word
  deriving DecidableEq, Repr

def quote : Byte := 0x22#8

/-- Strips a pair of double quotes. `none`: `front` of an empty string is undefined. -/
def stripQuotes (s : Bytes) : Option Bytes :=
  if s = [] then none
  else if s.head? = some quote ∧ s.getLast? = some quote then
    some ((s.drop 1).take (s.length - 2))
  else some s

/-- The fallback for a string without a comparison. -/
def parseString (q : Bytes) : Option Bytes :=
  if (ascii "contains(").isPrefixOf q ∧ q.getLast? = some 0x29#8 then
    stripQuotes (trim ((q.drop 9).take (q.length - 10)))
  else stripQuotes q

structure Targets where
  status : Word
  latency : Word
  deriving DecidableEq, Repr

/-- `try { target = stoull(..) } catch(...) {}` -/
def Targets.setStatus (t : Targets) (val : Bytes) : Targets :=
  { t with status := (stoull val).getD t.status }

def Targets.setLatency (t : Targets) (val : Bytes) : Targets :=
  { t with latency := (stoull val).getD t.latency }

/-- One field of the token loop: the value follows the operator in the same word, is the next
word, or is the word after a separate operator. Returns the words left and the targets. -/
def takeTerm (op : Bytes) (set : Targets → Bytes → Targets) (word : Bytes) (rest : List Bytes)
    (t : Targets) : List Bytes × Targets :=
  match find op word with
  | some pos =>
    if word.drop (pos + op.length) = [] then
      match rest with
      | [] => ([], set t [])
      | val :: rest => (rest, set t val)
    else (rest, set t (word.drop (pos + op.length)))
  | none =>
    match rest with
    | _ :: val :: rest => (rest, set t val)
    | _ => ([], t)

lemma takeTerm_length (op : Bytes) (set : Targets → Bytes → Targets) (word : Bytes)
    (rest : List Bytes) (t : Targets) : (takeTerm op set word rest t).1.length ≤ rest.length := by
  unfold takeTerm
  split
  · split_ifs
    · split <;> simp
    · exact le_rfl
  · split
    · simp only [List.length_cons]
      omega
    · simp

def parseTerms : List Bytes → Targets → Targets
  | [], t => t
  | word :: rest, t =>
    if contains (ascii "status") word then
      parseTerms (takeTerm (ascii "==") Targets.setStatus word rest t).1
        (takeTerm (ascii "==") Targets.setStatus word rest t).2
    else if contains (ascii "latency") word then
      parseTerms (takeTerm (ascii ">") Targets.setLatency word rest t).1
        (takeTerm (ascii ">") Targets.setLatency word rest t).2
    else parseTerms rest t
termination_by ws => ws.length
decreasing_by
  all_goals
    first
      | exact Nat.lt_succ_of_le (takeTerm_length _ _ _ _ _)
      | exact Nat.lt_succ_self _

def isNumerical (q : Bytes) : Bool :=
  contains (ascii "==") q ∨ contains (ascii ">") q ∨ contains (ascii "<") q

def replaceByte (old new : Byte) (s : Bytes) : Bytes := s.map fun c => if c = old then new else c

/-- The separators become spaces. -/
def cleanConnectives (q : Bytes) : Bytes :=
  let q := replaceByte 0x26#8 0x20#8 q
  let q := replaceByte 0x7c#8 0x20#8 q
  replaceAll (ascii "and") (ascii " ") (replaceAll (ascii "AND") (ascii " ") q)

/-- `none` where the code reads the front of an empty string. -/
def parseQuery (queryStr : Bytes) : Option ParsedQuery :=
  let q := trim queryStr
  if ¬ isNumerical q then
    (parseString q).map fun pattern => ⟨.scalarStringSearch, pattern, 0, 0⟩
  else
    let t := parseTerms (words (cleanConnectives q)) ⟨0, 0⟩
    some ⟨.bitSlicedNumericalLogic, [], t.status, t.latency⟩

end Eureka.Dispatcher
