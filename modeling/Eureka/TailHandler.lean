import Mathlib
import Eureka.LiveTail
import Eureka.SubscriptionErrors
import Eureka.UrlText

/-! `LokiTailHandler`: the query of a live tail on its way from the URI to the broadcaster. The
query component is decoded before it is split, and the parameter is decoded once more. -/
namespace Eureka.Gateway
open JavaText LogQL UrlText

def ampersand : JChar := 0x26#16

def equalsSign : JChar := 0x3d#16

/-- `String.split` at one character, without the empty strings at the end. -/
def split (sep : JChar) (s : JString) : List JString :=
  if sep ∈ s then (s.splitOn sep).rdropWhile List.isEmpty else [s]

abbrev Params := JString → Option JString

def putParam (map : Params) (pair : JString) : Params :=
  let idx := pair.idxOf equalsSign
  if 0 < idx ∧ idx < pair.length then
    Function.update map (pair.take idx) (some (pair.drop (idx + 1)))
  else map

def parseQueryParams (queryStr : JString) : Params :=
  (split ampersand queryStr).foldl putParam fun _ => none

structure Uri where
  rawQuery : Option JString

def Uri.getQuery (uri : Uri) : Option JString := uri.rawQuery.bind uriDecode

/-- The query that is handed to the broadcaster; `none` where `URLDecoder` throws. -/
def requestedQuery (uri : Option Uri) : Option JString :=
  match uri.bind Uri.getQuery with
  | none => some []
  | some queryStr =>
    match parseQueryParams queryStr (java "query") with
    | none => some []
    | some value => urlDecode value

def Broadcaster.put (b : Broadcaster) (session : Session) (sub : TailSubscription) : Broadcaster :=
  { b with subscriptions := (b.remove session).subscriptions ++ [(session, sub)] }

/-- `none` where the constructor of the subscription throws. -/
def Broadcaster.registerSession (b : Broadcaster) (session : Session) (query : JString) :
    Option Broadcaster :=
  (TailSubscription.create query).map (b.put session)

def afterConnectionEstablished (b : Broadcaster) (session : Session) (uri : Option Uri) :
    Option Broadcaster :=
  (requestedQuery uri).bind (b.registerSession session)

/-- The URI of a tail whose encoded query is `e`. -/
def tailUri (e : JString) : Uri := ⟨some (java "query=" ++ e)⟩

/-- The handler registers the query itself and returns. -/
structure TailRegisters (b : Broadcaster) (session : Session) (uri : Uri) (q : JString) : Prop where
  registered : afterConnectionEstablished b session (some uri) = b.registerSession session q
  returns : (afterConnectionEstablished b session (some uri)).isSome = true

/-- No character that the splitting or the second decoding treats specially. -/
def PlainQuery (q : JString) : Prop := percent ∉ q ∧ plus ∉ q ∧ ampersand ∉ q

section splitting
variable {sep : JChar} {s pair key v : JString} {map : Params}

lemma mem_splitOn_length (h : pair ∈ s.splitOn sep) : pair.length ≤ s.length := by
  induction s generalizing pair with
  | nil =>
    rw [List.splitOn_nil] at h
    rw [List.mem_singleton.mp h]
  | cons c cs ih =>
    rw [List.splitOn_cons_eq_if_modifyHead] at h
    split_ifs at h
    · rcases List.mem_cons.mp h with rfl | h
      · exact Nat.zero_le _
      · exact (ih h).trans (Nat.le_succ _)
    · obtain ⟨l, ls, hl⟩ := List.exists_cons_of_ne_nil (List.splitOn_ne_nil sep cs)
      rw [hl, List.modifyHead_cons] at h
      rcases List.mem_cons.mp h with rfl | h
      · exact Nat.succ_le_succ (ih (hl ▸ List.mem_cons_self))
      · exact (ih (hl ▸ List.mem_cons_of_mem l h)).trans (Nat.le_succ _)

/-- Every part is shorter than a text with the separator in it. -/
lemma mem_split_length (hsep : sep ∈ s) (h : pair ∈ split sep s) : pair.length < s.length := by
  rw [split, if_pos hsep] at h
  have hmem : pair ∈ s.splitOn sep := (List.rdropWhile_prefix _ _).subset h
  obtain ⟨before, after, rfl⟩ := List.append_of_mem hsep
  rw [List.splitOn_append_cons_self] at hmem
  rw [List.length_append, List.length_cons]
  rcases List.mem_append.mp hmem with h | h
  · have := mem_splitOn_length h
    omega
  · have := mem_splitOn_length h
    omega

lemma putParam_of_eq (map : Params) (hkey : equalsSign ∉ key) (hne : key ≠ []) (v : JString) :
    putParam map (key ++ equalsSign :: v) = Function.update map key (some v) := by
  have hidx : (key ++ equalsSign :: v).idxOf equalsSign = key.length := by
    rw [List.idxOf_append_of_notMem hkey, List.idxOf_cons_self, Nat.add_zero]
  have hpos : 0 < key.length := List.length_pos_of_ne_nil hne
  have hdrop : (key ++ equalsSign :: v).drop (key.length + 1) = v := by
    rw [← List.drop_drop, List.drop_left, List.drop_one, List.tail_cons]
  simp only [putParam, hidx, List.take_left, hdrop]
  rw [if_pos ⟨hpos, by simp⟩]

/-- What a parameter holds stands behind its name in one of the parts. -/
lemma putParam_some (h : putParam map pair key = some v) :
    map key = some v ∨ pair.length = key.length + 1 + v.length := by
  simp only [putParam] at h
  split_ifs at h with hidx
  · by_cases hkey : key = pair.take (pair.idxOf equalsSign)
    · right
      rw [hkey, Function.update_self, Option.some.injEq] at h
      rw [hkey, ← h, List.length_take, List.length_drop]
      omega
    · left
      rwa [Function.update_of_ne hkey] at h
  · exact Or.inl h

lemma foldl_putParam_some {pairs : List JString} (h : pairs.foldl putParam map key = some v) :
    map key = some v ∨ ∃ pair ∈ pairs, pair.length = key.length + 1 + v.length := by
  induction pairs generalizing map with
  | nil => exact Or.inl h
  | cons pair pairs ih =>
    rw [List.foldl_cons] at h
    rcases ih h with hmap | ⟨pair', hmem, hlength⟩
    · rcases putParam_some hmap with hmap | hlength
      · exact Or.inl hmap
      · exact Or.inr ⟨pair, List.mem_cons_self, hlength⟩
    · exact Or.inr ⟨pair', List.mem_cons_of_mem pair hmem, hlength⟩

end splitting

section registration
variable {q e : JString}

lemma parseQueryParams_plain (h : ampersand ∉ q) :
    parseQueryParams (java "query=" ++ q) (java "query") = some q := by
  have hsplit : split ampersand (java "query=" ++ q) = [java "query=" ++ q] := by
    refine if_neg fun hmem => ?_
    rcases List.mem_append.mp hmem with hmem | hmem
    · exact absurd hmem (by decide)
    · exact h hmem
  have hpair : java "query=" ++ q = java "query" ++ equalsSign :: q := rfl
  rw [parseQueryParams, hsplit, List.foldl_cons, List.foldl_nil, hpair,
    putParam_of_eq _ (by decide) (by decide), Function.update_self]

/-- An ampersand of the query cuts its own parameter short. -/
lemma parseQueryParams_cut (h : ampersand ∈ q) {v : JString}
    (hv : parseQueryParams (java "query=" ++ q) (java "query") = some v) : v.length < q.length := by
  rw [parseQueryParams] at hv
  rcases foldl_putParam_some hv with hnone | ⟨pair, hpair, hlength⟩
  · exact absurd hnone.symm (Option.some_ne_none v)
  · have hshort := mem_split_length (List.mem_append_right _ h) hpair
    have hprefix : (java "query=").length = (java "query").length + 1 := rfl
    rw [List.length_append] at hshort
    omega

lemma requestedQuery_eq_iff (he : encodeURIComponent q = some e) :
    requestedQuery (some (tailUri e)) = some q ↔ PlainQuery q := by
  have hname : percent ∉ java "query=" := by decide
  have hget : (tailUri e).getQuery = some (java "query=" ++ q) := by
    rw [Uri.getQuery, tailUri, Option.bind_some, uriDecode_encode hname he]
  rw [requestedQuery, Option.bind_some, hget]
  by_cases hamp : ampersand ∈ q
  · refine iff_of_false (fun h => ?_) fun h => h.2.2 hamp
    simp only at h
    cases hv : parseQueryParams (java "query=" ++ q) (java "query") with
    | none =>
      rw [hv] at h
      rw [← Option.some.inj h] at hamp
      exact List.not_mem_nil hamp
    | some v =>
      rw [hv] at h
      exact absurd (parseQueryParams_cut hamp hv) (Nat.not_lt.mpr (urlDecode_length h))
  · have hself : urlDecode q = some q ↔ PlainQuery q := by
      rw [urlDecode_eq_self_iff, PlainQuery]
      exact and_congr_right fun _ => (and_iff_left hamp).symm
    simp only [parseQueryParams_plain hamp]
    exact hself

lemma originalQuery_of_create {sub : TailSubscription} (h : TailSubscription.create q = some sub) :
    sub.originalQuery = q := by
  obtain ⟨statusTarget, -, h⟩ := Option.bind_eq_some_iff.mp h
  obtain ⟨latencyTarget, -, rfl⟩ := Option.map_eq_some_iff.mp h
  rfl

lemma put_injective (b : Broadcaster) (session : Session) {sub sub' : TailSubscription}
    (h : b.put session sub = b.put session sub') : sub = sub' := by
  have hlast := List.append_cancel_left (congrArg Broadcaster.subscriptions h)
  exact congrArg Prod.snd (List.singleton_inj.mp hlast)

lemma tailRegisters_iff_requested (b : Broadcaster) (session : Session) (uri : Uri) (q : JString) :
    TailRegisters b session uri q ↔
      requestedQuery (some uri) = some q ∧ (TailSubscription.create q).isSome = true := by
  constructor
  · rintro ⟨hregistered, hreturns⟩
    obtain ⟨b', hb'⟩ := Option.isSome_iff_exists.mp hreturns
    obtain ⟨q', hq', hregister'⟩ := Option.bind_eq_some_iff.mp hb'
    obtain ⟨sub', hsub', hput'⟩ := Option.map_eq_some_iff.mp hregister'
    obtain ⟨sub, hsub, hput⟩ := Option.map_eq_some_iff.mp (hregistered.symm.trans hb')
    -- the broadcaster keeps the query as it received it
    have hsame : sub' = sub := put_injective b session (hput'.trans hput.symm)
    have hquery : q' = q := by
      rw [← originalQuery_of_create hsub', hsame, originalQuery_of_create hsub]
    exact ⟨hquery ▸ hq', by rw [hsub]; rfl⟩
  · rintro ⟨hrequested, hcreate⟩
    have hregister : afterConnectionEstablished b session (some uri) = b.registerSession session q := by
      rw [afterConnectionEstablished, hrequested, Option.bind_some]
    refine ⟨hregister, ?_⟩
    rwa [hregister, Broadcaster.registerSession, Option.isSome_map]

/-- A tail query survives the URL exactly when it has no percent sign, no plus and no ampersand
and can be subscribed at all. -/
theorem tail_registers_iff (b : Broadcaster) (session : Session)
    (he : encodeURIComponent q = some e) :
    TailRegisters b session (tailUri e) q ↔ PlainQuery q ∧ Subscribable q := by
  rw [tailRegisters_iff_requested, requestedQuery_eq_iff he, create_isSome_iff_subscribable]

end registration

section samples

def noTails : Broadcaster := ⟨[], []⟩

def tailSession : Session := ⟨1, true, false⟩

def encodedEveryLine : JString := java "%7Bjob%3D%22aarchgate-live-tail%22%7D"

theorem tail_registers_iff_sample :
    TailRegisters noTails tailSession (tailUri encodedEveryLine) everyLine ↔
      PlainQuery everyLine ∧ Subscribable everyLine :=
  tail_registers_iff noTails tailSession (by decide +kernel)

/-- A line filter with a percent sign. -/
def percentQuery : JString := java "\x7bjob=\"a\"\x7d |= \"cpu at 95%\""

def encodedPercentQuery : JString :=
  java "%7Bjob%3D%22a%22%7D%20%7C%3D%20%22cpu%20at%2095%25%22"

/-- The percent sign arrives decoded and is decoded once more: the handler throws. -/
theorem percent_query_throws : encodeURIComponent percentQuery = some encodedPercentQuery ∧
    afterConnectionEstablished noTails tailSession (some (tailUri encodedPercentQuery)) = none ∧
    ¬ TailRegisters noTails tailSession (tailUri encodedPercentQuery) percentQuery := by
  have hrequested : requestedQuery (some (tailUri encodedPercentQuery)) = none := by decide +kernel
  have hthrows :
      afterConnectionEstablished noTails tailSession (some (tailUri encodedPercentQuery)) = none := by
    rw [afterConnectionEstablished, hrequested, Option.bind_none]
  refine ⟨by decide +kernel, hthrows, fun h => ?_⟩
  have hreturns := h.returns
  rw [hthrows] at hreturns
  exact Bool.false_ne_true hreturns

end samples

end Eureka.Gateway
