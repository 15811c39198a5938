import Mathlib
import Eureka.QueryPaths

/-! The mapping cache of the service while its file is exported again. The cache is keyed by
path and an entry keeps the size that the file had when it was first mapped. -/
namespace Eureka.Service
open WordBytes Apex Simdjson FixedBlocks ByteText Dispatcher Exporter ExporterEncoding

/-- The environment in which the export at `path` has these contents. -/
def ServiceEnv.withFile (env : ServiceEnv) (path : String) (content : Option Bytes) : ServiceEnv :=
  { env with
    files :=
      { read := fun p => if p = "" then none else if p = path then content else env.files.read p
        read_empty := if_pos rfl } }

/-- An exported file and the mapping cache of the service that queries it. -/
structure Site where
  files : AgbFiles
  cache : MappedFilesCache

/-- `pinned` is the end of a background pinning of the file. -/
inductive SiteEvent
  | reexport (parser : Parser) (slicer : BitSlicer) (env : ExportEnv)
  | prewarm (rawFilepath : String) (pinMemory : Bool)
  | query (request : QueryRequest)
  | pinned (ok : Bool)

/-- The cache that `ExecuteQuery` leaves; unchanged where it has no defined result. -/
def queryCache (env : ServiceEnv) (cache : MappedFilesCache) (request : QueryRequest) :
    MappedFilesCache :=
  if (parseQuery request.queryString).isSome ∧ isAgb (env.names.canonical request.filePath) then
    prewarmCache env cache (env.names.canonical request.filePath) request.pinMemory
  else cache

def Site.env (env : ServiceEnv) (path : String) (s : Site) : ServiceEnv :=
  env.withFile path s.files.agb

def Site.step (env : ServiceEnv) (path : String) (s : Site) : SiteEvent → Site
  | .reexport parser slicer e => { s with files := (convertJsonToAgb parser slicer e s.files).2 }
  | .prewarm rawFilepath pinMemory =>
    { s with cache := prewarmCache (s.env env path) s.cache rawFilepath pinMemory }
  | .query request => { s with cache := queryCache (s.env env path) s.cache request }
  | .pinned ok =>
    { s with
      cache := Function.update s.cache path
        ((s.cache path).map fun m => { m with pinned := m.pinned || ok, pinInProgress := false }) }

def Site.run (env : ServiceEnv) (path : String) (s : Site) (events : List SiteEvent) : Site :=
  events.foldl (Site.step env path) s

/-- The size of the exported file. -/
def Site.size (s : Site) : ℕ := (s.files.agb.getD []).length

/-- A query of the path, with a query string that parses. -/
def SiteEvent.Queries (env : ServiceEnv) (path : String) : SiteEvent → Prop
  | .query request =>
    env.names.canonical request.filePath = path ∧ (parseQuery request.queryString).isSome
  | _ => False

/-- The event maps the file if it is not mapped yet. -/
def SiteEvent.Maps (env : ServiceEnv) (path : String) (s : Site) (e : SiteEvent) : Prop :=
  s.size ≠ 0 ∧
    (e.Queries env path ∨ ∃ raw pin, e = .prewarm raw pin ∧ env.names.canonical raw = path)

section mapping
variable {env : ServiceEnv} {path : String} {s : Site}

/-- What a query scans of a cache. -/
def mappingOf (cache : MappedFilesCache) (path : String) : Option (String × ℕ) :=
  (cache path).map fun m => (m.addr, m.size)

lemma isAgb_ne_empty (h : isAgb path = true) : path ≠ "" := by
  rintro rfl
  exact absurd h (by simp [isAgb])

lemma read_env (h : isAgb path = true) (s : Site) : (s.env env path).files.read path = s.files.agb := by
  simp [Site.env, ServiceEnv.withFile, isAgb_ne_empty h]

/-- A call on the path maps a non-empty file that is not cached and leaves a cached one. -/
lemma mappingOf_prewarm (h : isAgb path = true) (s : Site) {raw : String} (pin : Bool)
    (hraw : env.names.canonical raw = path) :
    mappingOf (prewarmCache (s.env env path) s.cache raw pin) path =
      if s.size ≠ 0 then (mappingOf s.cache path).or (some (path, s.size))
      else mappingOf s.cache path := by
  have hname : (s.env env path).names.canonical raw = path := hraw
  unfold prewarmCache
  simp only [hname, h, not_true_eq_false, if_false, read_env h]
  cases hc : s.cache path with
  | some m =>
    have hkept : mappingOf s.cache path = some (m.addr, m.size) := by rw [mappingOf, hc]; rfl
    simp only [hkept, Option.some_or, ite_self]
    split_ifs
    · simp [mappingOf]
    · exact hkept
  | none =>
    have hnone : mappingOf s.cache path = none := by rw [mappingOf, hc]; rfl
    simp only [hnone, Option.none_or, Site.size]
    cases hf : s.files.agb with
    | none => simp [hnone]
    | some bytes =>
      by_cases hb : bytes = []
      · simp [hb, hnone]
      · simp [hb, mappingOf]

/-- A call on another path leaves the entry. -/
lemma prewarmCache_of_ne {cache : MappedFilesCache} {raw : String} (pin : Bool)
    (hraw : env.names.canonical raw ≠ path) : prewarmCache env cache raw pin path = cache path := by
  have hkeep : ∀ m, Function.update cache (env.names.canonical raw) m path = cache path :=
    fun m => Function.update_of_ne hraw.symm m cache
  unfold prewarmCache
  by_cases hagb : isAgb (env.names.canonical raw) = true
  · simp only [hagb, not_true_eq_false, if_false]
    cases cache (env.names.canonical raw) with
    | some m =>
      dsimp only
      split_ifs
      · exact hkeep _
      · rfl
    | none =>
      cases env.files.read (env.names.canonical raw) with
      | none => rfl
      | some bytes =>
        dsimp only
        split_ifs
        · rfl
        · exact hkeep _
  · simp only [if_pos hagb]

lemma mappingOf_prewarm_other (s : Site) {raw : String} (pin : Bool)
    (hraw : env.names.canonical raw ≠ path) :
    mappingOf (prewarmCache (s.env env path) s.cache raw pin) path = mappingOf s.cache path := by
  have hname : (s.env env path).names.canonical raw ≠ path := hraw
  rw [mappingOf, prewarmCache_of_ne pin hname]
  rfl

lemma canonical_query (env : ServiceEnv) (path : String) (s : Site) (request : QueryRequest) :
    (s.env env path).names.canonical request.filePath = env.names.canonical request.filePath := rfl

/-- A call of the path, by a prewarm or by a query with a result. -/
lemma mappingOf_call (h : isAgb path = true) (s : Site) {e : SiteEvent}
    (he : e.Queries env path ∨ ∃ raw pin, e = .prewarm raw pin ∧ env.names.canonical raw = path) :
    mappingOf (s.step env path e).cache path =
      if s.size ≠ 0 then (mappingOf s.cache path).or (some (path, s.size))
      else mappingOf s.cache path := by
  rcases he with hq | ⟨raw, pin, rfl, hraw⟩
  · cases e with
    | query request =>
      obtain ⟨hname, hparse⟩ := hq
      have hagb : isAgb ((s.env env path).names.canonical request.filePath) = true := by
        rw [canonical_query, hname, h]
      simp only [Site.step, queryCache, hparse, hagb, and_self, if_true]
      refine mappingOf_prewarm h s request.pinMemory ?_
      rw [canonical_query, hname, ← hname, env.names.canonical_canonical]
    | _ => exact absurd hq (by simp [SiteEvent.Queries])
  · exact mappingOf_prewarm h s pin hraw

lemma mappingOf_other (s : Site) {e : SiteEvent}
    (he : ¬ (e.Queries env path ∨
      ∃ raw pin, e = .prewarm raw pin ∧ env.names.canonical raw = path)) :
    mappingOf (s.step env path e).cache path = mappingOf s.cache path := by
  obtain ⟨hq, hp⟩ := not_or.mp he
  cases e with
  | reexport parser slicer e => rfl
  | prewarm raw pin => exact mappingOf_prewarm_other s pin fun hraw => hp ⟨raw, pin, rfl, hraw⟩
  | query request =>
    simp only [Site.step, queryCache]
    split_ifs with hcall
    · refine mappingOf_prewarm_other s request.pinMemory fun hraw => hq ⟨?_, hcall.1⟩
      rwa [canonical_query, env.names.canonical_canonical] at hraw
    · rfl
  | pinned ok =>
    simp only [Site.step, mappingOf, Function.update_self, Option.map_map]
    rfl

/-- The mapping changes only when a non-empty file is mapped for the first time. -/
theorem mappingOf_step (h : isAgb path = true) (s : Site) (e : SiteEvent) :
    (e.Maps env path s → mappingOf (s.step env path e).cache path =
      (mappingOf s.cache path).or (some (path, s.size))) ∧
    (¬ e.Maps env path s →
      mappingOf (s.step env path e).cache path = mappingOf s.cache path) := by
  by_cases he : e.Queries env path ∨
      ∃ raw pin, e = .prewarm raw pin ∧ env.names.canonical raw = path
  · rw [mappingOf_call h s he]
    constructor
    · exact fun hm => if_pos hm.1
    · exact fun hm => if_neg fun hs => hm ⟨hs, he⟩
  · rw [mappingOf_other s he]
    exact ⟨fun hm => absurd hm.2 he, fun _ => rfl⟩

end mapping

section runs
variable {env : ServiceEnv} {path : String} {s : Site} {events : List SiteEvent}

/-- The event at `j` is the first one that maps the file. -/
def MapsFirst (env : ServiceEnv) (path : String) (s : Site) (events : List SiteEvent) (j : ℕ) :
    Prop :=
  (∃ e, events[j]? = some e ∧ e.Maps env path (s.run env path (events.take j))) ∧
    ∀ i < j, ∀ e, events[i]? = some e → ¬ e.Maps env path (s.run env path (events.take i))

lemma run_take_succ {k : ℕ} {e : SiteEvent} (he : events[k]? = some e) :
    s.run env path (events.take (k + 1)) =
      (s.run env path (events.take k)).step env path e := by
  obtain ⟨hk, rfl⟩ := List.getElem?_eq_some_iff.mp he
  exact TransitionRuns.foldl_take_succ s events hk

lemma mapping_before (h : isAgb path = true) (hs : s.cache path = none) {k : ℕ}
    (hk : k ≤ events.length) (hnone : ∀ i < k, ∀ e, events[i]? = some e →
      ¬ e.Maps env path (s.run env path (events.take i))) :
    mappingOf (s.run env path (events.take k)).cache path = none := by
  induction k with
  | zero => simp [Site.run, mappingOf, hs]
  | succ k ih =>
    have he : events[k]? = some events[k] := List.getElem?_eq_getElem hk
    rw [run_take_succ he, (mappingOf_step h _ _).2 (hnone k (Nat.lt_succ_self k) _ he)]
    exact ih (Nat.le_of_succ_le hk) fun i hi => hnone i (Nat.lt_succ_of_lt hi)

/-- From its first mapping on the cache shows the size that the file had then. -/
theorem mapping_after (h : isAgb path = true) (hs : s.cache path = none) {j k : ℕ}
    (hj : MapsFirst env path s events j) (hjk : j < k) (hk : k ≤ events.length) :
    mappingOf (s.run env path (events.take k)).cache path =
      some (path, (s.run env path (events.take j)).size) := by
  induction k, hjk using Nat.le_induction with
  | base =>
    obtain ⟨⟨e, he, hmaps⟩, hfirst⟩ := hj
    rw [run_take_succ he, (mappingOf_step h _ e).1 hmaps,
      mapping_before h hs (Nat.le_of_succ_le hk) hfirst, Option.none_or]
  | succ k hjk ih =>
    have he : events[k]? = some events[k] := List.getElem?_eq_getElem hk
    have hkept := ih (Nat.le_of_succ_le hk)
    rw [run_take_succ he]
    by_cases hm : events[k].Maps env path (s.run env path (events.take k))
    · rw [(mappingOf_step h _ _).1 hm, hkept, Option.some_or]
    · rw [(mappingOf_step h _ _).2 hm, hkept]

lemma exists_mapsFirst {k : ℕ} {e : SiteEvent} (he : events[k]? = some e)
    (hm : e.Maps env path (s.run env path (events.take k))) :
    ∃ j ≤ k, MapsFirst env path s events j := by
  classical
  have hex : ∃ i, ∃ e : SiteEvent, events[i]? = some e ∧
      e.Maps env path (s.run env path (events.take i)) := ⟨k, e, he, hm⟩
  refine ⟨Nat.find hex, Nat.find_min' hex ⟨e, he, hm⟩, Nat.find_spec hex, ?_⟩
  exact fun i hi e' he' hm' => Nat.find_min hex hi ⟨e', he', hm'⟩

/-- Whatever a query of the path answers, a mapping that it scans is of the file as it is. -/
def QueriesCurrent (engine : ApexEngine) (parser : Parser) (env : ServiceEnv) (path : String)
    (s : Site) (e : SiteEvent) : Prop :=
  ∀ request, e = .query request → env.names.canonical request.filePath = path →
    ∀ response cache', ExecuteQuery engine parser (s.env env path) s.cache request response cache' →
      ∀ m, cache' path = some m → m.addr = path ∧ m.size = s.size

/-- What the query of the path scans is what its own prewarm leaves in the cache. -/
lemma queriesCurrent_iff (engine : ApexEngine) (parser : Parser) (h : isAgb path = true) (s : Site)
    (e : SiteEvent) : QueriesCurrent engine parser env path s e ↔
      (e.Queries env path → ∀ addr size,
        mappingOf (s.step env path e).cache path = some (addr, size) →
          addr = path ∧ size = s.size) := by
  constructor
  · intro hcur hq addr size hmap
    cases e with
    | query request =>
      obtain ⟨hname, hparse⟩ := hq
      obtain ⟨query, hquery⟩ := Option.isSome_iff_exists.mp hparse
      have hagb : isAgb ((s.env env path).names.canonical request.filePath) = true := by
        rw [canonical_query, hname, h]
      obtain ⟨m, hm, hview⟩ := Option.map_eq_some_iff.mp hmap
      obtain ⟨rfl, rfl⟩ := Prod.mk.inj hview
      refine hcur request rfl hname (executeAgb engine (s.env env path)
        (queryCache (s.env env path) s.cache request)
        ((s.env env path).names.canonical request.filePath) query) _ ?_ m hm
      simp only [ExecuteQuery, hquery, hagb, if_true, Site.step, queryCache, Option.isSome_some,
        and_self]
    | _ => exact absurd hq (by simp [SiteEvent.Queries])
  · rintro hview request rfl hname response cache' hexec m hm
    have hagb : isAgb ((s.env env path).names.canonical request.filePath) = true := by
      rw [canonical_query, hname, h]
    cases hquery : parseQuery request.queryString with
    | none => simp only [ExecuteQuery, hquery] at hexec
    | some query =>
      simp only [ExecuteQuery, hquery, hagb, if_true] at hexec
      have hcache : cache' = (s.step env path (.query request)).cache := by
        simp only [Site.step, queryCache, hquery, hagb, Option.isSome_some, and_self, if_true]
        exact hexec.1
      refine hview ⟨hname, by rw [hquery]; rfl⟩ m.addr m.size ?_
      rw [← hcache, mappingOf, hm]
      rfl

/-- In a service that has not mapped the path yet, every query of a run scans the file as it is
exactly when the file has at each query the size it had when it was first mapped. -/
theorem queries_current_iff (engine : ApexEngine) (parser : Parser) (h : isAgb path = true)
    (hs : s.cache path = none) (events : List SiteEvent) :
    (∀ k e, events[k]? = some e →
      QueriesCurrent engine parser env path (s.run env path (events.take k)) e) ↔
    ∀ j k e, MapsFirst env path s events j → j ≤ k → events[k]? = some e → e.Queries env path →
      (s.run env path (events.take j)).size = (s.run env path (events.take k)).size := by
  constructor
  · intro hall j k e hj hjk he hq
    have hk := (List.getElem?_eq_some_iff.mp he).1
    have hmap := mapping_after h hs hj (Nat.lt_succ_of_le hjk) hk
    rw [run_take_succ he] at hmap
    exact ((queriesCurrent_iff engine parser h _ e).mp (hall k e he) hq _ _ hmap).2
  · intro hsize k e he
    rw [queriesCurrent_iff engine parser h]
    intro hq addr size hmap
    have hk := (List.getElem?_eq_some_iff.mp he).1
    rw [← run_take_succ he] at hmap
    by_cases hex : ∃ j ≤ k, MapsFirst env path s events j
    · obtain ⟨j, hjk, hj⟩ := hex
      rw [mapping_after h hs hj (Nat.lt_succ_of_le hjk) hk] at hmap
      obtain ⟨rfl, rfl⟩ := Prod.mk.inj (Option.some.inj hmap)
      exact ⟨rfl, hsize j k e hj hjk he hq⟩
    · have hnone : ∀ i < k + 1, ∀ e', events[i]? = some e' →
          ¬ e'.Maps env path (s.run env path (events.take i)) := by
        intro i hi e' he' hm
        obtain ⟨j, hji, hj⟩ := exists_mapsFirst he' hm
        exact hex ⟨j, by omega, hj⟩
      rw [mapping_before h hs hk hnone] at hmap
      exact absurd hmap (by simp)

end runs

section samples

/-- An export of `n` readable lines. -/
def exportLines (n : ℕ) : SiteEvent :=
  .reexport (.ofStream (statusDocuments n)) .reference (.working (statusLines n))

lemma size_exportLines (s : Site) (env : ServiceEnv) (path : String) (n : ℕ) :
    (s.step env path (exportLines n)).size = 1024 * blockCount n := by
  have hok : convertJsonToAgb (.ofStream (statusDocuments n)) .reference (.working (statusLines n))
      s.files = (true, (s.step env path (exportLines n)).files) := rfl
  have hfiles := convert_files rfl rfl rfl hok
  rw [Site.size, hfiles, Option.getD_some, agb_size, statusDocuments_length]

/-- A service that has not seen a path that is not exported yet. -/
def freshSite : Site := ⟨⟨none, none⟩, fun _ => none⟩

def agbQuery : QueryRequest := ⟨(Query.both (.status 200) (.latency 100)).text, "app.agb", false⟩

theorem queries_current_sample :
    (∀ k e, [exportLines 1, .query agbQuery][k]? = some e →
      QueriesCurrent .reference (.ofStream []) sampleService "app.agb"
        (freshSite.run sampleService "app.agb" ([exportLines 1, .query agbQuery].take k)) e) ↔
    ∀ j k e, MapsFirst sampleService "app.agb" freshSite [exportLines 1, .query agbQuery] j →
      j ≤ k → [exportLines 1, .query agbQuery][k]? = some e → e.Queries sampleService "app.agb" →
        (freshSite.run sampleService "app.agb" ([exportLines 1, .query agbQuery].take j)).size =
          (freshSite.run sampleService "app.agb" ([exportLines 1, .query agbQuery].take k)).size :=
  queries_current_iff .reference (.ofStream []) rfl rfl [exportLines 1, .query agbQuery]

/-- The file is mapped with one block and exported again with two: the query scans one. -/
theorem query_scans_stale_size :
    ¬ QueriesCurrent .reference (.ofStream []) sampleService "app.agb"
      (freshSite.run sampleService "app.agb"
        [exportLines 1, .prewarm "app.agb" false, exportLines 65]) (.query agbQuery) := by
  intro h
  have hagb : isAgb "app.agb" = true := rfl
  have hq : (SiteEvent.query agbQuery).Queries sampleService "app.agb" := by
    refine ⟨rfl, ?_⟩
    rw [agbQuery, parseQuery_text]
    rfl
  have hmapped : MapsFirst sampleService "app.agb" freshSite
      [exportLines 1, .prewarm "app.agb" false, exportLines 65, .query agbQuery] 1 := by
    refine ⟨⟨_, rfl, ?_, Or.inr ⟨"app.agb", false, rfl, rfl⟩⟩, ?_⟩
    · have hsize := size_exportLines freshSite sampleService "app.agb" 1
      exact hsize ▸ by norm_num [blockCount]
    · rintro i hi e he ⟨-, hq | ⟨raw, pin, rfl, -⟩⟩
      · obtain rfl : i = 0 := by omega
        cases he
        exact hq
      · obtain rfl : i = 0 := by omega
        exact absurd he (by simp [exportLines])
  have hmap := mapping_after hagb rfl hmapped (k := 4) (by norm_num) (by simp)
  have hview := (queriesCurrent_iff .reference (.ofStream []) hagb _ _).mp h hq _ _ hmap
  have hfirst := size_exportLines freshSite sampleService "app.agb" 1
  have hsecond := size_exportLines
    (freshSite.run sampleService "app.agb" [exportLines 1, .prewarm "app.agb" false])
    sampleService "app.agb" 65
  have hsizes : 1024 * blockCount 1 = 1024 * blockCount 65 :=
    hfirst.symm.trans (hview.2.trans hsecond)
  norm_num [blockCount] at hsizes

end samples

end Eureka.Service
