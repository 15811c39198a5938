import Mathlib
import Eureka.QueryPaths
import Eureka.StringQueries
import Eureka.StringSearch
import Eureka.LogQLNormalForm
import Eureka.QueryCounts

/-! What a LogQL query counts once its translation reaches the core service: the records that its
numbers select or the occurrences of its line filter in a text file, and the rows that agree with
its numbers modulo 256 in a binary one. -/
namespace Eureka.Service
open WordBytes ByteText Apex Simdjson Dispatcher Pipeline JavaText RegexSearch Regex LogQL Occurrences

/-- The request of the gateway for a LogQL query. -/
def gatewayRequest (logql : JString) (filePath : String) (pinMemory : Bool) : QueryRequest :=
  ⟨utf8 (parse logql), filePath, pinMemory⟩

variable {engine : ApexEngine} {parser : Parser} {env : ServiceEnv} {cache : MappedFilesCache}
  {logql : JString} {filePath : String}

section filters

/-- A byte with one of its two high bits set is no quote. -/
lemma high_or_ne_quote : ∀ x : Byte, 0x80#8 ||| x ≠ quote ∧ 0xc0#8 ||| x ≠ quote ∧
    0xe0#8 ||| x ≠ quote ∧ 0xf0#8 ||| x ≠ quote := by
  decide

lemma continuation_ne_quote (point : BitVec 32) (shift : ℕ) : continuation point shift ≠ quote :=
  (high_or_ne_quote _).1

/-- Only a double quote is encoded with the byte of one. -/
lemma quote_of_mem_encodeUnit {c : JChar} (h : quote ∈ encodeUnit c) : c = doubleQuote := by
  unfold encodeUnit at h
  split_ifs at h with hone htwo hsurrogate
  · have hbyte : c.setWidth 8 = quote := (List.mem_singleton.mp h).symm
    apply BitVec.eq_of_toNat_eq
    have hnat := congrArg BitVec.toNat hbyte
    simp only [BitVec.toNat_setWidth, BitVec.lt_def, BitVec.toNat_ofNat, quote, doubleQuote] at *
    omega
  · rcases List.mem_cons.mp h with h | h
    · exact absurd h.symm (high_or_ne_quote _).2.1
    · exact absurd (List.mem_singleton.mp h).symm (continuation_ne_quote _ _)
  · exact absurd (List.mem_singleton.mp h) (by decide)
  · rcases List.mem_cons.mp h with h | h
    · exact absurd h.symm (high_or_ne_quote _).2.2.1
    · rcases List.mem_cons.mp h with h | h
      · exact absurd h.symm (continuation_ne_quote _ _)
      · exact absurd (List.mem_singleton.mp h).symm (continuation_ne_quote _ _)

lemma quote_notMem_encodePair (high low : JChar) : quote ∉ encodePair high low := by
  intro h
  rcases List.mem_cons.mp h with h | h
  · exact absurd h.symm (high_or_ne_quote _).2.2.2
  · simp only [List.mem_cons, List.not_mem_nil, or_false] at h
    rcases h with h | h | h <;> exact absurd h.symm (continuation_ne_quote _ _)

lemma quote_notMem_utf8 {s : JString} (h : doubleQuote ∉ s) : quote ∉ utf8 s := by
  induction s using utf8.induct with
  | case1 => exact List.not_mem_nil
  | case2 c =>
    intro hmem
    exact h (List.mem_singleton.mpr (quote_of_mem_encodeUnit hmem).symm)
  | case3 c d ds hpair ih =>
    rw [utf8, if_pos hpair, List.mem_append, not_or]
    refine ⟨quote_notMem_encodePair c d, ih fun hmem => h ?_⟩
    exact List.mem_cons_of_mem _ (List.mem_cons_of_mem _ hmem)
  | case4 c d ds hpair ih =>
    rw [utf8, if_neg hpair, List.mem_append, not_or]
    refine ⟨fun hmem => h ?_, ih fun hmem => h (List.mem_cons_of_mem _ hmem)⟩
    exact List.mem_cons.mpr (Or.inl (quote_of_mem_encodeUnit hmem).symm)

lemma stripQuotes_of_notMem {s : Bytes} (hne : s ≠ []) (h : quote ∉ s) : stripQuotes s = some s := by
  rw [stripQuotes, if_neg hne, if_neg]
  rintro ⟨hhead, -⟩
  exact h (List.mem_of_mem_head? hhead)

lemma mem_of_mem_trim {s : Bytes} {c : Byte} (h : c ∈ trim s) : c ∈ s :=
  (List.dropWhile_sublist _).subset ((List.rdropWhile_prefix _ _).subset h)

/-- A line filter is visible text. -/
lemma not_isBlank_of_lineFilter {text : JString} (h : lineFilterText logql = some text) :
    ¬ isBlank logql = true := by
  obtain ⟨groups, hfind, -⟩ := Option.bind_eq_some_iff.mp h
  have hsome : (RegexSearch.find lineFilterPattern logql).isSome = true := by rw [hfind]; rfl
  obtain ⟨w, hw, hpart⟩ := find_isSome_iff.mp hsome
  obtain ⟨a, ha, b, -, rfl⟩ := mem_lang_seq.mp hw
  obtain rfl := (mem_lang_lit _).mp ha
  intro hblank
  have hbar := List.all_eq_true.mp hblank 0x7c#16 (hpart.subset (List.mem_append_left b (by decide)))
  exact absurd (of_decide_eq_true hbar) (by decide)

/-- The answer to a LogQL query without numbers, whose line filter holds no comparison and no
call: the largest number of disjoint occurrences of the trimmed text. -/
theorem logql_filter_counted {text : JString} {bytes : Bytes} (hs : statusVal logql = none)
    (hl : latencyVal logql = none) (hfilter : lineFilterText logql = some text)
    (hplain : isNumerical (trim (utf8 text)) = false) (hvisible : trim (utf8 text) ≠ [])
    (hcall : ∀ inner, trim (utf8 text) ≠ containsCall inner) (hnul : 0 ∉ trim (utf8 text))
    (htext : isAgb (env.names.canonical filePath) = false)
    (hread : env.files.read (env.names.canonical filePath) = some bytes) (pinMemory : Bool)
    (response : QueryResponse) (cache' : MappedFilesCache) :
    ExecuteQuery engine parser env cache (gatewayRequest logql filePath pinMemory) response cache' ↔
      response = .found (greedyCount (trim (utf8 text)) bytes) bytes.length ∧ cache' = cache := by
  have hparse : parse logql = text := by
    rw [parse_text hs hl, if_neg (not_isBlank_of_lineFilter hfilter), hfilter, Option.getD_some]
  have hquote : quote ∉ trim (utf8 text) := fun hmem =>
    quote_notMem_utf8 (quote_notMem_lineFilter hfilter) (mem_of_mem_trim hmem)
  have hquery : parseQuery (utf8 (parse logql)) =
      some ⟨.scalarStringSearch, trim (utf8 text), 0, 0⟩ := by
    simp only [parseQuery, hparse, hplain, parseString_of_ne _ hcall,
      stripQuotes_of_notMem hvisible hquote, Bool.false_eq_true, not_false_iff, if_true,
      Option.map_some]
  have hsearch : runScalarStringSearch env.files (env.names.canonical filePath)
      (trim (utf8 text)) = (greedyCount (trim (utf8 text)) bytes, bytes.length) := by
    rw [runScalarStringSearch, hread]
    simp only [if_neg hvisible, countFrom_eq hvisible hnul 0]
    rfl
  simp only [ExecuteQuery, gatewayRequest, hquery, htext, Bool.false_eq_true, if_false,
    ExecutesText, hsearch]
  exact and_comm

end filters

section searches

end searches

section binaries

/-- What a scan of a binary file takes from a query: the low bytes of its two numbers. -/
def scannedBytes (query : Bytes) : Option (ℕ × ℕ) :=
  (parseQuery query).map fun p => (lowBits 8 p.statusTarget, lowBits 8 p.latencyTarget)

/-- A text search leaves both numbers at zero. -/
lemma scannedBytes_text {query : Bytes} {p : ParsedQuery} (hp : parseQuery query = some p)
    (htype : p.type = .scalarStringSearch) : scannedBytes query = some (0, 0) := by
  have htargets : p.statusTarget = 0 ∧ p.latencyTarget = 0 := by
    rw [parseQuery] at hp
    simp only at hp
    split_ifs at hp with hnum
    · rw [← Option.some.inj hp] at htype
      cases htype
    · obtain ⟨pattern, -, rfl⟩ := Option.map_eq_some_iff.mp hp
      exact ⟨rfl, rfl⟩
  rw [scannedBytes, hp, Option.map_some, htargets.1, htargets.2]
  rfl

lemma lowSatisfies_congr {s s' l l' : Word} (hs : lowBits 8 s = lowBits 8 s')
    (hl : lowBits 8 l = lowBits 8 l') : lowSatisfies s l = lowSatisfies s' l' := by
  funext r
  rw [lowSatisfies, lowSatisfies, hs, hl]

lemma executeAgb_congr {p p' : ParsedQuery} (hs : lowBits 8 p.statusTarget = lowBits 8 p'.statusTarget)
    (hl : lowBits 8 p.latencyTarget = lowBits 8 p'.latencyTarget) (path : String) :
    executeAgb engine env cache path p = executeAgb engine env cache path p' := by
  unfold executeAgb
  cases cache path with
  | none => rfl
  | some m => simp only [scanAgb_count, lowSatisfies_congr hs hl]

/-- Over a binary file, queries whose numbers have the same low bytes get the same answers, and a
text search for any pattern is answered as `status == 0 AND latency > 0`. -/
theorem binary_answers_alike (engine : ApexEngine) (parser : Parser) (env : ServiceEnv)
    (cache : MappedFilesCache) (hagb : isAgb (env.names.canonical filePath) = true)
    {query query' : Bytes} (h : scannedBytes query = scannedBytes query' ∨
      (∃ p, parseQuery query = some p ∧ p.type = .scalarStringSearch) ∧
        query' = (Query.both (.status 0) (.latency 0)).text) (pinMemory : Bool)
    (response : QueryResponse) (cache' : MappedFilesCache) :
    ExecuteQuery engine parser env cache ⟨query, filePath, pinMemory⟩ response cache' ↔
      ExecuteQuery engine parser env cache ⟨query', filePath, pinMemory⟩ response cache' := by
  have hbytes : scannedBytes query = scannedBytes query' := by
    rcases h with h | ⟨⟨p, hp, htype⟩, rfl⟩
    · exact h
    · rw [scannedBytes_text hp htype, scannedBytes, parseQuery_text]
      rfl
  simp only [scannedBytes] at hbytes
  cases hp : parseQuery query with
  | none =>
    rw [hp, Option.map_none, eq_comm, Option.map_eq_none_iff] at hbytes
    simp only [ExecuteQuery, hp, hbytes]
  | some p =>
    rw [hp, Option.map_some, eq_comm, Option.map_eq_some_iff] at hbytes
    obtain ⟨p', hp', heq⟩ := hbytes
    obtain ⟨hs, hl⟩ := Prod.mk.inj heq
    simp only [ExecuteQuery, hp, hp', if_pos hagb]
    refine and_congr_right fun hcache => ?_
    rw [executeAgb_congr hs hl]

end binaries

section samples

def statusQuery : JString := java "\x7bjob=\"app\"\x7d |= \" status \""

lemma trim_status : trim (utf8 (java " status ")) = ascii "status" := by decide

theorem logql_filter_counted_sample :
    ExecuteQuery .reference (.ofStream sampleStream) sampleService (fun _ => none)
      (gatewayRequest statusQuery "app.log" true) (.found 2 sampleFile.length) (fun _ => none) := by
  have hcall : ∀ inner, trim (utf8 (java " status ")) ≠ containsCall inner := by
    intro inner h
    rw [trim_status] at h
    have hhead : (0x73#8) = 0x63#8 := (List.cons.inj h).1
    exact absurd hhead (by decide)
  exact (logql_filter_counted (by decide) (by decide) (by decide)
    (by decide) (by decide) hcall (by decide) (by decide) rfl true _ _).mpr
    ⟨congrArg (QueryResponse.found · _) (by decide), rfl⟩

theorem binary_answers_alike_sample :
    ExecuteQuery .reference (.ofStream sampleStream) sampleService (fun _ => none)
        ⟨(Query.single (.status 500)).text, "app.agb", false⟩ (.found 0 1024) (fun _ => none) ↔
      ExecuteQuery .reference (.ofStream sampleStream) sampleService (fun _ => none)
        ⟨(Query.single (.status 244)).text, "app.agb", false⟩ (.found 0 1024) (fun _ => none) := by
  have hbytes : scannedBytes (Query.single (.status 500)).text =
      scannedBytes (Query.single (.status 244)).text := by
    simp only [scannedBytes, parseQuery_text]
    rfl
  exact binary_answers_alike .reference _ sampleService _ (by decide) (Or.inl hbytes) false _ _

end samples

end Eureka.Service
