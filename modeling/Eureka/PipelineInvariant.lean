import Mathlib
import Eureka.FixedBlocks
import Eureka.IngesterPipeline

/-! What holds in every state of a query run, whichever thread steps: the ring is a first-in
first-out queue of chunks, and every record is in exactly one place. -/
namespace Eureka.Pipeline
open WordBytes BitPlanes Apex Simdjson FixedBlocks RingQueue

variable {engine : ApexEngine} {s l : Word}

def laneRecords (status latency : Lanes) (n : ℕ) : List LogRecord :=
  (List.range n).map fun r => ⟨status.getD r 0, latency.getD r 0⟩

def LogChunk.records (c : LogChunk) : List LogRecord := laneRecords c.status c.latency c.count

def recordOf (doc : Document) : LogRecord := ⟨doc.status, doc.latency⟩

def docRecords (docs : List (Option Document)) : List LogRecord :=
  docs.filterMap (Option.map recordOf)

def satisfies (s l : Word) (r : LogRecord) : Bool := r.status == s && decide (l < r.latency)

/-- A stream that throws leaves its last unfilled chunk unsent. -/
def delivered (throws : Bool) (records : List LogRecord) : List LogRecord :=
  if throws then records.take (64 * (records.length / 64)) else records

/-- The records that the parsing thread has still to push. -/
def Producer.pending (p : Producer) : List LogRecord :=
  match p.pc with
  | .parsing docs => delivered p.throws
      (laneRecords p.currentChunk.status p.currentChunk.latency p.currentCount ++ docRecords docs)
  | .pushing docs => p.currentChunk.records ++ delivered p.throws (docRecords docs)
  | .pushingLast => p.currentChunk.records
  | _ => []

/-- The chunk that the worker has taken and not yet counted. -/
def Consumer.inFlight (c : Consumer) : List LogChunk :=
  match c.pc with
  | .evaluating chunk => [chunk]
  | _ => []

def ProducerPc.finished : ProducerPc → Prop
  | .joining => True
  | .returned _ => True
  | _ => False

/-- The chunk counts that the parsing thread may have at each point. -/
def Producer.Shape (p : Producer) : Prop :=
  match p.pc with
  | .parsing _ => p.currentCount < 64
  | .pushing _ => p.currentChunk.count = 64
  | .pushingLast => p.currentChunk.count ≤ 64
  | _ => True

def chunkRecords (cs : List LogChunk) : List LogRecord := cs.flatMap LogChunk.records

structure Invariant (s l : Word) (all : List LogRecord) (t : System) : Prop where
  ring : t.ingester.ring.Valid
  fifo : t.history.consumed ++ t.ingester.ring.contents = t.history.produced
  counts : ∀ c ∈ t.history.produced, c.count ≤ 64
  shape : t.producer.Shape
  records : chunkRecords t.history.produced ++ t.producer.pending = all
  signalled : t.producer.pc = .joining → t.ingester.ingestComplete = true
  complete : t.ingester.ingestComplete = true → t.producer.pc.finished
  root : t.consumer.root = queryRoot s l
  inFlight : ∀ c ∈ t.consumer.inFlight, c ∈ t.history.consumed
  counted : t.consumer.processedMatches + (chunkRecords t.consumer.inFlight).countP (satisfies s l) =
    (chunkRecords t.history.consumed).countP (satisfies s l)
  published : t.ingester.matchCount =
    if t.consumer.pc = .exited then t.consumer.processedMatches else 0
  drained : t.consumer.pc = .publishing ∨ t.consumer.pc = .exited →
    t.ingester.ring.size = 0 ∧ t.producer.pc.finished
  result : ∀ r, t.producer.pc = .returned r → r = all.countP (satisfies s l)

section records

lemma laneRecords_length (status latency : Lanes) (n : ℕ) :
    (laneRecords status latency n).length = n := by simp [laneRecords]

lemma laneRecords_congr {a b c d : Lanes} {n : ℕ} (h : ∀ r < n, a.getD r 0 = c.getD r 0)
    (h' : ∀ r < n, b.getD r 0 = d.getD r 0) : laneRecords a b n = laneRecords c d n := by
  refine List.map_congr_left fun r hr => ?_
  have hr := List.mem_range.mp hr
  rw [h r hr, h' r hr]

lemma getD_setIfInBounds {α : Type*} (buf : Vector α 64) {i : ℕ} (hi : i < 64) (v d : α) (r : ℕ) :
    (buf.setIfInBounds i v).getD r d = if r = i then v else buf.getD r d := by
  have hget : ∀ b : Vector α 64, b.getD r d = b[r]?.getD d := fun b => by simp [Vector.getD]
  rw [hget, hget, Vector.getElem?_setIfInBounds]
  by_cases h : r = i
  · rw [if_pos h.symm, if_pos h, if_pos hi, Option.getD_some]
  · rw [if_neg (Ne.symm h), if_neg h]

/-- Filling the next lane appends the record. -/
lemma laneRecords_fill (c : LogChunk) {n : ℕ} (hn : n < 64) (doc : Document) :
    laneRecords (c.fill n doc).status (c.fill n doc).latency (n + 1) =
      laneRecords c.status c.latency n ++ [recordOf doc] := by
  have hold : ∀ (buf : Lanes) (v : Word), ∀ r < n, (buf.setIfInBounds n v).getD r 0 = buf.getD r 0 := by
    intro buf v r hr
    rw [getD_setIfInBounds buf hn, if_neg (by omega)]
  have hnew : ∀ (buf : Lanes) (v : Word), (buf.setIfInBounds n v).getD n 0 = v := by
    intro buf v
    rw [getD_setIfInBounds buf hn, if_pos rfl]
  have hpre := laneRecords_congr (hold c.status doc.status) (hold c.latency doc.latency)
  rw [laneRecords, List.range_succ, List.map_append]
  simp only [LogChunk.fill, List.map_cons, List.map_nil, hnew]
  rw [← hpre]
  rfl

lemma pad_records (c : LogChunk) {n : ℕ} (hn : n < 64) :
    (c.pad n).records = laneRecords c.status c.latency n := by
  have hzero : ∀ buf : Lanes, ∀ r < n, (zeroFrom buf n).getD r 0 = buf.getD r 0 := by
    intro buf r hr
    have hr64 : r < 64 := hr.trans hn
    simp [zeroFrom, Vector.getD, hr, hr64]
  exact laneRecords_congr (hzero c.status) (hzero c.latency)

/-- A full chunk is delivered whether or not the stream throws later. -/
lemma delivered_append (throws : Bool) {xs ys : List LogRecord} (hx : xs.length = 64) :
    delivered throws (xs ++ ys) = xs ++ delivered throws ys := by
  cases throws with
  | false => rfl
  | true =>
    have hlen : 64 * ((xs ++ ys).length / 64) = 64 + 64 * (ys.length / 64) := by
      rw [List.length_append, hx]
      omega
    simp only [delivered, if_true]
    rw [hlen, ← hx, List.take_length_add_append]

lemma delivered_short {xs : List LogRecord} (hx : xs.length < 64) : delivered true xs = [] := by
  simp [delivered, Nat.div_eq_of_lt hx]

lemma chunkRecords_append (cs : List LogChunk) (c : LogChunk) :
    chunkRecords (cs ++ [c]) = chunkRecords cs ++ c.records := by
  simp [chunkRecords]

end records

variable {all : List LogRecord} {t t' : System}

lemma Invariant.notComplete (h : Invariant s l all t) (hopen : ¬ t.producer.pc.finished) :
    ¬ t.ingester.ingestComplete = true := fun hc => hopen (h.complete hc)

lemma Invariant.notDrained (h : Invariant s l all t) (hopen : ¬ t.producer.pc.finished) :
    ¬ (t.consumer.pc = .publishing ∨ t.consumer.pc = .exited) := fun hd => hopen (h.drained hd).2

lemma not_joining {pc : ProducerPc} (h : ¬ pc.finished) : pc ≠ .joining := by
  rintro rfl
  exact h trivial

lemma not_returned {pc : ProducerPc} (h : ¬ pc.finished) (r : ℕ) : pc ≠ .returned r := by
  rintro rfl
  exact h trivial

/-- Work of the parsing thread outside the critical sections. -/
lemma Invariant.parse (h : Invariant s l all t) (hopen : ¬ t.producer.pc.finished) {p : Producer}
    (hp : ¬ p.pc.finished) (hshape : p.Shape) (hpending : p.pending = t.producer.pending) :
    Invariant s l all { t with producer := p } where
  ring := h.ring
  fifo := h.fifo
  counts := h.counts
  shape := hshape
  records := by
    show chunkRecords t.history.produced ++ p.pending = all
    rw [hpending, h.records]
  signalled hj := absurd hj (not_joining hp)
  complete hc := absurd hc (h.notComplete hopen)
  root := h.root
  inFlight := h.inFlight
  counted := h.counted
  published := h.published
  drained hd := absurd hd (h.notDrained hopen)
  result r hr := absurd hr (not_returned hp r)

/-- The critical section of a push. -/
lemma Invariant.push (h : Invariant s l all t) (hopen : ¬ t.producer.pc.finished)
    (hroom : t.ingester.ring.size < kQueueCapacity) (hcount : t.producer.currentChunk.count ≤ 64)
    {p : Producer} (hp : ¬ p.pc.finished) (hshape : p.Shape)
    (hpending : t.producer.pending = t.producer.currentChunk.records ++ p.pending) :
    Invariant s l all { t.push with producer := p } where
  ring := Ring.valid_push h.ring hroom _
  fifo := by
    show t.history.consumed ++ (t.ingester.ring.push t.producer.currentChunk).contents =
      t.history.produced ++ [t.producer.currentChunk]
    rw [Ring.contents_push h.ring hroom, ← List.append_assoc, h.fifo]
  counts c hc := by
    rcases List.mem_append.mp hc with hc | hc
    · exact h.counts c hc
    · rw [List.mem_singleton.mp hc]
      exact hcount
  shape := hshape
  records := by
    show chunkRecords (t.history.produced ++ [t.producer.currentChunk]) ++ p.pending = all
    rw [chunkRecords_append, List.append_assoc, ← hpending, h.records]
  signalled hj := absurd hj (not_joining hp)
  complete hc := absurd hc (h.notComplete hopen)
  root := h.root
  inFlight := h.inFlight
  counted := h.counted
  published := h.published
  drained hd := absurd hd (h.notDrained hopen)
  result r hr := absurd hr (not_returned hp r)

lemma Invariant.currentCount_lt (h : Invariant s l all t) {docs : List (Option Document)}
    (hpc : t.producer.pc = .parsing docs) : t.producer.currentCount < 64 := by
  have hshape := h.shape
  rwa [Producer.Shape, hpc] at hshape

/-- What is pending once the next document has its lane. -/
lemma Invariant.pending_fill (h : Invariant s l all t) {doc : Document}
    {docs : List (Option Document)} (hpc : t.producer.pc = .parsing (some doc :: docs)) :
    t.producer.pending = delivered t.producer.throws
      (laneRecords (t.producer.currentChunk.fill t.producer.currentCount doc).status
        (t.producer.currentChunk.fill t.producer.currentCount doc).latency
        (t.producer.currentCount + 1) ++ docRecords docs) := by
  have hcons : docRecords (some doc :: docs) = [recordOf doc] ++ docRecords docs := rfl
  rw [laneRecords_fill _ (h.currentCount_lt hpc), List.append_assoc, ← hcons, Producer.pending, hpc]

lemma pending_end (hpc : t.producer.pc = .parsing []) :
    t.producer.pending = delivered t.producer.throws (laneRecords t.producer.currentChunk.status
      t.producer.currentChunk.latency t.producer.currentCount) := by
  have hnil : docRecords [] = [] := rfl
  simp only [Producer.pending, hpc, hnil, List.append_nil]

/-- Nothing is pending at an end of the stream that sends no last chunk. -/
lemma Invariant.pending_stop (h : Invariant s l all t) (hpc : t.producer.pc = .parsing [])
    (hstop : t.producer.throws = true ∨
      t.producer.throws = false ∧ t.producer.currentCount = 0) : t.producer.pending = [] := by
  rw [pending_end hpc]
  rcases hstop with hthrows | ⟨hends, hcount⟩
  · rw [hthrows]
    exact delivered_short (by rw [laneRecords_length]; exact h.currentCount_lt hpc)
  · rw [hends, hcount]
    rfl

lemma Invariant.join (h : Invariant s l all t) (hpc : t.producer.pc = .joining)
    (hexit : t.consumer.pc = .exited) :
    t.ingester.matchCount = all.countP (satisfies s l) := by
  have hempty := (Ring.size_pos_iff h.ring).mpr (h.drained (Or.inr hexit)).1
  have hall : t.history.consumed = t.history.produced := by
    have hf := h.fifo
    rwa [hempty, List.append_nil] at hf
  have hrecords : chunkRecords t.history.produced = all := by
    have hr := h.records
    rwa [Producer.pending, hpc, List.append_nil] at hr
  have hcounted := h.counted
  rw [Consumer.inFlight, hexit] at hcounted
  rw [h.published, if_pos hexit, ← hrecords, ← hall, ← hcounted]
  rfl

/-- Every step of the parsing thread keeps the invariant. -/
theorem Invariant.producerStep (h : Invariant s l all t) (hstep : ProducerStep t t') :
    Invariant s l all t' := by
  have hshape := h.shape
  have hrecords := h.records
  cases hstep with
  | skip hpc =>
    refine h.parse (by rw [hpc]; exact id) id (h.currentCount_lt hpc) ?_
    rw [Producer.pending, Producer.pending, hpc]
    rfl
  | fill hpc hopen =>
    refine h.parse (by rw [hpc]; exact id) id ?_ (h.pending_fill hpc).symm
    have hlt := h.currentCount_lt hpc
    have hne : t.producer.currentCount + 1 ≠ 64 := hopen
    show t.producer.currentCount + 1 < 64
    omega
  | complete hpc hfull =>
    have h64 : t.producer.currentCount + 1 = 64 := hfull
    refine h.parse (by rw [hpc]; exact id) id rfl ?_
    rw [h.pending_fill hpc, h64, delivered_append _ (laneRecords_length _ _ _)]
    rfl
  | stop hpc hstop =>
    exact h.parse (by rw [hpc]; exact id) id trivial (h.pending_stop hpc hstop).symm
  | pad hpc hends =>
    have hlt := h.currentCount_lt hpc
    refine h.parse (by rw [hpc]; exact id) id hlt.le ?_
    rw [pending_end hpc, hends]
    exact pad_records _ hlt
  | push hpc hroom =>
    rw [Producer.Shape, hpc] at hshape
    refine h.push (by rw [hpc]; exact id) hroom (le_of_eq hshape) id (Nat.zero_lt_succ 63) ?_
    rw [Producer.pending, hpc]
    rfl
  | pushLast hpc hroom =>
    rw [Producer.Shape, hpc] at hshape
    refine h.push (by rw [hpc]; exact id) hroom hshape id trivial ?_
    rw [Producer.pending, hpc]
    exact (List.append_nil _).symm
  | signal hpc =>
    rw [Producer.pending, hpc] at hrecords
    exact ⟨h.ring, h.fifo, h.counts, trivial, hrecords, fun _ => rfl, fun _ => trivial, h.root,
      h.inFlight, h.counted, h.published,
      fun hd => absurd hd (h.notDrained (by rw [hpc]; exact id)), fun r hr => absurd hr (by simp)⟩
  | join hpc hexit =>
    rw [Producer.pending, hpc] at hrecords
    refine ⟨h.ring, h.fifo, h.counts, trivial, hrecords, fun hj => absurd hj (by simp),
      fun _ => trivial, h.root, h.inFlight, h.counted, h.published,
      fun hd => ⟨(h.drained hd).1, trivial⟩, fun r hr => ?_⟩
    rw [← ProducerPc.returned.inj hr]
    exact h.join hpc hexit

section evaluation

/-- The stale rows past the count of a partial chunk are not among the unpacked ones. -/
lemma unpack_row (batch : Vector LogRecord 64) {c : LogChunk} (hc : c.count ≤ 64) {r : ℕ}
    (hr : r < c.count) :
    (unpack batch c).getD r ⟨0, 0⟩ = ⟨c.status.getD r 0, c.latency.getD r 0⟩ := by
  have hloop := foldl_range_induction (n := c.count) (s := batch)
    (f := fun b r => b.setIfInBounds r ⟨c.status.getD r 0, c.latency.getD r 0⟩)
    (P := fun k b => ∀ r < k, b.getD r ⟨0, 0⟩ = ⟨c.status.getD r 0, c.latency.getD r 0⟩)
    (fun r hr => absurd hr (Nat.not_lt_zero r)) (by
      intro k b hk hb r hr
      rw [getD_setIfInBounds b (by omega)]
      by_cases he : r = k
      · rw [if_pos he, he]
      · rw [if_neg he]
        exact hb r (by omega))
  exact hloop r hr

lemma eval_queryRoot (s l : Word) (row : String → Word) :
    (queryRoot s l).eval logFields row = satisfies s l ⟨row "status", row "latency"⟩ := by
  have hs : logFields.find? (·.name = "status") = some ⟨"status", 0, 64⟩ := rfl
  have hl : logFields.find? (·.name = "latency") = some ⟨"latency", 8, 64⟩ := rfl
  simp only [queryRoot, Expr.eval, hs, hl, Option.any_some, lowBits_full, satisfies]
  congr 1
  rw [Bool.eq_iff_iff, beq_iff_eq, beq_iff_eq, BitVec.toNat_inj]

/-- The compiled expression counts the matching records of the chunk and nothing else. -/
theorem execute_chunk (engine : ApexEngine) (s l : Word) (batch : Vector LogRecord 64)
    {c : LogChunk} (hc : c.count ≤ 64) :
    engine.execute logFields (queryRoot s l) (batchWord (unpack batch c)) c.count =
      c.records.countP (satisfies s l) := by
  rw [engine.execute_count, batchRows, List.countP_map, LogChunk.records, laneRecords,
    List.countP_map]
  refine List.countP_congr fun r hr => ?_
  have hrow := unpack_row batch hc (List.mem_range.mp hr)
  have hs : logFields.find? (·.name = "status") = some ⟨"status", 0, 64⟩ := rfl
  have hl : logFields.find? (·.name = "latency") = some ⟨"latency", 8, 64⟩ := rfl
  simp only [Function.comp_apply, eval_queryRoot, hs, hl, Option.map_some, Option.getD_some,
    batchWord, hrow]
  rfl

end evaluation

lemma chunkRecords_singleton (c : LogChunk) : chunkRecords [c] = c.records := List.append_nil _

/-- Work of the evaluating thread outside the queue, with the count that it publishes. -/
lemma Invariant.work (h : Invariant s l all t) {c : Consumer} (m : ℕ)
    (hroot : c.root = queryRoot s l) (hflight : ∀ x ∈ c.inFlight, x ∈ t.history.consumed)
    (hcounted : c.processedMatches + (chunkRecords c.inFlight).countP (satisfies s l) =
      (chunkRecords t.history.consumed).countP (satisfies s l))
    (hpublished : m = if c.pc = .exited then c.processedMatches else 0)
    (hdrained : c.pc = .publishing ∨ c.pc = .exited →
      t.ingester.ring.size = 0 ∧ t.producer.pc.finished) :
    Invariant s l all
      { t with ingester := { t.ingester with matchCount := m }, consumer := c } where
  ring := h.ring
  fifo := h.fifo
  counts := h.counts
  shape := h.shape
  records := h.records
  signalled := h.signalled
  complete := h.complete
  root := hroot
  inFlight := hflight
  counted := hcounted
  published := hpublished
  drained := hdrained
  result := h.result

/-- The critical section of a pop. -/
lemma Invariant.pop (h : Invariant s l all t) {chunk : LogChunk} (hpc : t.consumer.pc = .waiting)
    (hsome : 0 < t.ingester.ring.size) (hfront : t.ingester.ring.front = some chunk) :
    Invariant s l all { t with
      ingester := { t.ingester with ring := t.ingester.ring.pop }
      consumer := { t.consumer with pc := .evaluating chunk }
      history := { t.history with consumed := t.history.consumed ++ [chunk] } } := by
  have hcounted := h.counted
  have hpublished := h.published
  rw [Consumer.inFlight, hpc] at hcounted
  rw [hpc, if_neg (by simp)] at hpublished
  obtain ⟨first, hfirst, hcontents⟩ := Ring.contents_pop h.ring hsome
  obtain rfl := Option.some.inj (hfront.symm.trans hfirst)
  refine ⟨Ring.valid_pop h.ring hsome, ?_, h.counts, h.shape, h.records, h.signalled,
    h.complete, h.root, fun c hc => List.mem_append_right _ hc, ?_, hpublished,
    fun hd => absurd hd (by simp), h.result⟩
  · show (t.history.consumed ++ [chunk]) ++ t.ingester.ring.pop.contents = t.history.produced
    rw [← h.fifo, hcontents, List.append_assoc, List.singleton_append]
  · show t.consumer.processedMatches + (chunkRecords [chunk]).countP (satisfies s l) =
      (chunkRecords (t.history.consumed ++ [chunk])).countP (satisfies s l)
    rw [chunkRecords_append, List.countP_append, ← hcounted, chunkRecords_singleton]
    rfl

/-- Evaluating the chunk in hand counts its records. -/
lemma Invariant.counted_evaluate (h : Invariant s l all t) (engine : ApexEngine) {chunk : LogChunk}
    (hpc : t.consumer.pc = .evaluating chunk) :
    t.consumer.processedMatches + engine.execute logFields t.consumer.root
        (batchWord (unpack t.consumer.batch chunk)) chunk.count =
      (chunkRecords t.history.consumed).countP (satisfies s l) := by
  have hcounted := h.counted
  have hflight := h.inFlight
  rw [Consumer.inFlight, hpc] at hcounted hflight
  have hmem : chunk ∈ t.history.produced := by
    rw [← h.fifo]
    exact List.mem_append_left _ (hflight chunk (List.mem_singleton.mpr rfl))
  rw [h.root, execute_chunk engine s l _ (h.counts chunk hmem), ← hcounted, chunkRecords_singleton]

/-- Every step of the worker keeps the invariant. -/
theorem Invariant.consumerStep (h : Invariant s l all t) (hstep : ConsumerStep engine t t') :
    Invariant s l all t' := by
  have hcounted := h.counted
  have hpublished := h.published
  cases hstep with
  | drain hpc hempty hdone =>
    rw [Consumer.inFlight, hpc] at hcounted
    rw [hpc, if_neg (by simp)] at hpublished
    exact h.work t.ingester.matchCount h.root (fun c hc => absurd hc List.not_mem_nil) hcounted
      hpublished fun _ => ⟨hempty, h.complete hdone⟩
  | pop hpc hsome hfront => exact h.pop hpc hsome hfront
  | evaluate hpc =>
    rw [hpc, if_neg (by simp)] at hpublished
    exact h.work t.ingester.matchCount h.root (fun c hc => absurd hc List.not_mem_nil)
      (h.counted_evaluate engine hpc) hpublished fun hd => absurd hd (by simp)
  | publish hpc =>
    rw [Consumer.inFlight, hpc] at hcounted
    rw [hpc, if_neg (by simp)] at hpublished
    refine h.work _ h.root (fun c hc => absurd hc List.not_mem_nil) hcounted ?_
      fun _ => h.drained (Or.inl hpc)
    rw [hpublished, Nat.zero_add, if_pos rfl]

/-- The entries that the document stream yields before it ends or throws, and whether it
throws; no entries if it cannot be started. -/
def stream (parser : Parser) (env : IngestEnv) (prev : Ingester) :
    List (Option Document) × Bool :=
  if prev.filepath = "" then ([], false)
  else
    match (env.readFile prev.filepath).bind parser.iterateMany with
    | none => ([], false)
    | some docs => streamed env docs

def parsedRecords (parser : Parser) (env : IngestEnv) (prev : Ingester) : List LogRecord :=
  docRecords (stream parser env prev).1

def sentRecords (parser : Parser) (env : IngestEnv) (prev : Ingester) : List LogRecord :=
  delivered (stream parser env prev).2 (parsedRecords parser env prev)

lemma invariant_giveUp (env : IngestEnv) (ing : Ingester) (s l : Word) :
    Invariant s l [] (.giveUp env (ing.reset s l)) where
  ring := Ring.valid_empty _ (by norm_num [kQueueCapacity])
  fifo := rfl
  counts c hc := absurd hc List.not_mem_nil
  shape := trivial
  records := rfl
  signalled hj := absurd hj (by simp [System.giveUp])
  complete _ := trivial
  root := rfl
  inFlight c hc := absurd hc List.not_mem_nil
  counted := rfl
  published := rfl
  drained _ := ⟨rfl, trivial⟩
  result r hr := by
    rw [← ProducerPc.returned.inj hr]
    rfl

lemma invariant_launch (env : IngestEnv) (ing : Ingester) (s l : Word) (size : ℕ)
    (docs : List (Option Document)) (throws : Bool) :
    Invariant s l (delivered throws (docRecords docs))
      ⟨{ ing.reset s l with fileSize := size }, ⟨.parsing docs, env.scratch, 0, throws⟩,
        Consumer.launch { ing.reset s l with fileSize := size }, ⟨[], []⟩⟩ where
  ring := Ring.valid_empty _ (by norm_num [kQueueCapacity])
  fifo := rfl
  counts c hc := absurd hc List.not_mem_nil
  shape := Nat.zero_lt_succ 63
  records := rfl
  signalled hj := absurd hj (by simp)
  complete hc := absurd hc Bool.false_ne_true
  root := rfl
  inFlight c hc := absurd hc List.not_mem_nil
  counted := rfl
  published := rfl
  drained hd := absurd hd (by simp [Consumer.launch])
  result r hr := absurd hr (by simp)

/-- The invariant holds when the query starts, whatever the ingester did before. -/
theorem invariant_start (parser : Parser) (env : IngestEnv) (prev : Ingester) (s l : Word) :
    Invariant s l (sentRecords parser env prev) (.start parser env prev s l) := by
  have hpath : (prev.reset s l).filepath = prev.filepath := rfl
  simp only [System.start, sentRecords, parsedRecords, stream, hpath]
  split_ifs with hempty
  · exact invariant_giveUp env prev s l
  · cases hview : env.readFile prev.filepath with
    | none => exact invariant_giveUp env prev s l
    | some view =>
      cases hdocs : parser.iterateMany view with
      | none =>
        simp only [Option.bind_some, hdocs]
        exact invariant_giveUp env { prev with fileSize := view.length } s l
      | some docs =>
        simp only [Option.bind_some, hdocs]
        exact invariant_launch env prev s l view.length _ _

/-- The invariant of a whole run, whatever the interleaving. -/
theorem Invariant.run (h : Invariant s l all t) (hrun : Run engine t t') :
    Invariant s l all t' := by
  induction hrun with
  | refl => exact h
  | tail _ hstep ih =>
    rcases hstep with hp | hc
    · exact ih.producerStep (producerStep_of_eq hp)
    · exact ih.consumerStep (consumerStep_of_eq hc)

end Eureka.Pipeline
