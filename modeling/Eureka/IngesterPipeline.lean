import Mathlib
import Eureka.Apex
import Eureka.Simdjson
import Eureka.RingQueue

/-! `Ingester::run_query` and its worker: one thread parses the file into chunks of
sixty-four records and queues them, the other evaluates the query on each chunk. A step is
one critical section or the local work between two of them. -/
namespace Eureka.Pipeline
open WordBytes BitPlanes Apex Simdjson RingQueue

def kBlockSize : ℕ := 64
def kQueueCapacity : ℕ := 16

structure LogChunk where
  status : Lanes
  latency : Lanes
  count : ℕ
  deriving DecidableEq

structure LogRecord where
  status : Word
  latency : Word
  deriving DecidableEq, Repr

/-- `ring` holds `chunks_`, `head_`, `tail_` and `queue_size_`. -/
structure Ingester where
  filepath : String
  fileSize : ℕ
  ring : Ring LogChunk kQueueCapacity
  ingestComplete : Bool
  statusFilter : Word
  latencyFilter : Word
  matchCount : ℕ

/-- Where `run_query` stands. The two pushes and `joining` wait for a condition. -/
inductive ProducerPc
  | parsing (docs : List (Option Document))
  | pushing (docs : List (Option Document))
  | pushingLast
  | signalling
  | joining
  | returned (result : ℕ)

/-- `throws`: the document stream ends in an exception. -/
structure Producer where
  pc : ProducerPc
  currentChunk : LogChunk
  currentCount : ℕ
  throws : Bool

inductive ConsumerPc
  | waiting
  | evaluating (chunk : LogChunk)
  | publishing
  | exited
  deriving DecidableEq

structure Consumer where
  pc : ConsumerPc
  root : Expr
  batch : Vector LogRecord 64
  processedMatches : ℕ

/-- Chunks pushed and popped so far. No step reads it. -/
structure History where
  produced : List LogChunk
  consumed : List LogChunk

structure System where
  ingester : Ingester
  producer : Producer
  consumer : Consumer
  history : History

/-- What the call meets outside the class: the mapped files, the entry of the document
stream at which it throws, and the contents of the uninitialised chunk. -/
structure IngestEnv where
  readFile : String → Option Bytes
  throwsAfter : Option ℕ
  scratch : LogChunk

def logFields : List FieldDescriptor := [⟨"status", 0, 64⟩, ⟨"latency", 8, 64⟩]

def queryRoot (statusFilter latencyFilter : Word) : Expr :=
  .and (.eq "status" statusFilter) (.gt "latency" latencyFilter)

def Ingester.openFile (env : IngestEnv) (ing : Ingester) (path : String) : Bool × Ingester :=
  match env.readFile path with
  | none => (false, { ing with filepath := path })
  | some bytes => (true, { ing with filepath := path, fileSize := bytes.length })

def Ingester.new : Ingester where
  filepath := ""
  fileSize := 0
  ring := .empty (Vector.replicate 16 ⟨Vector.replicate 64 0, Vector.replicate 64 0, 0⟩)
  ingestComplete := false
  statusFilter := 0
  latencyFilter := 0
  matchCount := 0

/-- The assignments at the head of `run_query`. The queued chunks are not cleared. -/
def Ingester.reset (ing : Ingester) (statusTarget latencyTarget : Word) : Ingester :=
  { ing with
    statusFilter := statusTarget
    latencyFilter := latencyTarget
    ingestComplete := false
    matchCount := 0
    ring := .empty ing.ring.slots }

def Consumer.launch (ing : Ingester) : Consumer :=
  ⟨.waiting, queryRoot ing.statusFilter ing.latencyFilter, Vector.replicate 64 ⟨0, 0⟩, 0⟩

/-- `return 0` before the worker is launched. -/
def System.giveUp (env : IngestEnv) (ing : Ingester) : System :=
  ⟨ing, ⟨.returned 0, env.scratch, 0, false⟩, { Consumer.launch ing with pc := .exited }, ⟨[], []⟩⟩

/-- The entries that the stream yields and whether it throws after them. -/
def streamed (env : IngestEnv) (docs : List (Option Document)) : List (Option Document) × Bool :=
  match env.throwsAfter with
  | none => (docs, false)
  | some k => (docs.take k, true)

/-- `run_query` up to the launch of the worker. -/
def System.start (parser : Parser) (env : IngestEnv) (prev : Ingester)
    (statusTarget latencyTarget : Word) : System :=
  let ing := prev.reset statusTarget latencyTarget
  if ing.filepath = "" then .giveUp env ing
  else
    match env.readFile ing.filepath with
    | none => .giveUp env ing
    | some view =>
      let ing := { ing with fileSize := view.length }
      match parser.iterateMany view with
      | none => .giveUp env ing
      | some docs =>
        ⟨ing, ⟨.parsing (streamed env docs).1, env.scratch, 0, (streamed env docs).2⟩,
          Consumer.launch ing, ⟨[], []⟩⟩

def LogChunk.fill (c : LogChunk) (i : ℕ) (doc : Document) : LogChunk :=
  { c with
    status := c.status.setIfInBounds i doc.status
    latency := c.latency.setIfInBounds i doc.latency }

/-- The final partial chunk: the lanes past the count are zeroed. -/
def LogChunk.pad (c : LogChunk) (count : ℕ) : LogChunk :=
  ⟨zeroFrom c.status count, zeroFrom c.latency count, count⟩

/-- The critical section of a push, once there is room. -/
def System.push (t : System) : System :=
  { t with
    ingester := { t.ingester with ring := t.ingester.ring.push t.producer.currentChunk }
    history := { t.history with produced := t.history.produced ++ [t.producer.currentChunk] } }

def stepProducer (t : System) : Option System :=
  match t.producer.pc with
  | .parsing [] =>
    if t.producer.throws then some { t with producer := { t.producer with pc := .signalling } }
    else if 0 < t.producer.currentCount then
      some { t with producer := { t.producer with
        pc := .pushingLast
        currentChunk := t.producer.currentChunk.pad t.producer.currentCount } }
    else some { t with producer := { t.producer with pc := .signalling } }
  | .parsing (none :: docs) => some { t with producer := { t.producer with pc := .parsing docs } }
  | .parsing (some doc :: docs) =>
    let chunk := t.producer.currentChunk.fill t.producer.currentCount doc
    if t.producer.currentCount + 1 = kBlockSize then
      some { t with producer := { t.producer with
        pc := .pushing docs
        currentChunk := { chunk with count := kBlockSize }
        currentCount := t.producer.currentCount + 1 } }
    else
      some { t with producer := { t.producer with
        pc := .parsing docs
        currentChunk := chunk
        currentCount := t.producer.currentCount + 1 } }
  | .pushing docs =>
    if t.ingester.ring.size < kQueueCapacity then
      some { t.push with producer := { t.producer with pc := .parsing docs, currentCount := 0 } }
    else none
  | .pushingLast =>
    if t.ingester.ring.size < kQueueCapacity then
      some { t.push with producer := { t.producer with pc := .signalling } }
    else none
  | .signalling =>
    some { t with
      ingester := { t.ingester with ingestComplete := true }
      producer := { t.producer with pc := .joining } }
  | .joining =>
    if t.consumer.pc = .exited then
      some { t with producer := { t.producer with pc := .returned t.ingester.matchCount } }
    else none
  | .returned _ => none

/-- The unpacking loop over the rows of a chunk. -/
def unpack (batch : Vector LogRecord 64) (chunk : LogChunk) : Vector LogRecord 64 :=
  (List.range chunk.count).foldl
    (fun b r => b.setIfInBounds r ⟨chunk.status.getD r 0, chunk.latency.getD r 0⟩) batch

/-- The word at a byte offset of a record of the batch. -/
def batchWord (batch : Vector LogRecord 64) (r offset : ℕ) : Word :=
  let record := batch.getD r ⟨0, 0⟩
  if offset = 0 then record.status else if offset = 8 then record.latency else 0

def stepConsumer (engine : ApexEngine) (t : System) : Option System :=
  match t.consumer.pc with
  | .waiting =>
    if 0 < t.ingester.ring.size ∨ t.ingester.ingestComplete then
      if t.ingester.ring.size = 0 ∧ t.ingester.ingestComplete then
        some { t with consumer := { t.consumer with pc := .publishing } }
      else
        match t.ingester.ring.front with
        | none => none
        | some chunk =>
          some { t with
            ingester := { t.ingester with ring := t.ingester.ring.pop }
            consumer := { t.consumer with pc := .evaluating chunk }
            history := { t.history with consumed := t.history.consumed ++ [chunk] } }
    else none
  | .evaluating chunk =>
    let batch := unpack t.consumer.batch chunk
    let found := engine.execute logFields t.consumer.root (batchWord batch) chunk.count
    some { t with consumer := { t.consumer with
      pc := .waiting
      batch := batch
      processedMatches := t.consumer.processedMatches + found } }
  | .publishing =>
    some { t with
      ingester := { t.ingester with
        matchCount := t.ingester.matchCount + t.consumer.processedMatches }
      consumer := { t.consumer with pc := .exited } }
  | .exited => none

/-- Any interleaving: at each point either thread may take its next step. -/
def Step (engine : ApexEngine) (t t' : System) : Prop :=
  stepProducer t = some t' ∨ stepConsumer engine t = some t'

def Run (engine : ApexEngine) : System → System → Prop := Relation.ReflTransGen (Step engine)

/-- What a step of the parsing thread can be, with the condition under which it is taken. -/
inductive ProducerStep (t : System) : System → Prop
  | skip {docs : List (Option Document)} (hpc : t.producer.pc = .parsing (none :: docs)) :
      ProducerStep t { t with producer := { t.producer with pc := .parsing docs } }
  | fill {doc : Document} {docs : List (Option Document)}
      (hpc : t.producer.pc = .parsing (some doc :: docs))
      (hopen : t.producer.currentCount + 1 ≠ kBlockSize) :
      ProducerStep t { t with producer := { t.producer with
        pc := .parsing docs
        currentChunk := t.producer.currentChunk.fill t.producer.currentCount doc
        currentCount := t.producer.currentCount + 1 } }
  | complete {doc : Document} {docs : List (Option Document)}
      (hpc : t.producer.pc = .parsing (some doc :: docs))
      (hfull : t.producer.currentCount + 1 = kBlockSize) :
      ProducerStep t { t with producer := { t.producer with
        pc := .pushing docs
        currentChunk :=
          { t.producer.currentChunk.fill t.producer.currentCount doc with count := kBlockSize }
        currentCount := t.producer.currentCount + 1 } }
  | stop (hpc : t.producer.pc = .parsing [])
      (hstop : t.producer.throws = true ∨ t.producer.throws = false ∧ t.producer.currentCount = 0) :
      ProducerStep t { t with producer := { t.producer with pc := .signalling } }
  | pad (hpc : t.producer.pc = .parsing []) (hends : t.producer.throws = false) :
      ProducerStep t { t with producer := { t.producer with
        pc := .pushingLast
        currentChunk := t.producer.currentChunk.pad t.producer.currentCount } }
  | push {docs : List (Option Document)} (hpc : t.producer.pc = .pushing docs)
      (hroom : t.ingester.ring.size < kQueueCapacity) :
      ProducerStep t
        { t.push with producer := { t.producer with pc := .parsing docs, currentCount := 0 } }
  | pushLast (hpc : t.producer.pc = .pushingLast)
      (hroom : t.ingester.ring.size < kQueueCapacity) :
      ProducerStep t { t.push with producer := { t.producer with pc := .signalling } }
  | signal (hpc : t.producer.pc = .signalling) :
      ProducerStep t { t with
        ingester := { t.ingester with ingestComplete := true }
        producer := { t.producer with pc := .joining } }
  | join (hpc : t.producer.pc = .joining) (hexit : t.consumer.pc = .exited) :
      ProducerStep t
        { t with producer := { t.producer with pc := .returned t.ingester.matchCount } }

theorem producerStep_of_eq {t t' : System} (h : stepProducer t = some t') : ProducerStep t t' := by
  unfold stepProducer at h
  split at h
  case h_1 hpc =>
    split_ifs at h with hthrows hcount <;> obtain rfl := Option.some.inj h
    · exact .stop hpc (Or.inl hthrows)
    · exact .pad hpc (Bool.eq_false_iff.mpr hthrows)
    · exact .stop hpc (Or.inr ⟨Bool.eq_false_iff.mpr hthrows, by omega⟩)
  case h_2 hpc =>
    obtain rfl := Option.some.inj h
    exact .skip hpc
  case h_3 hpc =>
    split_ifs at h with hfull <;> obtain rfl := Option.some.inj h
    · exact .complete hpc hfull
    · exact .fill hpc hfull
  case h_4 hpc =>
    split_ifs at h with hroom
    obtain rfl := Option.some.inj h
    exact .push hpc hroom
  case h_5 hpc =>
    split_ifs at h with hroom
    obtain rfl := Option.some.inj h
    exact .pushLast hpc hroom
  case h_6 hpc =>
    obtain rfl := Option.some.inj h
    exact .signal hpc
  case h_7 hpc =>
    split_ifs at h with hexit
    obtain rfl := Option.some.inj h
    exact .join hpc hexit
  case h_8 hpc => exact absurd h (by simp)

/-- What a step of the worker can be. -/
inductive ConsumerStep (engine : ApexEngine) (t : System) : System → Prop
  | drain (hpc : t.consumer.pc = .waiting) (hempty : t.ingester.ring.size = 0)
      (hdone : t.ingester.ingestComplete = true) :
      ConsumerStep engine t { t with consumer := { t.consumer with pc := .publishing } }
  | pop {chunk : LogChunk} (hpc : t.consumer.pc = .waiting) (hsome : 0 < t.ingester.ring.size)
      (hfront : t.ingester.ring.front = some chunk) :
      ConsumerStep engine t { t with
        ingester := { t.ingester with ring := t.ingester.ring.pop }
        consumer := { t.consumer with pc := .evaluating chunk }
        history := { t.history with consumed := t.history.consumed ++ [chunk] } }
  | evaluate {chunk : LogChunk} (hpc : t.consumer.pc = .evaluating chunk) :
      ConsumerStep engine t { t with consumer := { t.consumer with
        pc := .waiting
        batch := unpack t.consumer.batch chunk
        processedMatches := t.consumer.processedMatches +
          engine.execute logFields t.consumer.root (batchWord (unpack t.consumer.batch chunk))
            chunk.count } }
  | publish (hpc : t.consumer.pc = .publishing) :
      ConsumerStep engine t { t with
        ingester := { t.ingester with
          matchCount := t.ingester.matchCount + t.consumer.processedMatches }
        consumer := { t.consumer with pc := .exited } }

lemma size_pos_of_wake {t : System}
    (hwake : 0 < t.ingester.ring.size ∨ t.ingester.ingestComplete = true)
    (hdone : ¬ (t.ingester.ring.size = 0 ∧ t.ingester.ingestComplete = true)) :
    0 < t.ingester.ring.size := by
  rcases hwake with hsome | hcomplete
  · exact hsome
  · exact Nat.pos_of_ne_zero fun hempty => hdone ⟨hempty, hcomplete⟩

theorem consumerStep_of_eq {engine : ApexEngine} {t t' : System}
    (h : stepConsumer engine t = some t') : ConsumerStep engine t t' := by
  unfold stepConsumer at h
  split at h
  case h_1 hpc =>
    split_ifs at h with hwake hdone
    · obtain rfl := Option.some.inj h
      exact .drain hpc hdone.1 hdone.2
    · cases hfront : t.ingester.ring.front with
      | none =>
        rw [hfront] at h
        exact absurd h (by simp)
      | some chunk =>
        rw [hfront] at h
        obtain rfl := Option.some.inj h
        exact .pop hpc (size_pos_of_wake hwake hdone) hfront
  case h_2 hpc =>
    obtain rfl := Option.some.inj h
    exact .evaluate hpc
  case h_3 hpc =>
    obtain rfl := Option.some.inj h
    exact .publish hpc
  case h_4 hpc => exact absurd h (by simp)

end Eureka.Pipeline
