import Profiling.Machine
import Profiling.Mempool
import Profiling.Queue
import Profiling.Sample

/-!
# Profiling.Dispatch

Samples on their way from the ring to the symbolizer: `dispatch_sample_event`
of `src/core/main_loop.c` on the main thread, and `symbolizer_thread_func` of
`src/core/handler.c` on its own.

The two threads share the symbolizer queue, which holds pointers to chunks,
the pool that the chunks come from, and the chunks' memory.  Every operation
on the queue or the pool is one step, and so is each thread's local work
between two of them.  `callchain_result.ips` of the symbolizer points into the
chunk, so the addresses are read from the chunk when they are used.

* `PipelineState.places` — where each chunk is;
* `PipelineState.accepted` — the samples that were parsed and got a chunk.
-/

namespace Profiling

/-- `struct raw_sample`, the content of a chunk. -/
structure RawSample where
  timestampNs : UInt64
  pid : UInt32
  tid : UInt32
  ip : UInt64
  nr : Nat
  ips : Nat → UInt64

/-- A sample as a value. -/
structure Sample where
  timestampNs : UInt64
  pid : UInt32
  tid : UInt32
  ip : UInt64
  ips : List UInt64
  deriving DecidableEq, Repr

/-- The sample a raw sample holds. -/
def RawSample.sample (r : RawSample) : Sample :=
  ⟨r.timestampNs, r.pid, r.tid, r.ip, slice r.ips 0 r.nr⟩

/-- The sample `parse_sample_data` has left in a result. -/
def CallchainResult.sample (r : CallchainResult) : Sample :=
  ⟨r.timestampNs, r.pid, r.tid, r.ip, r.entries⟩

/-- `header->type` -/
def headerType (header : Mem) : Nat := load header 0 4

/-- Copying a parsed result into a chunk, as `dispatch_sample_event` does. -/
def fillSample (result : CallchainResult) (chunk : RawSample) : RawSample :=
  let nr := if result.nr < maxStackDepthCopy then result.nr else maxStackDepthCopy
  { timestampNs := result.timestampNs
    pid := result.pid
    tid := result.tid
    ip := result.ip
    nr := nr
    ips := fun i => if i < nr then result.ips i else chunk.ips i }

/-- Filling a chunk with what `parse_sample_data` returns loses nothing. -/
theorem sample_fillSample {result : CallchainResult} (h : result.nr ≤ maxStackDepthCopy)
    (chunk : RawSample) : (fillSample result chunk).sample = result.sample := by
  have hnr : (if result.nr < maxStackDepthCopy then result.nr else maxStackDepthCopy) =
      result.nr := by
    split <;> omega
  simp only [fillSample, hnr, RawSample.sample, CallchainResult.sample, CallchainResult.entries]
  congr 1
  exact slice_congr fun i hi => by simp [hi]

/-- The local `struct callchain_result` of the symbolizer thread: the scalars
are copied, `ips` is a pointer to the array in `chunk`. -/
structure SymbolizerView where
  timestampNs : UInt64
  pid : UInt32
  tid : UInt32
  ip : UInt64
  nr : Nat
  ips : Chunk

/-- What `symbolize_sample` reads through the view. -/
def SymbolizerView.sample (v : SymbolizerView) (heap : Chunk → RawSample) : Sample :=
  ⟨v.timestampNs, v.pid, v.tid, v.ip, slice (heap v.ips).ips 0 v.nr⟩

/-- The view that the thread builds of the chunk `c`. -/
def RawSample.view (r : RawSample) (c : Chunk) : SymbolizerView :=
  ⟨r.timestampNs, r.pid, r.tid, r.ip, r.nr, c⟩

/-- One call of `parse_sample_data` by `dispatch_sample_event`: the record,
the uninitialised locals it was given, and what it returned. -/
structure Parsed (useLbr : Bool) where
  header : Mem
  stack : CallchainResult
  result : CallchainResult
  isSample : headerType header = perfRecordSample
  result_eq : result = parseSampleData useLbr header stack maxStackDepthCopy

/-- Where the main thread is in `dispatch_sample_event`. -/
inductive Producer (useLbr : Bool) where
  | idle
  | parsed (p : Parsed useLbr)
  | holding (p : Parsed useLbr) (chunk : Chunk)
  | filled (p : Parsed useLbr) (chunk : Chunk)

/-- Where the symbolizer thread is in its loop. -/
inductive Symbolizer where
  | popping
  | holding (chunk : Chunk)
  | copied (view : SymbolizerView) (chunk : Chunk)
  | symbolized (chunk : Chunk)
  | exited

/-- The chunk the producer holds. -/
def Producer.held : Producer useLbr → List Chunk
  | .holding _ c | .filled _ c => [c]
  | _ => []

/-- The chunk the symbolizer holds. -/
def Symbolizer.held : Symbolizer → List Chunk
  | .holding c | .copied _ c | .symbolized c => [c]
  | _ => []

/-- The samples of the parsed records whose `mempool_alloc` succeeded. -/
def acceptedSamples (attempts : List (Parsed useLbr × Bool)) : List Sample :=
  (attempts.filter (·.2)).map fun a =>
    (parseSampleData useLbr a.1.header a.1.stack maxStackDepthCopy).sample

@[simp] theorem acceptedSamples_failed (attempts : List (Parsed useLbr × Bool))
    (p : Parsed useLbr) :
    acceptedSamples (attempts ++ [(p, false)]) = acceptedSamples attempts := by
  simp [acceptedSamples]

@[simp] theorem acceptedSamples_succeeded (attempts : List (Parsed useLbr × Bool))
    (p : Parsed useLbr) :
    acceptedSamples (attempts ++ [(p, true)]) = acceptedSamples attempts ++ [p.result.sample] := by
  simp [acceptedSamples, p.result_eq]

/-- The two threads and what they share.  `attempts` and `received` are
history: the parsed records with the outcome of their `mempool_alloc`, and the
samples `symbolize_sample` was called with. -/
structure PipelineState (useLbr : Bool) where
  pool : Mempool
  queue : ConcurrentQueue Chunk
  heap : Chunk → RawSample
  /-- the identity of the next block `malloc` returns -/
  fresh : Chunk
  freed : List Chunk
  producer : Producer useLbr
  symbolizer : Symbolizer
  attempts : List (Parsed useLbr × Bool)
  received : List Sample

/-- The steps of the two threads. -/
inductive PipelineAction where
  /-- the producer is handed a record and parses it if it is a sample;
  `stack` is what its uninitialised locals hold -/
  | dispatch (header : Mem) (stack : CallchainResult)
  /-- `mempool_alloc`; `malloc` says whether a `malloc` would succeed -/
  | alloc (malloc : Bool)
  | fill
  | push
  | pop
  | copy
  | symbolize
  /-- `mempool_free` -/
  | release

namespace PipelineState

variable {useLbr : Bool}

/-- One step of either thread. -/
def step (s : PipelineState useLbr) : PipelineAction → Option (PipelineState useLbr)
  | .dispatch header stack =>
      match s.producer with
      | .idle =>
          if h : headerType header = perfRecordSample then
            some { s with producer := .parsed ⟨header, stack, _, h, rfl⟩ }
          else some s
      | _ => none
  | .alloc malloc =>
      match s.producer with
      | .parsed p =>
          let (pool, chunk) := mempoolAlloc s.pool (if malloc then some s.fresh else none)
          match chunk with
          | none =>
              some { s with pool, producer := .idle, attempts := s.attempts ++ [(p, false)] }
          | some c =>
              some { s with
                pool
                fresh := if s.pool.count = 0 then s.fresh + 1 else s.fresh
                producer := .holding p c
                attempts := s.attempts ++ [(p, true)] }
      | _ => none
  | .fill =>
      match s.producer with
      | .holding p c =>
          some { s with
            heap := Function.update s.heap c (fillSample p.result (s.heap c))
            producer := .filled p c }
      | _ => none
  | .push =>
      match s.producer with
      | .filled _ c =>
          (queuePush s.queue c).map fun o => { s with queue := o.queue, producer := .idle }
      | _ => none
  | .pop =>
      match s.symbolizer with
      | .popping =>
          (queuePop s.queue).map fun o =>
            { s with
              queue := o.queue
              symbolizer :=
                match o.result with
                | none => .exited
                | some c => .holding c }
      | _ => none
  | .copy =>
      match s.symbolizer with
      | .holding c =>
          some { s with symbolizer := .copied ((s.heap c).view c) c }
      | _ => none
  | .symbolize =>
      match s.symbolizer with
      | .copied v c =>
          some { s with symbolizer := .symbolized c, received := s.received ++ [v.sample s.heap] }
      | _ => none
  | .release =>
      match s.symbolizer with
      | .symbolized c =>
          let (pool, given) := mempoolFree s.pool c
          some { s with pool, symbolizer := .popping, freed := s.freed ++ given.toList }
      | _ => none

/-- Every place a chunk can be in, one after the other: the pool's stack, the
producer, the queue, the symbolizer, or given back to `free`. -/
def places (s : PipelineState useLbr) : List Chunk :=
  s.pool.freeStack ++ s.producer.held ++ s.queue.contents ++ s.symbolizer.held ++ s.freed

/-- The samples parsed so far, without those whose `mempool_alloc` failed. -/
def accepted (s : PipelineState useLbr) : List Sample := acceptedSamples s.attempts

end PipelineState

/-- The machine of the two threads, over a queue of this capacity and a pool
of any size. -/
def pipelineMachine (useLbr : Bool) (capacity : Nat) :
    Machine (PipelineState useLbr) PipelineAction where
  init s :=
    (∃ chunkSize, mempoolCreate true true some s.fresh chunkSize = .ok s.pool) ∧
    (∃ mem, queueInit true (some mem) capacity = some s.queue) ∧
    s.freed = [] ∧ s.producer = .idle ∧ s.symbolizer = .popping ∧ s.attempts = [] ∧ s.received = []
  step := PipelineState.step

/-! ## The invariant -/

/-- The sample the producer is about to push. -/
def Producer.pending (heap : Chunk → RawSample) : Producer useLbr → List Sample
  | .holding p _ => [p.result.sample]
  | .filled _ c => [(heap c).sample]
  | _ => []

/-- The sample the symbolizer has popped and not yet symbolized. -/
def Symbolizer.pending (heap : Chunk → RawSample) : Symbolizer → List Sample
  | .holding c | .copied _ c => [(heap c).sample]
  | _ => []

/-- Writing a chunk that the symbolizer does not hold leaves its sample alone. -/
theorem Symbolizer.pending_update {heap : Chunk → RawSample} {y : Symbolizer} {c : Chunk}
    (h : c ∉ y.held) (r : RawSample) : y.pending (Function.update heap c r) = y.pending heap := by
  cases y <;> simp_all [Symbolizer.held, Symbolizer.pending, Function.update_of_ne, Ne.symm]

namespace PipelineState

variable {useLbr : Bool}

/-- Each chunk is in one place, and the samples on their way are, in order,
the accepted ones that have not been received. -/
structure Inv (s : PipelineState useLbr) : Prop where
  wf : s.queue.WF
  isOpen : s.queue.shutdown = false
  place : ∀ c, s.places.count c = if c < s.fresh then 1 else 0
  flow : s.accepted = s.received ++ (s.symbolizer.pending s.heap ++
    (s.queue.contents.map (fun c => (s.heap c).sample) ++ s.producer.pending s.heap))
  view : ∀ v c, s.symbolizer = .copied v c → v = (s.heap c).view c

/-- The producer's chunk is nowhere else. -/
theorem Inv.not_mem_of_producer {s : PipelineState useLbr} (hi : s.Inv) {c : Chunk}
    (h : s.producer.held = [c]) : c ∉ s.queue.contents ∧ c ∉ s.symbolizer.held := by
  have := hi.place c
  simp only [places, h, List.count_append, List.count_singleton_self] at this
  rw [← List.count_eq_zero, ← List.count_eq_zero]
  split at this <;> omega

theorem inv_init {s : PipelineState useLbr} {capacity : Nat} (hcap : 0 < capacity)
    (h : (pipelineMachine useLbr capacity).init s) : s.Inv := by
  obtain ⟨⟨_, hpool⟩, ⟨_, hq⟩, hfreed, hprod, hsym, hatt, hrec⟩ := h
  obtain ⟨hwf, hnil, -, hopen⟩ := ConcurrentQueue.wf_queueInit hcap hq
  have hstack := Mempool.freeStack_mempoolCreate hpool
  constructor
  · exact hwf
  · exact hopen
  · simp [places, Producer.held, Symbolizer.held, hstack, hprod, hsym, hnil, hfreed,
      List.count_range]
  · simp [accepted, acceptedSamples, Producer.pending, Symbolizer.pending, hprod, hsym, hnil,
      hatt, hrec]
  · simp [hsym]

section Steps

variable {s t : PipelineState useLbr}

theorem inv_dispatch {header : Mem} {stack : CallchainResult} (hi : s.Inv)
    (h : s.step (.dispatch header stack) = some t) : t.Inv := by
  simp only [step] at h
  split at h
  · next hprod =>
    split at h
    · obtain rfl := Option.some.inj h
      constructor
      · exact hi.wf
      · exact hi.isOpen
      · simpa [places, Producer.held, hprod] using hi.place
      · simpa [accepted, Producer.pending, hprod] using hi.flow
      · exact hi.view
    · obtain rfl := Option.some.inj h
      exact hi
  · contradiction

/-- An allocation takes the top of the stack, or a new block, or nothing. -/
theorem inv_alloc {malloc : Bool} (hi : s.Inv) (h : s.step (.alloc malloc) = some t) : t.Inv := by
  simp only [step] at h
  split at h
  · next p hprod =>
    have hplace := hi.place
    have hflow := hi.flow
    simp only [places, Producer.held, hprod, List.append_nil] at hplace
    simp only [accepted, hprod, Producer.pending, List.append_nil] at hflow
    by_cases hc : s.pool.count = 0
    · have hpool : mempoolAlloc s.pool (if malloc then some s.fresh else none) =
          (s.pool, if malloc then some s.fresh else none) := by simp [mempoolAlloc, hc]
      rw [hpool] at h
      cases malloc with
      | false =>
          obtain rfl := Option.some.inj h
          constructor
          · exact hi.wf
          · exact hi.isOpen
          · simpa [places, Producer.held] using hplace
          · simpa [accepted, Producer.pending] using hflow
          · exact hi.view
      | true =>
          obtain rfl := Option.some.inj h
          constructor
          · exact hi.wf
          · exact hi.isOpen
          · intro c
            have := hplace c
            simp only [places, Producer.held, hc, if_true, List.count_append] at this ⊢
            grind [List.count_singleton]
          · simp [accepted, Producer.pending, hflow]
          · exact hi.view
    · obtain ⟨top, htop, hstack⟩ :=
        Mempool.freeStack_mempoolAlloc hc (if malloc then some s.fresh else none)
      rw [htop] at h
      obtain rfl := Option.some.inj h
      constructor
      · exact hi.wf
      · exact hi.isOpen
      · intro c
        have := hplace c
        rw [hstack] at this
        simp only [places, Producer.held, hc, if_false, List.count_append] at this ⊢
        omega
      · simp [accepted, Producer.pending, hflow]
      · exact hi.view
  · contradiction

/-- Only the producer has its chunk, so filling it disturbs no other sample. -/
theorem inv_fill (hi : s.Inv) (h : s.step .fill = some t) : t.Inv := by
  simp only [step] at h
  split at h
  · next p c hprod =>
    obtain rfl := Option.some.inj h
    obtain ⟨hqueue, hsym⟩ := hi.not_mem_of_producer (by rw [hprod, Producer.held])
    have hflow := hi.flow
    simp only [accepted, hprod, Producer.pending] at hflow
    have hfill : (fillSample p.result (s.heap c)).sample = p.result.sample := by
      rw [p.result_eq]
      exact sample_fillSample (parseSampleData_nr_le _ _ _ _) _
    have hcontents : s.queue.contents.map (fun d =>
        (Function.update s.heap c (fillSample p.result (s.heap c)) d).sample) =
          s.queue.contents.map fun d => (s.heap d).sample :=
      List.map_congr_left fun d hd => by
        have hne : d ≠ c := fun hdc => hqueue (hdc ▸ hd)
        rw [Function.update_of_ne hne]
    constructor
    · exact hi.wf
    · exact hi.isOpen
    · simpa [places, Producer.held, hprod] using hi.place
    · simp [accepted, Producer.pending, hflow, Symbolizer.pending_update hsym, hcontents, hfill]
    · intro v d hd
      dsimp only at hd
      have hne : d ≠ c := fun hdc => hsym (by simp [hd, Symbolizer.held, hdc])
      simpa [Function.update_of_ne hne] using hi.view v d hd
  · contradiction

/-- The pushed chunk moves from the producer to the end of the queue. -/
theorem inv_push (hi : s.Inv) (h : s.step .push = some t) : t.Inv := by
  simp only [step] at h
  split at h
  · next p c hprod =>
    obtain ⟨o, ho, rfl⟩ := Option.map_eq_some_iff.mp h
    have hflow := hi.flow
    have hplace := hi.place
    simp only [accepted, hprod, Producer.pending] at hflow
    simp only [places, hprod, Producer.held] at hplace
    rcases ConcurrentQueue.queuePush_eq_some hi.wf ho with ⟨hsd, -, -⟩ | ⟨-, -, hq, -⟩
    · simp [hi.isOpen] at hsd
    · constructor
      · exact hq.wf
      · rw [hq.shutdown_eq, hi.isOpen]
      · intro d
        have := hplace d
        simp only [places, Producer.held, hq.contents_eq, List.count_append, List.count_nil]
          at this ⊢
        omega
      · simp [accepted, Producer.pending, hflow, hq.contents_eq]
      · exact hi.view
  · contradiction

/-- The popped chunk moves from the front of the queue to the symbolizer. -/
theorem inv_pop (hi : s.Inv) (h : s.step .pop = some t) : t.Inv := by
  simp only [step] at h
  split at h
  · next hsym =>
    obtain ⟨o, ho, rfl⟩ := Option.map_eq_some_iff.mp h
    have hflow := hi.flow
    have hplace := hi.place
    simp only [accepted, hsym, Symbolizer.pending, List.nil_append] at hflow
    simp only [places, hsym, Symbolizer.held, List.append_nil] at hplace
    rcases ConcurrentQueue.queuePop_eq_some hi.wf ho with ⟨hsd, -⟩ | ⟨-, c, rest, hc, hq, hres, -⟩
    · simp [hi.isOpen] at hsd
    · rw [hres]
      constructor
      · exact hq.wf
      · rw [hq.shutdown_eq, hi.isOpen]
      · intro d
        have := hplace d
        rw [hc] at this
        simp only [places, Symbolizer.held, hq.contents_eq, List.count_append, List.count_cons,
          List.count_nil] at this ⊢
        omega
      · simp [accepted, Symbolizer.pending, hflow, hq.contents_eq, hc]
      · simp
  · contradiction

theorem inv_copy (hi : s.Inv) (h : s.step .copy = some t) : t.Inv := by
  simp only [step] at h
  split at h
  · next c hsym =>
    obtain rfl := Option.some.inj h
    constructor
    · exact hi.wf
    · exact hi.isOpen
    · simpa [places, Symbolizer.held, hsym] using hi.place
    · simpa [accepted, Symbolizer.pending, hsym] using hi.flow
    · simp
  · contradiction

/-- What is symbolized is what the chunk has held since it was filled. -/
theorem inv_symbolize (hi : s.Inv) (h : s.step .symbolize = some t) : t.Inv := by
  simp only [step] at h
  split at h
  · next v c hsym =>
    obtain rfl := Option.some.inj h
    have hview : v.sample s.heap = (s.heap c).sample := by
      rw [hi.view v c hsym]
      rfl
    have hflow := hi.flow
    simp only [accepted, hsym, Symbolizer.pending] at hflow
    constructor
    · exact hi.wf
    · exact hi.isOpen
    · simpa [places, Symbolizer.held, hsym] using hi.place
    · simp [accepted, Symbolizer.pending, hflow, hview]
    · simp
  · contradiction

/-- The chunk given back goes to the pool's stack or to `free`, not both. -/
theorem inv_release (hi : s.Inv) (h : s.step .release = some t) : t.Inv := by
  simp only [step] at h
  split at h
  · next c hsym =>
    obtain rfl := Option.some.inj h
    have hplace := hi.place
    simp only [places, hsym, Symbolizer.held] at hplace
    constructor
    · exact hi.wf
    · exact hi.isOpen
    · intro d
      have := hplace d
      have hgiven := congrArg (List.count d) (Mempool.freeStack_mempoolFree s.pool c)
      simp only [places, Symbolizer.held, List.count_append, List.count_nil] at this hgiven ⊢
      omega
    · simpa [accepted, Symbolizer.pending, hsym] using hi.flow
    · simp
  · contradiction

end Steps

theorem inv_step {s t : PipelineState useLbr} {a : PipelineAction} (hi : s.Inv)
    (h : s.step a = some t) : t.Inv := by
  cases a with
  | dispatch header stack => exact inv_dispatch hi h
  | alloc malloc => exact inv_alloc hi h
  | fill => exact inv_fill hi h
  | push => exact inv_push hi h
  | pop => exact inv_pop hi h
  | copy => exact inv_copy hi h
  | symbolize => exact inv_symbolize hi h
  | release => exact inv_release hi h

end PipelineState

/-- **Samples arrive in order and chunks have one owner.**  In every reachable
state the samples `symbolize_sample` was called with are a prefix of the
accepted ones, and each chunk that exists is in exactly one place. -/
theorem samples_arrive_in_order {useLbr : Bool} {capacity : Nat} (hcap : 0 < capacity)
    {s : PipelineState useLbr} (h : (pipelineMachine useLbr capacity).Reachable s) :
    s.received <+: s.accepted ∧ ∀ c, s.places.count c = if c < s.fresh then 1 else 0 := by
  have hi : s.Inv := (pipelineMachine useLbr capacity).invariant
    (fun _ => PipelineState.inv_init hcap) (fun _ _ _ => PipelineState.inv_step) h
  exact ⟨⟨_, hi.flow.symm⟩, hi.place⟩

/-- A sample that has been parsed, copied into the pool's only chunk, queued,
popped and symbolized. -/
theorem samples_arrive_in_order_one :
    ∃ s : PipelineState false, (pipelineMachine false 1024).Reachable s ∧ s.received.length = 1 ∧
      s.received <+: s.accepted ∧ ∀ c, s.places.count c = if c < s.fresh then 1 else 0 := by
  have hreach : (pipelineMachine false 1024).Reachable _ :=
    ⟨{  pool := ⟨Function.update (fun _ => 0) 0 0, 1, 0, 1⟩
        queue := ⟨fun _ => 0, 1024, 0, 0, 0, false⟩
        heap := fun _ => ⟨0, 0, 0, 0, 0, fun _ => 0⟩
        fresh := 1
        freed := []
        producer := .idle
        symbolizer := .popping
        attempts := []
        received := [] },
      [.dispatch (memOf [9, 0, 0, 0, 0, 0, 8, 0]) ⟨0, 0, 0, 0, 0, fun _ => 0⟩, .alloc true, .fill,
        .push, .pop, .copy, .symbolize, .release],
      ⟨⟨0, rfl⟩, ⟨fun _ => 0, rfl⟩, rfl, rfl, rfl, rfl, rfl⟩, rfl⟩
  exact ⟨_, hreach, rfl, samples_arrive_in_order (by decide) hreach⟩

end Profiling
