import Profiling.Config
import Profiling.Database.Pipeline
import Profiling.Machine
import Profiling.Queue

/-!
# Profiling.Database.Batching

The two levels of batching of `src/utils/database.c`, down to the array: the
producer fills `producer_batch_buffer` and hands it to the queue as a whole,
the writer thread takes batches of its own size out again.

A step is what a thread does between two accesses to the queue.
`producer_batch_count` belongs to the producer alone, so its reset is part of
the step of the `queue_push_batch` in front of it.  The configuration is not
restricted: the threshold falls back to the size of the array by itself.
-/

namespace Profiling

/-- `producer_batch_buffer`, an array of `MAX_PRODUCER_BATCH_SIZE` pointers,
and `producer_batch_count`. -/
structure ProducerBatch where
  buffer : Nat → DbEntry
  count : Nat

namespace ProducerBatch

/-- `producer_batch_buffer[producer_batch_count++] = entry` -/
def store (b : ProducerBatch) (entry : DbEntry) : ProducerBatch :=
  { buffer := Function.update b.buffer b.count entry, count := b.count + 1 }

/-- The slots that are in use. -/
def entries (b : ProducerBatch) : List DbEntry := slice b.buffer 0 b.count

@[simp] theorem length_entries (b : ProducerBatch) : b.entries.length = b.count :=
  length_slice _ _ _

/-- Storing an entry appends it. -/
theorem entries_store (b : ProducerBatch) (entry : DbEntry) :
    (b.store entry).entries = b.entries ++ [entry] := by
  have hkeep : slice (Function.update b.buffer b.count entry) 0 b.count =
      slice b.buffer 0 b.count :=
    slice_congr fun i hi => Function.update_of_ne (by omega) _ _
  simp [entries, store, slice_succ, hkeep]

end ProducerBatch

/-- The producer, the queue, and what the writer thread has popped. -/
structure Batching where
  queue : ConcurrentQueue DbEntry
  running : Bool
  batch : ProducerBatch
  /-- the producer is in the `db_writer_flush` of `db_writer_push_stack` -/
  flushing : Bool
  /-- the entries that `db_writer_push_stack` has taken -/
  accepted : List DbEntry
  popped : List DbEntry

/-- The steps of the producer, then that of the writer thread. -/
inductive BatchingAction where
  /-- `db_writer_push_stack`, given what `mempool_alloc` returns -/
  | push (chunk : Option Nat) (timestampNs : UInt64) (stackStr : CString)
  | flush
  /-- `context->running = false` -/
  | stopRunning
  | pop

namespace Batching

/-- `db_writer_push_stack`, up to its call of `db_writer_flush`. -/
def dbWriterPushStack (config : ProfilingConfig) (s : Batching) (chunk : Option Nat)
    (timestampNs : UInt64) (stackStr : CString) : Batching :=
  if s.running then
    match chunk with
    | none => s
    | some chunk =>
        let entry : DbEntry := { chunk, timestampNs, stackStr }
        let batch := s.batch.store entry
        { s with
          batch
          accepted := s.accepted ++ [entry]
          flushing := 0 < batch.count ∧ flushThreshold config ≤ batch.count }
  else s

/-- `db_writer_flush` -/
def dbWriterFlush (s : Batching) : Option Batching :=
  if 0 < s.batch.count then
    (queuePushBatch s.queue s.batch.entries).map fun pushed =>
      { s with queue := pushed.queue, batch := { s.batch with count := 0 }, flushing := false }
  else some { s with flushing := false }

/-- One step of one of the two threads. -/
def step (config : ProfilingConfig) (s : Batching) : BatchingAction → Option Batching
  | .push chunk timestampNs stackStr =>
      if s.flushing then none else some (s.dbWriterPushStack config chunk timestampNs stackStr)
  | .flush => if s.flushing then s.dbWriterFlush else none
  | .stopRunning => some { s with running := false }
  | .pop =>
      (queuePopBatch s.queue config.dbBatchSize.toNat).map fun popped =>
        { s with queue := popped.queue, popped := s.popped ++ popped.result }

end Batching

/-- The two threads on an open queue, from where `db_writer_init` and
`db_writer_start` leave the context. -/
def batchingMachine (config : ProfilingConfig) : Machine Batching BatchingAction where
  init s :=
    (∃ mem, queueInit true (some mem) queueCapacity = some s.queue) ∧ s.running = true ∧
      s.batch.count = 0 ∧ s.flushing = false ∧ s.accepted = [] ∧ s.popped = []
  step := Batching.step config

theorem flushThreshold_le (config : ProfilingConfig) :
    flushThreshold config ≤ maxProducerBatchSize := by
  unfold flushThreshold
  split
  · exact Int.le_refl _
  · omega

namespace Batching

/-! ## The invariant -/

/-- Every accepted entry is popped, queued or buffered, in the order of the
calls, and the buffer has room for one more unless it is about to be flushed. -/
structure Inv (config : ProfilingConfig) (s : Batching) : Prop where
  wf : s.queue.WF
  isOpen : s.queue.shutdown = false
  conserved : s.popped ++ s.queue.contents ++ s.batch.entries = s.accepted
  room : s.flushing = false → s.batch.count < flushThreshold config

variable {config : ProfilingConfig} {s t : Batching}

theorem inv_init (h : (batchingMachine config).init s) : s.Inv config := by
  obtain ⟨⟨mem, hqueue⟩, -, hcount, -, haccepted, hpopped⟩ := h
  obtain ⟨hwf, hcontents, -, hopen⟩ := ConcurrentQueue.wf_queueInit (by decide) hqueue
  refine ⟨hwf, hopen, ?_, fun _ => ?_⟩
  · simp [hpopped, hcontents, haccepted, ProducerBatch.entries, hcount]
  · rw [hcount]
    exact flushThreshold_pos config

theorem inv_push {chunk : Option Nat} {timestampNs : UInt64} {stackStr : CString}
    (hi : s.Inv config) (h : s.step config (.push chunk timestampNs stackStr) = some t) :
    t.Inv config := by
  simp only [step] at h
  split at h
  · contradiction
  · obtain rfl := Option.some.inj h
    unfold dbWriterPushStack
    split
    · cases chunk with
      | none => exact hi
      | some chunk =>
          refine ⟨hi.wf, hi.isOpen, ?_, fun hflushing => ?_⟩
          · change s.popped ++ s.queue.contents ++ (s.batch.store _).entries = s.accepted ++ _
            rw [ProducerBatch.entries_store, ← List.append_assoc, hi.conserved]
          · -- not flushing means that the test against the threshold failed
            have htest : ¬(0 < (s.batch.store ⟨chunk, timestampNs, stackStr⟩).count ∧
                flushThreshold config ≤ (s.batch.store ⟨chunk, timestampNs, stackStr⟩).count) :=
              of_decide_eq_false hflushing
            have hpos : 0 < (s.batch.store ⟨chunk, timestampNs, stackStr⟩).count :=
              Nat.succ_pos _
            exact Int.not_le.mp fun hle => htest ⟨hpos, hle⟩
    · exact hi

theorem inv_flush (hi : s.Inv config) (h : s.step config .flush = some t) : t.Inv config := by
  have hthreshold := flushThreshold_pos config
  simp only [step] at h
  split at h
  · unfold dbWriterFlush at h
    split at h
    · next hpos =>
      obtain ⟨pushed, hpush, rfl⟩ := Option.map_eq_some_iff.mp h
      rcases ConcurrentQueue.queuePushBatch_eq_some hi.wf hpush with
        ⟨hnil, -⟩ | ⟨hshut, -⟩ | ⟨-, -, -, hholds, -⟩
      · have hcount : s.batch.count = 0 := by rw [← ProducerBatch.length_entries, hnil]; rfl
        omega
      · simp [hi.isOpen] at hshut
      · refine ⟨hholds.wf, hholds.shutdown_eq.trans hi.isOpen, ?_, fun _ => hthreshold⟩
        change s.popped ++ pushed.queue.contents ++ [] = s.accepted
        rw [hholds.contents_eq, List.append_nil, ← List.append_assoc]
        exact hi.conserved
    · next hzero =>
      obtain rfl := Option.some.inj h
      exact ⟨hi.wf, hi.isOpen, hi.conserved, fun _ => by change (s.batch.count : Int) < _; omega⟩
  · contradiction

theorem inv_pop (hi : s.Inv config) (h : s.step config .pop = some t) : t.Inv config := by
  obtain ⟨popped, hpop, rfl⟩ := Option.map_eq_some_iff.mp h
  rcases ConcurrentQueue.queuePopBatch_eq_some hi.wf hpop with
    ⟨hshut, -⟩ | ⟨-, hholds, hresult, -⟩
  · simp [hi.isOpen] at hshut
  · refine ⟨hholds.wf, hholds.shutdown_eq.trans hi.isOpen, ?_, hi.room⟩
    change s.popped ++ popped.result ++ popped.queue.contents ++ s.batch.entries = s.accepted
    rw [hresult, hholds.contents_eq, List.append_assoc s.popped, List.take_append_drop]
    exact hi.conserved

theorem inv_step {a : BatchingAction} (hi : s.Inv config) (h : s.step config a = some t) :
    t.Inv config := by
  cases a with
  | push chunk timestampNs stackStr => exact inv_push hi h
  | flush => exact inv_flush hi h
  | stopRunning =>
      obtain rfl := Option.some.inj h
      exact ⟨hi.wf, hi.isOpen, hi.conserved, hi.room⟩
  | pop => exact inv_pop hi h

theorem inv_of_reachable (h : (batchingMachine config).Reachable s) : s.Inv config :=
  (batchingMachine config).invariant (fun _ => inv_init) (fun _ _ _ hi hstep => inv_step hi hstep) h

end Batching

/-- **Two levels of batches keep every entry and the order.**  What the writer
has popped, then what is queued, then the used slots of the producer's buffer
are the accepted entries in the order of the calls; and a call that stores an
entry finds its slot inside the array. -/
theorem batches_keep_order {config : ProfilingConfig} {s : Batching}
    (hs : (batchingMachine config).Reachable s) :
    s.popped ++ s.queue.contents ++ slice s.batch.buffer 0 s.batch.count = s.accepted ∧
      ∀ chunk timestampNs stackStr t,
        s.step config (.push (some chunk) timestampNs stackStr) = some t →
        s.batch.count < maxProducerBatchSize := by
  have hi := Batching.inv_of_reachable hs
  refine ⟨hi.conserved, fun chunk timestampNs stackStr t hstep => ?_⟩
  have hready : s.flushing = false := by
    simp only [Batching.step] at hstep
    split at hstep
    · contradiction
    · next hf => simpa using hf
  have hroom := hi.room hready
  have hle := flushThreshold_le config
  omega

/-- The context behind `db_writer_start`. -/
def startedBatching : Batching where
  queue := ⟨fun _ => ⟨0, 0, []⟩, queueCapacity, 0, 0, 0, false⟩
  running := true
  batch := ⟨fun _ => ⟨0, 0, []⟩, 0⟩
  flushing := false
  accepted := []
  popped := []

/-- Batches of two in, and of one out: three calls and one pop leave one entry
at each of the three places. -/
theorem batches_keep_order_three :
    ∃ s, (batchingMachine { noArguments with producerBatchSize := 2, dbBatchSize := 1 }).run
        startedBatching [.push (some 0) 1 [], .push (some 1) 2 [], .flush, .pop,
          .push (some 2) 3 []] = some s ∧
      s.popped ++ s.queue.contents ++ slice s.batch.buffer 0 s.batch.count =
        [⟨0, 1, []⟩, ⟨1, 2, []⟩, ⟨2, 3, []⟩] ∧ s.batch.count < maxProducerBatchSize := by
  refine ⟨_, rfl, ?_⟩
  have hreach := @batches_keep_order { noArguments with producerBatchSize := 2, dbBatchSize := 1 } _
    ⟨startedBatching, [.push (some 0) 1 [], .push (some 1) 2 [], .flush, .pop,
      .push (some 2) 3 []], ⟨⟨fun _ => ⟨0, 0, []⟩, rfl⟩, rfl, rfl, rfl, rfl, rfl⟩, rfl⟩
  exact ⟨hreach.1, hreach.2 3 4 [] _ rfl⟩

end Profiling
