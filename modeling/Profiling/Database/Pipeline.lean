import Profiling.Config
import Profiling.Database.Writer
import Profiling.Machine
import Profiling.Queue

/-!
# Profiling.Database.Pipeline

An entry's way from `db_writer_push_stack` into the database: the producer's
batch buffer, the queue, and the writer thread.

One thread pushes stacks and finally stops the writer; the other is
`db_writer_thread_func`.  A step is what a thread does between two accesses to
what they share (`running` and the queue), and a step that would wait on a
condition variable is disabled.  All database calls succeed.

* `DbPipeline.Inv` — where every accepted entry is, and what each thread's
  position says about `running`, the queue and the buffer.
-/

namespace Profiling

/-- `QUEUE_CAPACITY` -/
def queueCapacity : Nat := 1024

/-- Where the producer thread is. -/
inductive ProducerPc where
  /-- outside, between two calls -/
  | ready
  /-- in the `db_writer_flush` of `db_writer_push_stack` -/
  | flushing
  /-- in the `db_writer_flush` of `db_writer_stop` -/
  | stopFlushing
  /-- before the `queue_signal_shutdown` of `db_writer_stop` -/
  | stopping
  | stopped
  deriving DecidableEq, Repr

/-- Where the writer thread is. -/
inductive WriterPc where
  /-- before the test of `running` in the loop's condition -/
  | testRunning
  /-- before the test of the queue's size there -/
  | testSize
  | popping
  /-- `queue_pop_batch` has returned 0 -/
  | emptied
  | processing (batch : List DbEntry)
  | exited
  deriving DecidableEq, Repr

/-- What the two threads share and where they are. -/
structure DbPipeline where
  queue : ConcurrentQueue DbEntry
  running : Bool
  /-- the first `producer_batch_count` slots of `producer_batch_buffer` -/
  buffer : List DbEntry
  producer : ProducerPc
  writer : DbWriter
  thread : WriterPc
  /-- the entries that `db_writer_push_stack` has taken -/
  accepted : List DbEntry

/-- The actions of the producer, then those of the writer. -/
inductive DbPipelineAction where
  /-- `db_writer_push_stack`, given what `mempool_alloc` returns -/
  | push (chunk : Option Nat) (timestampNs : UInt64) (stackStr : CString)
  | flush
  | stop
  | shutdown
  | testRunning
  | testSize
  | pop
  | testEmptied
  | process

/-- `flush_threshold` -/
def flushThreshold (config : ProfilingConfig) : Int :=
  if config.producerBatchSize ≤ 0 ∨ config.producerBatchSize > maxProducerBatchSize then
    maxProducerBatchSize
  else config.producerBatchSize

namespace DbPipeline

/-- `db_writer_push_stack`, up to its call of `db_writer_flush`. -/
def dbWriterPushStack (config : ProfilingConfig) (s : DbPipeline) (chunk : Option Nat)
    (timestampNs : UInt64) (stackStr : CString) : DbPipeline :=
  if s.running then
    match chunk with
    | none => s
    | some chunk =>
        let entry : DbEntry := { chunk, timestampNs, stackStr }
        let buffer := s.buffer ++ [entry]
        { s with
          buffer
          accepted := s.accepted ++ [entry]
          producer := if flushThreshold config ≤ buffer.length then .flushing else s.producer }
  else s

/-- `db_writer_flush`, which goes on at `next`. -/
def dbWriterFlush (s : DbPipeline) (next : ProducerPc) : Option DbPipeline :=
  if s.buffer = [] then some { s with producer := next }
  else
    (queuePushBatch s.queue s.buffer).map fun pushed =>
      { s with queue := pushed.queue, buffer := [], producer := next }

/-- The producer does not move the writer thread. -/
@[simp] theorem thread_dbWriterPushStack (config : ProfilingConfig) (s : DbPipeline)
    (chunk : Option Nat) (timestampNs : UInt64) (stackStr : CString) :
    (s.dbWriterPushStack config chunk timestampNs stackStr).thread = s.thread := by
  unfold dbWriterPushStack
  cases chunk <;> split <;> rfl

theorem thread_dbWriterFlush {s t : DbPipeline} {next : ProducerPc}
    (h : s.dbWriterFlush next = some t) : t.thread = s.thread := by
  unfold dbWriterFlush at h
  split at h
  · obtain rfl := Option.some.inj h
    rfl
  · obtain ⟨_, -, rfl⟩ := Option.map_eq_some_iff.mp h
    rfl

section

variable (localtime : Int → Tm) (config : ProfilingConfig)

/-- One step of one of the two threads. -/
def step (s : DbPipeline) : DbPipelineAction → Option DbPipeline
  | .push chunk timestampNs stackStr =>
      if s.producer = .ready then some (s.dbWriterPushStack config chunk timestampNs stackStr)
      else none
  | .flush =>
      match s.producer with
      | .flushing => s.dbWriterFlush .ready
      | .stopFlushing => s.dbWriterFlush .stopping
      | _ => none
  | .stop =>
      if s.producer = .ready then some { s with running := false, producer := .stopFlushing }
      else none
  | .shutdown =>
      if s.producer = .stopping then
        some { s with queue := (queueSignalShutdown s.queue).queue, producer := .stopped }
      else none
  | .testRunning =>
      if s.thread = .testRunning then
        some { s with thread := if s.running then .popping else .testSize }
      else none
  | .testSize =>
      if s.thread = .testSize then
        some { s with thread := if 0 < queueGetSize s.queue then .popping else .exited }
      else none
  | .pop =>
      if s.thread = .popping then
        (queuePopBatch s.queue config.dbBatchSize.toNat).map fun popped =>
          { s with
            queue := popped.queue
            thread := if popped.result = [] then .emptied else .processing popped.result }
      else none
  | .testEmptied =>
      if s.thread = .emptied then
        some { s with thread := if s.running then .testRunning else .exited }
      else none
  | .process =>
      match s.thread with
      | .processing batch =>
          some { s with
            writer := processBatch localtime .ok s.writer batch
            thread := .testRunning }
      | _ => none

end

end DbPipeline

/-- The two threads, from where `db_writer_init` and `db_writer_start` leave
the context. -/
def dbPipelineMachine (localtime : Int → Tm) (config : ProfilingConfig) :
    Machine DbPipeline DbPipelineAction where
  init s :=
    (∃ mem, queueInit true (some mem) queueCapacity = some s.queue) ∧ s.running = true ∧
      s.buffer = [] ∧ s.producer = .ready ∧ s.thread = .testRunning ∧ s.accepted = [] ∧
      ∃ files, s.writer = .init config.dbOutputDir files
  step := DbPipeline.step localtime config

/-- The context behind `db_writer_start`, in an empty directory. -/
def startedPipeline (config : ProfilingConfig) : DbPipeline where
  queue := ⟨fun _ => ⟨0, 0, []⟩, queueCapacity, 0, 0, 0, false⟩
  running := true
  buffer := []
  producer := .ready
  writer := .init config.dbOutputDir fun _ => []
  thread := .testRunning
  accepted := []

theorem init_startedPipeline (localtime : Int → Tm) (config : ProfilingConfig) :
    (dbPipelineMachine localtime config).init (startedPipeline config) :=
  ⟨⟨fun _ => ⟨0, 0, []⟩, rfl⟩, rfl, rfl, rfl, rfl, rfl, _, rfl⟩

/-! ## The invariant -/

theorem flushThreshold_pos (config : ProfilingConfig) : 0 < flushThreshold config := by
  unfold flushThreshold
  split
  · decide
  · omega

namespace DbPipeline

/-- The batch that the writer thread is at. -/
def batch (s : DbPipeline) : List DbEntry :=
  match s.thread with
  | .processing batch => batch
  | _ => []

/-- What the producer's position says. -/
def ProducerInv (config : ProfilingConfig) (s : DbPipeline) : Prop :=
  match s.producer with
  | .ready => s.running = true ∧ s.queue.shutdown = false ∧
      s.buffer.length < flushThreshold config
  | .flushing => s.running = true ∧ s.queue.shutdown = false ∧
      s.buffer.length ≤ flushThreshold config
  | .stopFlushing => s.running = false ∧ s.queue.shutdown = false ∧
      s.buffer.length ≤ flushThreshold config
  | .stopping => s.running = false ∧ s.queue.shutdown = false ∧ s.buffer = []
  | .stopped => s.running = false ∧ s.queue.shutdown = true ∧ s.buffer = []

/-- What the writer thread's position says. -/
def ThreadInv (s : DbPipeline) : Prop :=
  match s.thread with
  | .testSize => s.running = false
  | .emptied => s.queue.shutdown = true ∧ s.queue.contents = []
  | _ => True

/-- Every accepted entry is in one place, in the order of the pushes. -/
structure Inv (config : ProfilingConfig) (s : DbPipeline) : Prop where
  wf : s.queue.WF
  capacity : s.queue.capacity = queueCapacity
  quiet : s.writer.Quiet
  conserved : s.accepted = s.writer.inserted ++ s.batch ++ s.queue.contents ++ s.buffer
  producer : s.ProducerInv config
  thread : s.ThreadInv

variable {localtime : Int → Tm} {config : ProfilingConfig} {s t : DbPipeline}

variable (localtime) in
theorem inv_init (h : (dbPipelineMachine localtime config).init s) : s.Inv config := by
  obtain ⟨⟨mem, hqueue⟩, hrunning, hbuffer, hproducer, hthread, haccepted, files, hwriter⟩ := h
  obtain ⟨hwf, hcontents, hcap, hopen⟩ := ConcurrentQueue.wf_queueInit (by decide) hqueue
  have hpos := flushThreshold_pos config
  refine ⟨hwf, hcap, hwriter ▸ DbWriter.quiet_init _ _, ?_, ?_, ?_⟩
  · simp [haccepted, hwriter, DbWriter.init, batch, hthread, hcontents, hbuffer]
  · simp [ProducerInv, hproducer, hrunning, hopen, hbuffer, hpos]
  · simp [ThreadInv, hthread]

/-! ### The producer -/

/-- Pushing keeps everything but the buffer. -/
theorem inv_push {chunk : Option Nat} {timestampNs : UInt64} {stackStr : CString}
    (hi : s.Inv config)
    (h : s.step localtime config (.push chunk timestampNs stackStr) = some t) : t.Inv config := by
  simp only [step] at h
  split at h
  · next hready =>
    obtain rfl := Option.some.inj h
    have hproducer := hi.producer
    simp only [ProducerInv, hready] at hproducer
    obtain ⟨hrunning, hopen, hlt⟩ := hproducer
    unfold dbWriterPushStack
    cases chunk with
    | none => simpa [hrunning] using hi
    | some chunk =>
        rw [if_pos hrunning]
        refine ⟨hi.wf, hi.capacity, hi.quiet, ?_, ?_, hi.thread⟩
        · change s.accepted ++ _ =
            s.writer.inserted ++ s.batch ++ s.queue.contents ++ (s.buffer ++ _)
          rw [hi.conserved, List.append_assoc _ s.buffer]
        · simp only [ProducerInv, List.length_append, List.length_singleton]
          split <;> grind
  · contradiction

/-- While the queue is open, what the writer thread knows is that `running` has fallen. -/
theorem ThreadInv.of_open (h : s.ThreadInv) (hopen : s.queue.shutdown = false)
    (hthread : t.thread = s.thread) (hrunning : s.running = false → t.running = false) :
    t.ThreadInv := by
  unfold ThreadInv at h ⊢
  rw [hthread]
  split at h <;> grind

/-- A flush that does not wait moves the buffer behind the queue's contents. -/
theorem dbWriterFlush_eq_some (hwf : s.queue.WF) (hopen : s.queue.shutdown = false)
    {next : ProducerPc} (h : s.dbWriterFlush next = some t) :
    ∃ queue, t = { s with queue, buffer := [], producer := next } ∧
      ConcurrentQueue.Holds s.queue queue (s.queue.contents ++ s.buffer) := by
  unfold dbWriterFlush at h
  split at h
  · next hnil =>
    obtain rfl := Option.some.inj h
    exact ⟨s.queue, by rw [← hnil], by simpa [hnil] using ConcurrentQueue.Holds.refl hwf⟩
  · next hne =>
    obtain ⟨pushed, hpush, rfl⟩ := Option.map_eq_some_iff.mp h
    rcases ConcurrentQueue.queuePushBatch_eq_some hwf hpush with
      ⟨hnil, -⟩ | ⟨hshut, -⟩ | ⟨-, -, -, hholds, -⟩
    · contradiction
    · simp [hopen] at hshut
    · exact ⟨pushed.queue, rfl, hholds⟩

/-- The invariant after a flush, once the producer's new position is right. -/
theorem Inv.flushed (hi : s.Inv config) (hopen : s.queue.shutdown = false) {next : ProducerPc}
    (h : s.dbWriterFlush next = some t)
    (hnext : ∀ queue, queue.shutdown = false →
      ProducerInv config { s with queue, buffer := [], producer := next }) : t.Inv config := by
  obtain ⟨queue, rfl, hholds⟩ := dbWriterFlush_eq_some hi.wf hopen h
  refine ⟨hholds.wf, hholds.capacity_eq.trans hi.capacity, hi.quiet, ?_,
    hnext queue (hholds.shutdown_eq.trans hopen), hi.thread.of_open hopen rfl id⟩
  change s.accepted = s.writer.inserted ++ s.batch ++ queue.contents ++ []
  rw [hholds.contents_eq, List.append_nil, ← List.append_assoc]
  exact hi.conserved

theorem inv_flush (hi : s.Inv config) (h : s.step localtime config .flush = some t) :
    t.Inv config := by
  have hproducer := hi.producer
  have hpos := flushThreshold_pos config
  simp only [step] at h
  split at h
  · next hpc =>
    simp only [ProducerInv, hpc] at hproducer
    obtain ⟨hrunning, hopen, -⟩ := hproducer
    exact hi.flushed hopen h fun queue hq => ⟨hrunning, hq, hpos⟩
  · next hpc =>
    simp only [ProducerInv, hpc] at hproducer
    obtain ⟨hrunning, hopen, -⟩ := hproducer
    exact hi.flushed hopen h fun queue hq => ⟨hrunning, hq, rfl⟩
  · contradiction

theorem inv_stop (hi : s.Inv config) (h : s.step localtime config .stop = some t) :
    t.Inv config := by
  simp only [step] at h
  split at h
  · next hready =>
    obtain rfl := Option.some.inj h
    have hproducer := hi.producer
    simp only [ProducerInv, hready] at hproducer
    obtain ⟨-, hopen, hlt⟩ := hproducer
    exact ⟨hi.wf, hi.capacity, hi.quiet, hi.conserved, ⟨rfl, hopen, Int.le_of_lt hlt⟩,
      hi.thread.of_open hopen rfl fun _ => rfl⟩
  · contradiction

theorem inv_shutdown (hi : s.Inv config) (h : s.step localtime config .shutdown = some t) :
    t.Inv config := by
  simp only [step] at h
  split at h
  · next hstopping =>
    obtain rfl := Option.some.inj h
    have hproducer := hi.producer
    simp only [ProducerInv, hstopping] at hproducer
    obtain ⟨hrunning, hopen, hnil⟩ := hproducer
    exact ⟨hi.wf.shutdown, hi.capacity, hi.quiet, hi.conserved, ⟨hrunning, rfl, hnil⟩,
      hi.thread.of_open hopen rfl id⟩
  · contradiction

/-! ### The writer thread -/

/-- The writer thread moves on without touching anything. -/
theorem Inv.moved (hi : s.Inv config) {thread : WriterPc}
    (hbatch : batch { s with thread } = s.batch) (hthread : ThreadInv { s with thread }) :
    Inv config { s with thread } :=
  ⟨hi.wf, hi.capacity, hi.quiet, hbatch ▸ hi.conserved, hi.producer, hthread⟩

theorem inv_testRunning (hi : s.Inv config)
    (h : s.step localtime config .testRunning = some t) : t.Inv config := by
  simp only [step] at h
  split at h
  · next hthread =>
    obtain rfl := Option.some.inj h
    split
    · exact hi.moved (by simp [batch, hthread]) trivial
    · next hrunning => exact hi.moved (by simp [batch, hthread]) (eq_false_of_ne_true hrunning)
  · contradiction

theorem inv_testSize (hi : s.Inv config) (h : s.step localtime config .testSize = some t) :
    t.Inv config := by
  simp only [step] at h
  split at h
  · next hthread =>
    obtain rfl := Option.some.inj h
    split <;> exact hi.moved (by simp [batch, hthread]) trivial
  · contradiction

/-- A pop that does not wait takes a batch off the front, or finds the queue
empty and shut down. -/
theorem pop_cases (hi : s.Inv config) (hsize : 0 < config.dbBatchSize)
    (h : s.step localtime config .pop = some t) :
    s.thread = .popping ∧
      ((t = { s with thread := .emptied } ∧ s.queue.shutdown = true ∧ s.queue.contents = []) ∨
        ∃ queue, t = { s with
            queue, thread := .processing (s.queue.contents.take config.dbBatchSize.toNat) } ∧
          ConcurrentQueue.Holds s.queue queue
            (s.queue.contents.drop config.dbBatchSize.toNat)) := by
  simp only [step] at h
  split at h
  · next hthread =>
    obtain ⟨popped, hpop, rfl⟩ := Option.map_eq_some_iff.mp h
    refine ⟨hthread, ?_⟩
    rcases ConcurrentQueue.queuePopBatch_eq_some hi.wf hpop with
      ⟨hshut, hzero, hqueue, hresult, -⟩ | ⟨hpos, hholds, hresult, -⟩
    · refine .inl ⟨by simp [hqueue, hresult], hshut, ?_⟩
      rwa [ConcurrentQueue.contents_eq_nil_iff hi.wf]
    · refine .inr ⟨popped.queue, ?_, hholds⟩
      have hne : s.queue.contents.take config.dbBatchSize.toNat ≠ [] := by
        have hcontents : s.queue.contents ≠ [] := fun hnil => by
          rw [ConcurrentQueue.contents_eq_nil_iff hi.wf] at hnil
          omega
        simp [hcontents]
        omega
      rw [hresult, if_neg hne]
  · contradiction

theorem inv_pop (hi : s.Inv config) (hsize : 0 < config.dbBatchSize)
    (h : s.step localtime config .pop = some t) : t.Inv config := by
  obtain ⟨hthread, ⟨rfl, hshut, hnil⟩ | ⟨queue, rfl, hholds⟩⟩ := pop_cases hi hsize h
  · exact hi.moved (by simp [batch, hthread]) ⟨hshut, hnil⟩
  · refine ⟨hholds.wf, hholds.capacity_eq.trans hi.capacity, hi.quiet, ?_, ?_, trivial⟩
    · rw [hi.conserved]
      simp [batch, hthread, hholds.contents_eq, List.append_assoc]
    · simpa only [ProducerInv, hholds.shutdown_eq] using hi.producer

theorem inv_testEmptied (hi : s.Inv config)
    (h : s.step localtime config .testEmptied = some t) : t.Inv config := by
  simp only [step] at h
  split at h
  · next hthread =>
    obtain rfl := Option.some.inj h
    split <;> exact hi.moved (by simp [batch, hthread]) trivial
  · contradiction

theorem inv_process (hi : s.Inv config) (h : s.step localtime config .process = some t) :
    t.Inv config := by
  simp only [step] at h
  split at h
  · next entries hthread =>
    obtain rfl := Option.some.inj h
    refine ⟨hi.wf, hi.capacity, (processBatch_spec localtime hi.quiet entries).1, ?_, hi.producer,
      trivial⟩
    rw [hi.conserved]
    simp [batch, hthread, inserted_processBatch localtime hi.quiet]
  · contradiction

theorem inv_step {a : DbPipelineAction} (hsize : 0 < config.dbBatchSize) (hi : s.Inv config)
    (h : s.step localtime config a = some t) : t.Inv config := by
  cases a with
  | push chunk timestampNs stackStr => exact inv_push hi h
  | flush => exact inv_flush hi h
  | stop => exact inv_stop hi h
  | shutdown => exact inv_shutdown hi h
  | testRunning => exact inv_testRunning hi h
  | testSize => exact inv_testSize hi h
  | pop => exact inv_pop hi hsize h
  | testEmptied => exact inv_testEmptied hi h
  | process => exact inv_process hi h

theorem inv_of_reachable (hsize : 0 < config.dbBatchSize)
    (h : (dbPipelineMachine localtime config).Reachable s) : s.Inv config :=
  (dbPipelineMachine localtime config).invariant (fun _ => inv_init localtime)
    (fun _ _ _ hi hstep => inv_step hsize hi hstep) h

end DbPipeline

end Profiling
