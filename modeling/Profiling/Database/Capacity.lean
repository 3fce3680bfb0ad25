import Profiling.Database.Pipeline

/-!
# Profiling.Database.Capacity

The producer's batch against the capacity of the queue.

`queue_push_batch` waits until the whole batch fits.  The option parser lets
batches of up to `MAX_PRODUCER_BATCH_SIZE` entries through, and the queue has
room for `QUEUE_CAPACITY`, which is less.
-/

namespace Profiling

namespace DbPipeline

/-- The producer waits in `queue_push_batch`, with the queue empty and open. -/
def ProducerBlocked (s : DbPipeline) : Prop :=
  (s.producer = .flushing ∨ s.producer = .stopFlushing) ∧ queuePushBatch s.queue s.buffer = none ∧
    s.queue.contents = [] ∧ s.queue.shutdown = false

variable {localtime : Int → Tm} {config : ProfilingConfig} {s : DbPipeline}

theorem flushThreshold_of_inRange (h : config.InRange) :
    flushThreshold config = config.producerBatchSize := by
  have hpos := h.producerBatchSize_pos
  have hle := h.producerBatchSize_le
  rw [flushThreshold, if_neg (by omega)]

/-- A blocked producer holds more entries than the queue has room for. -/
theorem Inv.capacity_lt (hi : s.Inv config) (h : s.ProducerBlocked) :
    (queueCapacity : Int) < flushThreshold config := by
  obtain ⟨hpc, hpush, hempty, -⟩ := h
  obtain ⟨-, hroom, -⟩ := ConcurrentQueue.queuePushBatch_eq_none_iff.mp hpush
  rw [hi.capacity, (ConcurrentQueue.contents_eq_nil_iff hi.wf).mp hempty] at hroom
  have hlen : s.buffer.length ≤ flushThreshold config := by
    have hproducer := hi.producer
    rcases hpc with hpc | hpc
    · simp only [ProducerInv, hpc] at hproducer
      exact hproducer.2.2
    · simp only [ProducerInv, hpc] at hproducer
      exact hproducer.2.2
  omega

variable (localtime config) in
/-- One push. -/
theorem step_push (hready : s.producer = .ready) (hrunning : s.running = true) (entry : DbEntry) :
    (dbPipelineMachine localtime config).step s
        (.push (some entry.chunk) entry.timestampNs entry.stackStr) =
      some { s with
        buffer := s.buffer ++ [entry]
        accepted := s.accepted ++ [entry]
        producer :=
          if flushThreshold config ≤ (s.buffer ++ [entry]).length then .flushing else .ready } := by
  simp only [dbPipelineMachine, step, dbWriterPushStack, hready, hrunning, if_true]

/-- Pushes below the threshold only fill the buffer. -/
theorem run_pushes (hready : s.producer = .ready) (hrunning : s.running = true) (entry : DbEntry)
    (n : Nat) (hn : s.buffer.length + n < flushThreshold config) :
    (dbPipelineMachine localtime config).run s
        (List.replicate n (.push (some entry.chunk) entry.timestampNs entry.stackStr)) =
      some { s with
        buffer := s.buffer ++ List.replicate n entry
        accepted := s.accepted ++ List.replicate n entry } := by
  induction n generalizing s with
  | zero => simp
  | succ n ih =>
      have hlt : ¬flushThreshold config ≤ (s.buffer ++ [entry]).length := by
        rw [List.length_append, List.length_singleton]
        omega
      let pushed : DbPipeline :=
        { s with
          buffer := s.buffer ++ [entry]
          accepted := s.accepted ++ [entry]
          producer := .ready }
      have hbelow : pushed.buffer.length + n < flushThreshold config := by
        rw [List.length_append, List.length_singleton]
        omega
      have hrest := @ih pushed rfl hrunning hbelow
      rw [List.replicate_succ, Machine.run_cons, step_push localtime config hready hrunning entry,
        if_neg hlt, Option.bind_some]
      refine hrest.trans ?_
      simp [pushed, List.replicate_succ, hready]

/-- The entry that is pushed over and over. -/
def emptyEntry : DbEntry := ⟨0, 0, []⟩

/-- The writer waits for an entry, and the `n + 1`-st push has filled the
producer's buffer up to the threshold. -/
def fullPipeline (config : ProfilingConfig) (n : Nat) : DbPipeline :=
  { startedPipeline config with
    buffer := List.replicate n emptyEntry ++ [emptyEntry]
    producer := .flushing
    thread := .popping
    accepted := List.replicate n emptyEntry ++ [emptyEntry] }

theorem reachable_fullPipeline {n : Nat} (hn : flushThreshold config = n + 1) :
    (dbPipelineMachine localtime config).Reachable (fullPipeline config n) := by
  let popping : DbPipeline := { startedPipeline config with thread := .popping }
  let filled : DbPipeline :=
    { popping with
      buffer := popping.buffer ++ List.replicate n emptyEntry
      accepted := popping.accepted ++ List.replicate n emptyEntry }
  have hpopping : (dbPipelineMachine localtime config).Reachable popping :=
    ⟨startedPipeline config, [.testRunning], init_startedPipeline localtime config, rfl⟩
  have hbelow : popping.buffer.length + n < flushThreshold config := by
    simp [popping, startedPipeline]
    omega
  have hfilled : (dbPipelineMachine localtime config).Reachable filled :=
    (dbPipelineMachine localtime config).reachable_run hpopping
      (run_pushes rfl rfl emptyEntry n hbelow)
  have hfull : flushThreshold config ≤ (filled.buffer ++ [emptyEntry]).length := by
    simp [filled, popping, startedPipeline]
    omega
  have hpush := step_push localtime config (s := filled) rfl rfl emptyEntry
  rw [if_pos hfull] at hpush
  exact (dbPipelineMachine localtime config).reachable_step hfilled hpush

/-- Its batch does not fit, and there is nothing to pop: no thread can move. -/
theorem stuck_fullPipeline {n : Nat} (hn : queueCapacity ≤ n) :
    (fullPipeline config n).ProducerBlocked ∧
      ∀ a, (fullPipeline config n).step localtime config a = none := by
  have hblocked : queuePushBatch (fullPipeline config n).queue (fullPipeline config n).buffer =
      none := by
    refine ConcurrentQueue.queuePushBatch_eq_none_iff.mpr ⟨by simp [fullPipeline], ?_, rfl⟩
    simp [fullPipeline, startedPipeline]
    omega
  refine ⟨⟨.inl rfl, hblocked, rfl, rfl⟩, fun a => ?_⟩
  cases a with
  | flush =>
      change (fullPipeline config n).dbWriterFlush .ready = none
      rw [dbWriterFlush, if_neg (by simp [fullPipeline]), hblocked]
      rfl
  | pop =>
      have hpop : queuePopBatch (fullPipeline config n).queue config.dbBatchSize.toNat = none :=
        ConcurrentQueue.queuePopBatch_eq_none_iff.mpr ⟨rfl, rfl⟩
      simp [step, hpop]
  | push chunk timestampNs stackStr => rfl
  | stop | shutdown | testRunning | testSize | testEmptied | process => rfl

/-- With a threshold beyond the capacity, pushing alone leads to a state in
which no thread can move. -/
theorem deadlock_of_lt (hlt : (queueCapacity : Int) < flushThreshold config) :
    ∃ s, (dbPipelineMachine localtime config).Reachable s ∧ s.ProducerBlocked ∧
      ∀ a, s.step localtime config a = none := by
  obtain ⟨n, hn⟩ : ∃ n : Nat, flushThreshold config = n + 1 :=
    ⟨(flushThreshold config).toNat - 1, by have := flushThreshold_pos config; omega⟩
  exact ⟨fullPipeline config n, reachable_fullPipeline hn, stuck_fullPipeline (by omega)⟩

end DbPipeline

/-- **When the producer never blocks on an empty queue.**  For an accepted
command line, exactly if the producer's batch fits into the queue. -/
theorem never_blocked_iff {localtime : Int → Tm} {args : List (CString × Bool)} {dup : Bool}
    {config : ProfilingConfig} (hconfig : parseCommandLine args dup = .next config) :
    (∀ s, (dbPipelineMachine localtime config).Reachable s → ¬s.ProducerBlocked) ↔
      config.producerBatchSize ≤ queueCapacity := by
  have hrange := parseCommandLine_inRange hconfig
  rw [← DbPipeline.flushThreshold_of_inRange hrange]
  constructor
  · intro hnever
    by_contra hlt
    obtain ⟨s, hs, hblocked, -⟩ := DbPipeline.deadlock_of_lt (Int.not_le.mp hlt)
    exact hnever s hs hblocked
  · intro hle s hs hblocked
    have := (DbPipeline.inv_of_reachable hrange.dbBatchSize_pos hs).capacity_lt hblocked
    omega

/-- The defaults fit. -/
theorem never_blocked_default :
    noArguments.producerBatchSize ≤ queueCapacity ∧
      ∀ s, (dbPipelineMachine firstDay noArguments).Reachable s → ¬s.ProducerBlocked :=
  ⟨by decide, (never_blocked_iff parseCommandLine_nil).mpr (by decide)⟩

/-- Batches of 2000 are accepted, and deadlock. -/
theorem large_batch_deadlocks :
    ∃ config, parseCommandLine [(cstr "--producer-batch-size=2000", true)] true = .next config ∧
      ∃ s, (dbPipelineMachine firstDay config).Reachable s ∧ s.ProducerBlocked ∧
        ∀ a, s.step firstDay config a = none := by
  refine ⟨{ noArguments with producerBatchSize := 2000 }, by decide, ?_⟩
  exact DbPipeline.deadlock_of_lt (by decide)

end Profiling
