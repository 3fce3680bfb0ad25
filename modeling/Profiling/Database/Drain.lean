import Profiling.Database.Pipeline

/-!
# Profiling.Database.Drain

What `db_writer_stop` leaves behind.

It clears `running` first, then flushes the producer's buffer, and then shuts
the queue down.  The writer thread exits when it finds `running` cleared and
after that the queue empty, so it loses the buffer if it tests the size of the
queue between the first of these steps and the second.
-/

namespace Profiling

namespace DbPipeline

/-- The size of an empty queue is not tested while the producer's buffer has entries. -/
def SizeTestAllowed (s : DbPipeline) : DbPipelineAction → Prop
  | .testSize => s.queue.size = 0 → s.buffer = []
  | _ => True

instance (s : DbPipeline) : ∀ a, Decidable (s.SizeTestAllowed a)
  | .testSize => inferInstanceAs (Decidable (s.queue.size = 0 → s.buffer = []))
  | .push .. | .flush | .stop | .shutdown | .testRunning | .pop | .testEmptied | .process =>
      isTrue trivial

/-- A writer thread that has exited has left nothing to do. -/
def Drained (s : DbPipeline) : Prop :=
  s.thread = .exited → s.running = false ∧ s.queue.contents = [] ∧ s.buffer = []

variable {localtime : Int → Tm} {config : ProfilingConfig} {s t : DbPipeline}

/-- The producer is in `db_writer_stop` when `running` is cleared. -/
theorem Inv.not_ready (hi : s.Inv config) (hrunning : s.running = false) :
    s.producer ≠ .ready := by
  intro hready
  have hproducer := hi.producer
  simp [ProducerInv, hready, hrunning] at hproducer

/-- The buffer is empty when the queue has been shut down. -/
theorem Inv.stopped (hi : s.Inv config) (hshut : s.queue.shutdown = true) :
    s.running = false ∧ s.buffer = [] := by
  have hproducer := hi.producer
  unfold ProducerInv at hproducer
  split at hproducer <;> grind

/-- After the writer thread has exited, the producer has nothing left to flush. -/
theorem drained_producer {a : DbPipelineAction} (hi : s.Inv config) (hd : s.Drained)
    (hexit : s.thread = .exited) (h : s.step localtime config a = some t) : t.Drained := by
  obtain ⟨hrunning, hcontents, hbuffer⟩ := hd hexit
  have hready := hi.not_ready hrunning
  cases a with
  | push chunk timestampNs stackStr => simp [step, hready] at h
  | stop => simp [step, hready] at h
  | flush =>
      have hflush : ∀ next, s.dbWriterFlush next = some { s with producer := next } := by
        intro next
        rw [dbWriterFlush, if_pos hbuffer]
      simp only [step, hflush] at h
      split at h
      · obtain rfl := Option.some.inj h
        exact hd
      · obtain rfl := Option.some.inj h
        exact hd
      · contradiction
  | shutdown =>
      simp only [step] at h
      split at h
      · obtain rfl := Option.some.inj h
        exact hd
      · contradiction
  | testRunning | testSize | pop | testEmptied | process => simp [step, hexit] at h

/-- The test of the queue's size, which may be the last thing the writer thread does. -/
theorem drained_testSize (hi : s.Inv config) (hallowed : s.queue.size = 0 → s.buffer = [])
    (h : s.step localtime config .testSize = some t) : t.Drained := by
  simp only [step] at h
  split at h
  · next hthread =>
    obtain rfl := Option.some.inj h
    have hrunning : s.running = false := by simpa [ThreadInv, hthread] using hi.thread
    split
    · simp [Drained]
    · next hsize =>
      have hzero : s.queue.size = 0 := by
        have := hi.wf.size_nonneg
        have : ¬0 < s.queue.size := hsize
        omega
      exact fun _ =>
        ⟨hrunning, (ConcurrentQueue.contents_eq_nil_iff hi.wf).mpr hzero, hallowed hzero⟩
  · contradiction

theorem drained_testEmptied (hi : s.Inv config)
    (h : s.step localtime config .testEmptied = some t) : t.Drained := by
  simp only [step] at h
  split at h
  · next hthread =>
    obtain rfl := Option.some.inj h
    obtain ⟨hshut, hcontents⟩ : s.queue.shutdown = true ∧ s.queue.contents = [] := by
      simpa [ThreadInv, hthread] using hi.thread
    obtain ⟨hrunning, hbuffer⟩ := hi.stopped hshut
    exact fun _ => ⟨hrunning, hcontents, hbuffer⟩
  · contradiction

theorem drained_step {a : DbPipelineAction} (hsize : 0 < config.dbBatchSize) (hi : s.Inv config)
    (hd : s.Drained) (hallowed : s.SizeTestAllowed a) (h : s.step localtime config a = some t) :
    t.Drained := by
  by_cases hexit : s.thread = .exited
  · exact drained_producer hi hd hexit h
  · cases a with
    | testSize => exact drained_testSize hi hallowed h
    | testEmptied => exact drained_testEmptied hi h
    | testRunning =>
        simp only [step] at h
        split at h
        · obtain rfl := Option.some.inj h
          split <;> simp [Drained]
        · contradiction
    | pop =>
        obtain ⟨-, ⟨rfl, -, -⟩ | ⟨queue, rfl, -⟩⟩ := pop_cases hi hsize h <;>
          simp [Drained]
    | process =>
        simp only [step] at h
        split at h
        · obtain rfl := Option.some.inj h
          simp [Drained]
        · contradiction
    | push chunk timestampNs stackStr => grind [step, thread_dbWriterPushStack, Drained]
    | flush => grind [step, thread_dbWriterFlush, Drained]
    | stop => grind [step, Drained]
    | shutdown => grind [step, Drained]

/-- A drained writer has inserted everything. -/
theorem inserted_of_exited (hi : s.Inv config) (hd : s.Drained) (hexit : s.thread = .exited) :
    s.writer.inserted = s.accepted ∧ s.queue.contents = [] ∧ s.buffer = [] := by
  obtain ⟨-, hcontents, hbuffer⟩ := hd hexit
  refine ⟨?_, hcontents, hbuffer⟩
  rw [hi.conserved]
  simp [batch, hexit, hcontents, hbuffer]

/-- The test that is not allowed ends the thread before the buffer is flushed. -/
theorem exited_of_testSize (hi : s.Inv config) (hbad : ¬s.SizeTestAllowed .testSize)
    (h : s.step localtime config .testSize = some t) :
    t.thread = .exited ∧ t.writer.inserted ≠ t.accepted := by
  obtain ⟨hzero, hbuffer⟩ := Classical.not_imp.mp hbad
  simp only [step] at h
  split at h
  · next hthread =>
    obtain rfl := Option.some.inj h
    refine ⟨if_neg (by simp [queueGetSize, hzero]), fun heq => hbuffer ?_⟩
    have happ : s.writer.inserted ++ (s.queue.contents ++ s.buffer) = s.writer.inserted := by
      simpa [batch, hthread] using (heq.trans hi.conserved).symm
    exact (List.append_eq_nil_iff.mp (List.append_right_eq_self.mp happ)).2
  · contradiction

end DbPipeline

/-- **When stopping drains.**  In every run in which the writer thread does not
test the size of an empty queue while the producer's buffer has entries, it has
inserted every accepted entry by the time it exits, in the order of the pushes,
and none is left in the queue.  Such a test in any state of such a run makes it
exit without the entries of the buffer. -/
theorem stop_drains {localtime : Int → Tm} {args : List (CString × Bool)} {dup : Bool}
    {config : ProfilingConfig} {s : DbPipeline}
    (hconfig : parseCommandLine args dup = .next config)
    (h : ((dbPipelineMachine localtime config).guard DbPipeline.SizeTestAllowed).Reachable s) :
    (s.thread = .exited →
      s.writer.inserted = s.accepted ∧ s.queue.contents = [] ∧ s.buffer = []) ∧
    (¬s.SizeTestAllowed .testSize → ∀ t, s.step localtime config .testSize = some t →
      t.thread = .exited ∧ t.writer.inserted ≠ t.accepted) := by
  have hsize : 0 < config.dbBatchSize := (parseCommandLine_inRange hconfig).dbBatchSize_pos
  obtain ⟨hi, hd⟩ : s.Inv config ∧ s.Drained := by
    refine ((dbPipelineMachine localtime config).guard DbPipeline.SizeTestAllowed).invariant
      (P := fun s => s.Inv config ∧ s.Drained) (fun s hinit => ?_) (fun s a t hs hstep => ?_) h
    · have hthread : s.thread = .testRunning := hinit.2.2.2.2.1
      exact ⟨DbPipeline.inv_init localtime hinit, by simp [DbPipeline.Drained, hthread]⟩
    · obtain ⟨hallowed, hstep⟩ := (dbPipelineMachine localtime config).guard_step_eq_some.mp hstep
      exact ⟨DbPipeline.inv_step hsize hs.1 hstep,
        DbPipeline.drained_step hsize hs.1 hs.2 hallowed hstep⟩
  exact ⟨DbPipeline.inserted_of_exited hi hd, fun hbad t => DbPipeline.exited_of_testSize hi hbad⟩

/-! ## One entry -/

/-- The buffer is flushed before the size of the queue is tested. -/
theorem stop_drains_flushed :
    ∃ s, ((dbPipelineMachine firstDay noArguments).guard
        DbPipeline.SizeTestAllowed).Reachable s ∧
      s.thread = .exited ∧ s.accepted.length = 1 ∧ s.writer.inserted = s.accepted := by
  have hreach : ((dbPipelineMachine firstDay noArguments).guard
      DbPipeline.SizeTestAllowed).Reachable _ :=
    ⟨startedPipeline noArguments,
      [.push (some 0) 0 (cstr "7|sh|sh[7];main"), .stop, .testRunning, .flush, .testSize, .pop,
        .process, .shutdown, .testRunning, .testSize], init_startedPipeline firstDay _, rfl⟩
  exact ⟨_, hreach, rfl, rfl, ((stop_drains parseCommandLine_nil hreach).1 rfl).1⟩

/-- The writer thread finds `running` cleared and the queue still empty: the
entry reaches the queue after the thread has exited. -/
theorem stop_loses_entry :
    parseCommandLine [] true = .next noArguments ∧
    ∃ s, (dbPipelineMachine firstDay noArguments).Reachable s ∧
      s.thread = .exited ∧ s.producer = .stopped ∧ s.writer.inserted = [] ∧
      s.accepted = [⟨0, 0, cstr "7|sh|sh[7];main"⟩] ∧ s.queue.contents = s.accepted := by
  refine ⟨rfl, _, ⟨startedPipeline noArguments,
    [.push (some 0) 0 (cstr "7|sh|sh[7];main"), .stop, .testRunning, .testSize, .flush, .shutdown],
    init_startedPipeline firstDay _, rfl⟩, rfl, rfl, rfl, rfl, rfl⟩

end Profiling
