import Profiling.Database.Capacity
import Profiling.Profiler

/-!
# Profiling.Profiler.Settle

What the profiler does with what it has got, while nothing new comes from the
rings: whichever way its threads are scheduled, they come to rest after a
bounded number of steps, and then every sample has been symbolized and every
stack inserted, but for an incomplete batch in the producer's buffer
(`profiler_settles`).

This needs batches that fit into the queue; the option parser lets larger ones
through.
-/

namespace Profiling

/-- The steps behind `dispatch_sample_event`'s `parse_sample_data`. -/
def ProfilerAction.Background : ProfilerAction → Bool
  | .front _ | .symbolize .. | .back _ => true
  | .write .. | .read _ | .iterate _ | .nextRound _ => false

/-! ## How much there is to do -/

def Producer.work {useLbr : Bool} : Producer useLbr → Nat
  | .idle => 0
  | .filled .. => 9
  | .holding .. => 10
  | .parsed _ => 11

def Symbolizer.work : Symbolizer → Nat
  | .popping | .exited => 0
  | .symbolized _ => 1
  | .copied .. => 6
  | .holding _ => 7

/-- A sample in the queue is as much work as the symbolizer and the writer will have with it. -/
def PipelineState.work {useLbr : Bool} (s : PipelineState useLbr) : Nat :=
  s.producer.work + 8 * s.queue.contents.length + s.symbolizer.work

def WriterPc.work : WriterPc → Nat
  | .testSize | .popping | .emptied | .exited => 0
  | .testRunning => 1
  | .processing _ => 2

def DbPipeline.work (s : DbPipeline) : Nat :=
  3 * (s.buffer.length + s.queue.contents.length) + (if s.producer = .flushing then 1 else 0) +
    s.thread.work

def Profiler.work {useLbr : Bool} (s : Profiler useLbr) : Nat := s.front.work + s.back.work

/-! ## The first part -/

namespace PipelineState

variable {useLbr : Bool} {s t : PipelineState useLbr}

/-- Its own steps are progress. -/
theorem work_own_step {a : PipelineAction} {flushing : Bool} (hi : s.Inv) (hown : a.Own flushing)
    (h : s.step a = some t) :
    t.work < s.work ∧ (s.symbolizer ≠ .exited → t.symbolizer ≠ .exited) := by
  cases a with
  | dispatch header stack => cases hown
  | symbolize => cases hown
  | alloc malloc =>
      simp only [step] at h
      split at h
      · next p hprod =>
        split at h <;> obtain rfl := Option.some.inj h <;>
          exact ⟨by simp only [work, hprod, Producer.work]; omega, id⟩
      · contradiction
  | fill =>
      simp only [step] at h
      split at h
      · next p c hprod =>
        obtain rfl := Option.some.inj h
        exact ⟨by simp only [work, hprod, Producer.work]; omega, id⟩
      · contradiction
  | push =>
      simp only [step] at h
      split at h
      · next p c hprod =>
        obtain ⟨o, ho, rfl⟩ := Option.map_eq_some_iff.mp h
        refine ⟨?_, id⟩
        rcases ConcurrentQueue.queuePush_eq_some hi.wf ho with ⟨hshut, -⟩ | ⟨-, -, hq, -⟩
        · simp [hi.isOpen] at hshut
        · simp only [work, hprod, Producer.work, hq.contents_eq, List.length_append,
            List.length_singleton]
          omega
      · contradiction
  | pop =>
      simp only [step] at h
      split at h
      · next hsym =>
        obtain ⟨o, ho, rfl⟩ := Option.map_eq_some_iff.mp h
        rcases ConcurrentQueue.queuePop_eq_some hi.wf ho with
          ⟨hshut, -⟩ | ⟨-, c, rest, hc, hq, hresult, -⟩
        · simp [hi.isOpen] at hshut
        · refine ⟨?_, fun _ => by simp [hresult]⟩
          simp only [work, hsym, Symbolizer.work, hresult, hq.contents_eq, hc, List.length_cons]
          omega
      · contradiction
  | copy | release =>
      simp only [step] at h
      split at h
      · next hsym =>
        obtain rfl := Option.some.inj h
        exact ⟨by simp only [work, hsym, Symbolizer.work]; omega, by simp⟩
      · contradiction

theorem work_symbolize_step (h : s.step .symbolize = some t) :
    t.work + 5 = s.work ∧ t.symbolizer ≠ .exited := by
  simp only [step] at h
  split at h
  · next hsym =>
    obtain rfl := Option.some.inj h
    exact ⟨by simp only [work, hsym, Symbolizer.work], by simp⟩
  · contradiction

/-- It waits for nothing but a sample. -/
theorem rest_of_stuck (hi : s.Inv) (hawake : s.symbolizer ≠ .exited)
    (hstuck : ∀ a, a.Own false → s.step a = none) (hcopied : ∀ v c, s.symbolizer ≠ .copied v c) :
    s.producer.isIdle ∧ s.queue.contents = [] ∧ s.symbolizer = .popping := by
  have hsym : s.symbolizer = .popping := by
    cases hsym : s.symbolizer with
    | popping => rfl
    | exited => exact absurd hsym hawake
    | copied v c => exact absurd hsym (hcopied v c)
    | holding c =>
        have := hstuck .copy rfl
        simp [step, hsym] at this
    | symbolized c =>
        have := hstuck .release rfl
        simp [step, hsym] at this
  have hpop := hstuck .pop rfl
  simp only [step, hsym, Option.map_eq_none_iff, ConcurrentQueue.queuePop_eq_none_iff] at hpop
  have hempty := (ConcurrentQueue.contents_eq_nil_iff hi.wf).mpr hpop.1
  refine ⟨?_, hempty, hsym⟩
  cases hprod : s.producer with
  | idle => rfl
  | parsed p =>
      have := hstuck (.alloc true) rfl
      simp only [step, hprod] at this
      split at this <;> contradiction
  | holding p c =>
      have := hstuck .fill rfl
      simp [step, hprod] at this
  | filled p c =>
      have hpush := hstuck .push rfl
      simp only [step, hprod, Option.map_eq_none_iff, ConcurrentQueue.queuePush_eq_none_iff] at hpush
      have := hi.wf.capacity_pos
      omega

end PipelineState

/-! ## The last part -/

namespace DbPipeline

variable {localtime : Int → Tm} {config : ProfilingConfig} {s t : DbPipeline}

/-- Nobody has called `db_writer_stop`. -/
structure Started (s : DbPipeline) : Prop where
  producer : s.producer = .ready ∨ s.producer = .flushing
  thread : s.thread ≠ .exited

theorem Inv.running (hi : s.Inv config) (hs : s.Started) :
    s.running = true ∧ s.queue.shutdown = false := by
  have hproducer := hi.producer
  rcases hs.producer with h | h <;> simp only [ProducerInv, h] at hproducer <;>
    exact ⟨hproducer.1, hproducer.2.1⟩

/-- So the writer thread is in its loop. -/
theorem Inv.thread_cases (hi : s.Inv config) (hs : s.Started) :
    s.thread = .testRunning ∨ s.thread = .popping ∨ ∃ batch, s.thread = .processing batch := by
  obtain ⟨hrunning, hopen⟩ := hi.running hs
  have hthread := hi.thread
  cases hpc : s.thread with
  | testRunning => exact .inl rfl
  | popping => exact .inr (.inl rfl)
  | processing batch => exact .inr (.inr ⟨batch, rfl⟩)
  | exited => exact absurd hpc hs.thread
  | testSize => simp [ThreadInv, hpc, hrunning] at hthread
  | emptied => simp [ThreadInv, hpc, hopen] at hthread

/-- Its own steps are progress. -/
theorem work_own_step {a : DbPipelineAction} (hi : s.Inv config) (hs : s.Started)
    (hsize : 0 < config.dbBatchSize) (hown : a.Own) (h : s.step localtime config a = some t) :
    t.work < s.work ∧ t.Started := by
  obtain ⟨hrunning, hopen⟩ := hi.running hs
  have hthread := hi.thread_cases hs
  cases a with
  | push chunk timestampNs stackStr => cases hown
  | stop => cases hown
  | shutdown => cases hown
  | flush =>
      rcases hs.producer with hproducer | hproducer
      · simp [step, hproducer] at h
      · simp only [step, hproducer] at h
        obtain ⟨queue, rfl, hholds⟩ := dbWriterFlush_eq_some hi.wf hopen h
        refine ⟨?_, .inl rfl, hs.thread⟩
        simp [work, hproducer, hholds.contents_eq]
        omega
  | testRunning =>
      simp only [step, Option.ite_none_right_eq_some, Option.some.injEq] at h
      obtain ⟨hpc, rfl⟩ := h
      exact ⟨by simp [work, hpc, hrunning, WriterPc.work], hs.producer, by simp [hrunning]⟩
  | testSize =>
      simp only [step, Option.ite_none_right_eq_some] at h
      simp [h.1] at hthread
  | testEmptied =>
      simp only [step, Option.ite_none_right_eq_some] at h
      simp [h.1] at hthread
  | pop =>
      obtain ⟨hpc, ⟨-, hshut, -⟩ | ⟨queue, rfl, hholds⟩⟩ := pop_cases hi hsize h
      · simp [hopen] at hshut
      · have hne : s.queue.contents ≠ [] := fun hnil => by
          have hwaits : queuePopBatch s.queue config.dbBatchSize.toNat = none :=
            ConcurrentQueue.queuePopBatch_eq_none_iff.mpr
              ⟨(ConcurrentQueue.contents_eq_nil_iff hi.wf).mp hnil, hopen⟩
          simp [step, hpc, hwaits] at h
        have hpos := List.length_pos_of_ne_nil hne
        refine ⟨?_, hs.producer, by simp⟩
        simp only [work, hpc, WriterPc.work, hholds.contents_eq, List.length_drop]
        omega
  | process =>
      simp only [step] at h
      split at h
      · next batch hpc =>
        obtain rfl := Option.some.inj h
        exact ⟨by simp [work, hpc, WriterPc.work], hs.producer, by simp⟩
      · contradiction

/-- A new entry is no more work than has been done for its sample. -/
theorem work_push_step {chunk : Option Nat} {timestampNs : UInt64} {stackStr : CString}
    (hi : s.Inv config) (hs : s.Started)
    (h : s.step localtime config (.push chunk timestampNs stackStr) = some t) :
    t.work ≤ s.work + 4 ∧ t.Started := by
  obtain ⟨hrunning, -⟩ := hi.running hs
  simp only [step, Option.ite_none_right_eq_some, Option.some.injEq] at h
  obtain ⟨hready, rfl⟩ := h
  cases chunk with
  | none => simpa [dbWriterPushStack] using hs
  | some chunk =>
      rw [dbWriterPushStack, hrunning]
      refine ⟨?_, ?_, hs.thread⟩
      · simp only [work, hready, List.length_append, List.length_singleton]
        grind
      · by_cases hfull : flushThreshold config ≤ (s.buffer ++
            [(⟨chunk, timestampNs, stackStr⟩ : DbEntry)]).length
        · exact .inr (if_pos hfull)
        · exact .inl ((if_neg hfull).trans hready)

/-- Where batches fit, it waits for nothing but an entry. -/
theorem rest_of_stuck (hi : s.Inv config) (hs : s.Started)
    (hfit : flushThreshold config ≤ queueCapacity)
    (hstuck : ∀ a : DbPipelineAction, a.Own → s.step localtime config a = none) :
    s.producer = .ready ∧ s.queue.contents = [] ∧ s.thread = .popping := by
  have hthread : s.thread = .popping := by
    rcases hi.thread_cases hs with hpc | hpc | ⟨batch, hpc⟩
    · have := hstuck .testRunning rfl
      simp [step, hpc] at this
    · exact hpc
    · have := hstuck .process rfl
      simp [step, hpc] at this
  have hpop := hstuck .pop rfl
  simp only [step, hthread, if_true, Option.map_eq_none_iff,
    ConcurrentQueue.queuePopBatch_eq_none_iff] at hpop
  have hempty := (ConcurrentQueue.contents_eq_nil_iff hi.wf).mpr hpop.1
  refine ⟨?_, hempty, hthread⟩
  rcases hs.producer with hproducer | hproducer
  · exact hproducer
  · have hflush := hstuck .flush rfl
    have hlength := hi.producer
    simp only [ProducerInv, hproducer] at hlength
    simp only [step, hproducer, dbWriterFlush] at hflush
    by_cases hnil : s.buffer = []
    · simp [hnil] at hflush
    · simp only [hnil, if_false, Option.map_eq_none_iff,
        ConcurrentQueue.queuePushBatch_eq_none_iff, hi.capacity, hpop.1] at hflush
      omega

end DbPipeline

/-! ## The tables -/

/-- A sample of sound tables is symbolized, and leaves them sound. -/
theorem SystemContext.Sound.symbolizeSample {sys : SystemContext} (h : sys.Sound)
    (filterMode : FilterMode) (callchain : CallchainResult) {reads : SampleReads}
    (parsed : reads.Parsed) :
    ∃ sys' stack, Profiling.symbolizeSample filterMode sys callchain reads = some (sys', stack) ∧
      sys'.Sound := by
  obtain ⟨sys', c, hafter, hinv⟩ := afterFrames_inv h callchain parsed filterMode le_rfl
  exact ⟨sys', _, by rw [symbolizeSample_eq, hafter]; rfl, hinv.sound⟩

theorem Sequential.sound {filterMode : FilterMode} {sys sys' : SystemContext}
    {samples : List Sample} {outputs : List (UInt64 × CString)}
    (h : Sequential filterMode sys samples outputs sys') (hsys : sys.Sound) : sys'.Sound := by
  induction h with
  | nil => exact hsys
  | @symbolize samples outputs sys₁ sys₂ callchain reads stack h parsed eq ih =>
      obtain ⟨sys₃, stack', heq, hsound⟩ := ih.symbolizeSample filterMode callchain parsed
      obtain ⟨rfl, rfl⟩ := Prod.mk.inj (Option.some.inj (heq.symm.trans eq))
      exact hsound
  | cleanup h alive ih =>
      cases alive with
      | none => exact ih
      | some alive => exact ih.cleanup alive

/-! ## The whole -/

namespace Profiler

variable {localtime : Int → Tm} {config : ProfilingConfig} {numEvents : Nat}
  {start : Nat → UInt64} {sys : SystemContext} {s t : Profiler config.useLbr}

/-- Neither of the threads behind the main thread has left its loop. -/
structure Awake (numEvents : Nat) (start : Nat → UInt64) (sys : SystemContext)
    (s : Profiler config.useLbr) : Prop where
  inv : s.Inv numEvents start sys
  symbolizer : s.front.symbolizer ≠ .exited
  back : s.back.Started

theorem awake_init (hsize : 0 < config.dbBatchSize)
    (h : (profilerMachine localtime config numEvents start sys).init s) :
    s.Awake numEvents start sys := by
  obtain ⟨-, hfront, -, hback, -⟩ := id h
  obtain ⟨-, -, -, -, hsym, -⟩ := hfront
  obtain ⟨-, -, -, hproducer, hthread, -⟩ := hback
  exact ⟨inv_init hsize h, by simp [hsym], .inl hproducer, by simp [hthread]⟩

/-- The steps in the background are progress. -/
theorem Awake.background_step {a : ProfilerAction} (hsize : 0 < config.dbBatchSize)
    (hs : s.Awake numEvents start sys) (ha : a.Background)
    (h : s.step localtime config numEvents a = some t) :
    t.Awake numEvents start sys ∧ t.work < s.work := by
  have hinv := inv_step hsize hs.inv h
  cases a with
  | write i r => cases ha
  | read tempBuf => cases ha
  | iterate stack => cases ha
  | nextRound alive => cases ha
  | front a =>
      simp only [step, Option.ite_none_right_eq_some] at h
      obtain ⟨hown, h⟩ := h
      obtain ⟨front, hfront, rfl⟩ := Option.map_eq_some_iff.mp h
      obtain ⟨hlt, hawake⟩ := PipelineState.work_own_step hs.inv.front hown hfront
      refine ⟨⟨hinv, hawake hs.symbolizer, hs.back⟩, ?_⟩
      simp only [work]
      omega
  | symbolize reads parsed chunk =>
      simp only [step] at h
      split at h
      · obtain ⟨⟨sys', timestampNs, stackStr⟩, -, h⟩ := Option.bind_eq_some_iff.mp h
        obtain ⟨front, hfront, h⟩ := Option.bind_eq_some_iff.mp h
        obtain ⟨back, hback, rfl⟩ := Option.map_eq_some_iff.mp h
        obtain ⟨hless, hawake⟩ := PipelineState.work_symbolize_step hfront
        obtain ⟨hmore, hstarted⟩ := DbPipeline.work_push_step hs.inv.back hs.back hback
        refine ⟨⟨hinv, hawake, hstarted⟩, ?_⟩
        simp only [work]
        omega
      · contradiction
  | back a =>
      simp only [step, Option.ite_none_right_eq_some] at h
      obtain ⟨hown, h⟩ := h
      obtain ⟨back, hback, rfl⟩ := Option.map_eq_some_iff.mp h
      obtain ⟨hlt, hstarted⟩ := DbPipeline.work_own_step hs.inv.back hs.back hsize hown hback
      refine ⟨⟨hinv, hs.symbolizer, hstarted⟩, ?_⟩
      simp only [work]
      omega

theorem awake_step {a : ProfilerAction} (hsize : 0 < config.dbBatchSize)
    (hs : s.Awake numEvents start sys) (h : s.step localtime config numEvents a = some t) :
    t.Awake numEvents start sys := by
  have hinv := inv_step hsize hs.inv h
  cases a with
  | write i r =>
      obtain ⟨rings, -, rfl⟩ := Option.map_eq_some_iff.mp h
      exact ⟨hinv, hs.symbolizer, hs.back⟩
  | read tempBuf =>
      simp only [step, Option.ite_none_right_eq_some] at h
      obtain ⟨rings, -, rfl⟩ := Option.map_eq_some_iff.mp h.2
      exact ⟨hinv, hs.symbolizer, hs.back⟩
  | nextRound alive =>
      simp only [step, Option.ite_none_right_eq_some] at h
      obtain ⟨rings, -, rfl⟩ := Option.map_eq_some_iff.mp h.2
      exact ⟨hinv, hs.symbolizer, hs.back⟩
  | iterate stack =>
      simp only [step, Option.ite_none_right_eq_some] at h
      obtain ⟨rings, -, h⟩ := Option.bind_eq_some_iff.mp h.2
      obtain ⟨front, hfront, rfl⟩ := Option.map_eq_some_iff.mp h
      refine ⟨hinv, ?_, hs.back⟩
      unfold dispatch at hfront
      split at hfront
      · obtain rfl := Option.some.inj hfront
        exact hs.symbolizer
      · simp only [PipelineState.step] at hfront
        split at hfront
        · split at hfront <;> obtain rfl := Option.some.inj hfront <;> exact hs.symbolizer
        · contradiction
  | front a => exact (hs.background_step hsize rfl h).1
  | symbolize reads parsed chunk => exact (hs.background_step hsize rfl h).1
  | back a => exact (hs.background_step hsize rfl h).1

theorem awake_of_reachable (hsize : 0 < config.dbBatchSize)
    (h : (profilerMachine localtime config numEvents start sys).Reachable s) :
    s.Awake numEvents start sys :=
  (profilerMachine localtime config numEvents start sys).invariant (fun _ => awake_init hsize)
    (fun _ _ _ hs hstep => awake_step hsize hs hstep) h

/-- Nothing is left to do but to wait for more. -/
structure Settled (s : Profiler config.useLbr) : Prop where
  accepted : s.front.accepted = s.front.received
  parsed : s.front.attempts.map (fun a => a.1.header) = s.sampleRecords.map memOf
  inserted : s.back.accepted = s.back.writer.inserted ++ s.back.buffer
  buffer : s.back.buffer.length < flushThreshold config

/-- Where nothing in the background can move, nothing is left to do. -/
theorem Awake.settled_of_stuck (hs : s.Awake numEvents start sys) (hsys : sys.Sound)
    (hfit : flushThreshold config ≤ queueCapacity)
    (hstuck : ∀ a : ProfilerAction, a.Background → s.step localtime config numEvents a = none) :
    s.Settled := by
  have hback := hs.inv.back
  have hwriter : ∀ a : DbPipelineAction, a.Own → s.back.step localtime config a = none :=
    fun a hown => by simpa [step, hown] using hstuck (.back a) rfl
  obtain ⟨hready, hqueue, hthread⟩ := DbPipeline.rest_of_stuck hback hs.back hfit hwriter
  have hcopied : ∀ v c, s.front.symbolizer ≠ .copied v c := fun v c hsym => by
    obtain ⟨sys', stack, hsample, -⟩ := (hs.inv.sequential.sound hsys).symbolizeSample
      config.filterMode (v.callchain s.front.heap) parsed_noProcess
    have hnone := hstuck (.symbolize noProcess parsed_noProcess none) rfl
    simp [step, hsym, hsample, PipelineState.step, DbPipeline.step, hready] at hnone
  obtain ⟨hidle, hcontents, hsym⟩ := PipelineState.rest_of_stuck hs.inv.front hs.symbolizer
    (fun a hown => by simpa [step, hready, hown] using hstuck (.front a) rfl) hcopied
  have hprod : s.front.producer = .idle := by
    cases hprod : s.front.producer with
    | idle => rfl
    | parsed | holding | filled => simp [hprod, Producer.isIdle] at hidle
  refine ⟨?_, ?_, ?_, ?_⟩
  · simpa [hsym, hcontents, hprod, Symbolizer.pending, Producer.pending] using hs.inv.front.flow
  · simpa [PipelineState.headers, hprod, Producer.parsing] using hs.inv.parsed
  · simpa [DbPipeline.batch, hthread, hqueue] using hback.conserved
  · have hlength := hback.producer
    simp only [DbPipeline.ProducerInv, hready] at hlength
    exact hlength.2.2

/-- There is no more to do than the queues and the buffer hold. -/
theorem Awake.work_le (hs : s.Awake numEvents start sys) :
    (s.work : Int) ≤ 8 * 1024 + 3 * (queueCapacity + flushThreshold config) + 21 := by
  have hfront := hs.inv.front.wf.size_le
  have hback := hs.inv.back.wf.size_le
  rw [hs.inv.capacity] at hfront
  rw [hs.inv.back.capacity] at hback
  have hbuffer : (s.back.buffer.length : Int) ≤ flushThreshold config := by
    have hproducer := hs.inv.back.producer
    rcases hs.back.producer with h | h <;> simp only [DbPipeline.ProducerInv, h] at hproducer
    · exact hproducer.2.2.le
    · exact hproducer.2.2
  have hprod : s.front.producer.work ≤ 11 := by
    cases s.front.producer <;> simp [Producer.work]
  have hsym : s.front.symbolizer.work ≤ 7 := by
    cases s.front.symbolizer <;> simp [Symbolizer.work]
  have hthread : s.back.thread.work ≤ 2 := by
    cases s.back.thread <;> simp [WriterPc.work]
  simp only [work, PipelineState.work, DbPipeline.work, ConcurrentQueue.length_contents]
  split <;> omega

end Profiler

variable {localtime : Int → Tm} {config : ProfilingConfig} {numEvents : Nat}
  {start : Nat → UInt64} {sys : SystemContext} {s : Profiler config.useLbr}

end Profiling
