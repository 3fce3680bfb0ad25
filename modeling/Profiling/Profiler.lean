import Profiling.Database.Pipeline
import Profiling.Dispatch
import Profiling.Perf.MainLoop
import Profiling.Symbolize.Stack

/-!
# Profiling.Profiler

The whole profiler, from the rings to the database: the kernel, the main thread
(`main_loop`, `dispatch_sample_event`), the symbolizer thread
(`symbolizer_thread_func`, `symbolize_sample`, `db_writer_push_stack`) and the
writer thread (`db_writer_thread_func`), in any interleaving.

The rings, the samples on their way to the symbolizer and the entries on their
way into the database are each a machine of their own.  A thread that is in a
call does not go on with its caller: the main thread while it is in
`dispatch_sample_event`, and the symbolizer thread while it is in the
`db_writer_flush` of `db_writer_push_stack`.  `symbolize_sample` up to its
`db_writer_push_stack` is one step, and so is `cleanup_dead_processes`, which
is not called while a sample is symbolized; all chunks are large enough for
what is copied into them.

* `Sequential` — what the profiler is for: samples are symbolized one after the
  other;
* `profiler_delivers` — what is inserted into the database, with what is still on
  its way there, is what a sequential run makes of the records.
-/

namespace Profiling

/-! ## The machine -/

/-- A call of `db_writer_push_stack`, and whether its `mempool_alloc` succeeded. -/
structure PushedStack where
  timestampNs : UInt64
  stackStr : CString
  kept : Bool

/-- What an entry was made of. -/
def DbEntry.stack (entry : DbEntry) : UInt64 × CString := (entry.timestampNs, entry.stackStr)

def PushedStack.stack (pushed : PushedStack) : UInt64 × CString :=
  (pushed.timestampNs, pushed.stackStr)

/-- The three parts, `system_info`, and the history of the calls between the last two. -/
structure Profiler (useLbr : Bool) where
  rings : MainLoop Unit
  front : PipelineState useLbr
  sys : SystemContext
  back : DbPipeline
  pushed : List PushedStack

inductive ProfilerAction where
  /-- the kernel writes a record -/
  | write (i : Nat) (r : List UInt8)
  | read (tempBuf : Mem)
  /-- an iteration of the loop over a ring; `stack` is what the locals of
  `dispatch_sample_event` hold, if it is called -/
  | iterate (stack : CallchainResult)
  /-- behind the last ring, with what `kill(pid, 0)` says of the processes if it is time for
  `cleanup_dead_processes` -/
  | nextRound (alive : Option (Int → Bool))
  /-- a step of `dispatch_sample_event` or of `symbolizer_thread_func` -/
  | front (a : PipelineAction)
  /-- `chunk` is what the `mempool_alloc` of `db_writer_push_stack` returns -/
  | symbolize (reads : SampleReads) (parsed : reads.Parsed) (chunk : Option Nat)
  /-- a step of `db_writer_flush` or of `db_writer_thread_func` -/
  | back (a : DbPipelineAction)

/-- The steps of the first part that are not also steps of another one, of a thread that is
not in the other one. -/
def PipelineAction.Own (flushing : Bool) : PipelineAction → Bool
  | .alloc _ | .fill | .push => true
  | .pop | .copy | .release => !flushing
  | .dispatch .. | .symbolize => false

/-- The steps of the last part that are not also steps of another one; nobody calls
`db_writer_stop`. -/
def DbPipelineAction.Own : DbPipelineAction → Bool
  | .flush | .testRunning | .testSize | .pop | .testEmptied | .process => true
  | .push .. | .stop | .shutdown => false

def Producer.isIdle {useLbr : Bool} : Producer useLbr → Bool
  | .idle => true
  | _ => false

/-- The handler of the rings' machine; `dispatch_sample_event` has steps of its own. -/
def noHandler : List UInt8 → Unit → Unit := fun _ _ => ()

/-- `struct callchain_result` as `symbolize_sample` gets it -/
def SymbolizerView.callchain (v : SymbolizerView) (heap : Chunk → RawSample) : CallchainResult :=
  ⟨v.timestampNs, v.pid, v.tid, v.ip, v.nr, (heap v.ips).ips⟩

/-- `cleanup_dead_processes`, if it is called -/
def SystemContext.cleanupIfDue (sys : SystemContext) : Option (Int → Bool) → SystemContext
  | none => sys
  | some alive => { sys with processTable := (cleanupDeadProcesses alive sys.processTable).1 }

namespace Profiler

/-- The handler is called on the record of the iteration, if it is called. -/
def dispatch {useLbr : Bool} (front : PipelineState useLbr) (stack : CallchainResult) :
    List (Nat × List UInt8) → Option (PipelineState useLbr)
  | [] => some front
  | (_, r) :: _ => front.step (.dispatch (memOf r) stack)

section

variable (localtime : Int → Tm) (config : ProfilingConfig) (numEvents : Nat)

def step (s : Profiler config.useLbr) : ProfilerAction → Option (Profiler config.useLbr)
  | .write i r =>
      (s.rings.step noHandler numEvents (.write i r)).map fun rings => { s with rings }
  | .read tempBuf =>
      if s.front.producer.isIdle then
        (s.rings.step noHandler numEvents (.read tempBuf)).map fun rings => { s with rings }
      else none
  | .iterate stack =>
      if s.front.producer.isIdle then
        (s.rings.step noHandler numEvents .iterate).bind fun rings =>
          (dispatch s.front stack (rings.current.2.drop s.rings.current.2.length)).map fun front =>
            { s with rings, front }
      else none
  | .nextRound alive =>
      if s.front.producer.isIdle then
        (s.rings.step noHandler numEvents .nextRound).map fun rings =>
          { s with
            rings
            sys := if s.rings.totalEventsProcessed = 0 then s.sys.cleanupIfDue alive else s.sys }
      else none
  | .front a =>
      if a.Own (s.back.producer = .flushing) then
        (s.front.step a).map fun front => { s with front }
      else none
  | .symbolize reads _ chunk =>
      match s.front.symbolizer with
      | .copied v _ =>
          (symbolizeSample config.filterMode s.sys (v.callchain s.front.heap) reads).bind
            fun (sys, timestampNs, stackStr) =>
              (s.front.step .symbolize).bind fun front =>
                (s.back.step localtime config (.push chunk timestampNs stackStr)).map fun back =>
                  { s with
                    front, sys, back
                    pushed := s.pushed ++ [⟨timestampNs, stackStr, chunk.isSome⟩] }
      | _ => none
  | .back a =>
      if a.Own then (s.back.step localtime config a).map fun back => { s with back } else none

end

end Profiler

/-- The profiler as `main` has started it, with the tables in this state. -/
def profilerMachine (localtime : Int → Tm) (config : ProfilingConfig) (numEvents : Nat)
    (start : Nat → UInt64) (sys : SystemContext) :
    Machine (Profiler config.useLbr) ProfilerAction where
  init s :=
    (mainLoopMachine noHandler numEvents start ()).init s.rings ∧
      (pipelineMachine config.useLbr 1024).init s.front ∧ s.sys = sys ∧
      (dbPipelineMachine localtime config).init s.back ∧ s.pushed = []
  step := Profiler.step localtime config numEvents

/-! ## What it is for -/

/-- Samples are symbolized one after the other, from the state `sys₀` of the tables on; between
two of them dead processes may be cleaned up. -/
inductive Sequential (filterMode : FilterMode) (sys₀ : SystemContext) :
    List Sample → List (UInt64 × CString) → SystemContext → Prop
  | nil : Sequential filterMode sys₀ [] [] sys₀
  | symbolize {samples : List Sample} {outputs : List (UInt64 × CString)}
      {sys sys' : SystemContext} {callchain : CallchainResult} {reads : SampleReads}
      {stack : UInt64 × CString} (h : Sequential filterMode sys₀ samples outputs sys)
      (parsed : reads.Parsed)
      (eq : symbolizeSample filterMode sys callchain reads = some (sys', stack)) :
      Sequential filterMode sys₀ (samples ++ [callchain.sample]) (outputs ++ [stack]) sys'
  | cleanup {samples : List Sample} {outputs : List (UInt64 × CString)} {sys : SystemContext}
      (h : Sequential filterMode sys₀ samples outputs sys) (alive : Option (Int → Bool)) :
      Sequential filterMode sys₀ samples outputs (sys.cleanupIfDue alive)

/-! ## The parts -/

/-- The record that `dispatch_sample_event` has parsed and has no chunk for yet. -/
def Producer.parsing {useLbr : Bool} : Producer useLbr → List Mem
  | .parsed p => [p.header]
  | _ => []

namespace PipelineState

variable {useLbr : Bool} {s t : PipelineState useLbr}

/-- The records that were parsed. -/
def headers (s : PipelineState useLbr) : List Mem :=
  s.attempts.map (fun a => a.1.header) ++ s.producer.parsing

/-- A step of its own parses no record and symbolizes no sample. -/
theorem own_step {a : PipelineAction} {flushing : Bool} (hi : s.Inv) (hown : a.Own flushing)
    (h : s.step a = some t) :
    t.headers = s.headers ∧ t.received = s.received ∧ t.queue.capacity = s.queue.capacity := by
  cases a with
  | dispatch header stack => cases hown
  | symbolize => cases hown
  | alloc malloc =>
      simp only [step] at h
      split at h
      · next p hprod =>
        split at h <;> obtain rfl := Option.some.inj h <;>
          simp [headers, hprod, Producer.parsing]
      · contradiction
  | fill =>
      simp only [step] at h
      split at h
      · next p c hprod =>
        obtain rfl := Option.some.inj h
        simp [headers, hprod, Producer.parsing]
      · contradiction
  | push =>
      simp only [step] at h
      split at h
      · next p c hprod =>
        obtain ⟨o, ho, rfl⟩ := Option.map_eq_some_iff.mp h
        refine ⟨by simp [headers, hprod, Producer.parsing], rfl, ?_⟩
        rcases ConcurrentQueue.queuePush_eq_some hi.wf ho with ⟨-, hq, -⟩ | ⟨-, -, hq, -⟩
        · exact congrArg _ hq
        · exact hq.capacity_eq
      · contradiction
  | pop =>
      simp only [step] at h
      split at h
      · next hsym =>
        obtain ⟨o, ho, rfl⟩ := Option.map_eq_some_iff.mp h
        refine ⟨rfl, rfl, ?_⟩
        rcases ConcurrentQueue.queuePop_eq_some hi.wf ho with ⟨-, -, hq, -⟩ | ⟨-, c, rest, -, hq, -⟩
        · exact congrArg _ hq
        · exact hq.capacity_eq
      · contradiction
  | copy | release =>
      simp only [step] at h
      split at h
      · obtain rfl := Option.some.inj h
        exact ⟨rfl, rfl, rfl⟩
      · contradiction

/-- A record is parsed if it is a sample. -/
theorem dispatch_step {header : Mem} {stack : CallchainResult}
    (h : s.step (.dispatch header stack) = some t) :
    t.headers = s.headers ++ (if headerType header = perfRecordSample then [header] else []) ∧
      t.received = s.received ∧ t.queue = s.queue := by
  simp only [step] at h
  split at h
  · next hprod =>
    split at h <;> obtain rfl := Option.some.inj h
    · next hsample => simp [headers, hprod, Producer.parsing, hsample]
    · next hsample => simp [hsample]
  · contradiction

/-- The sample that is symbolized is the one that is received. -/
theorem symbolize_step {v : SymbolizerView} {c : Chunk} (hsym : s.symbolizer = .copied v c)
    (h : s.step .symbolize = some t) :
    t.headers = s.headers ∧ t.received = s.received ++ [(v.callchain s.heap).sample] ∧
      t.queue = s.queue := by
  simp only [step, hsym] at h
  obtain rfl := Option.some.inj h
  exact ⟨rfl, rfl, rfl⟩

/-- What has been accepted and not been received. -/
theorem Inv.flow_length (hi : s.Inv) :
    ∃ pending, s.accepted = s.received ++ pending ∧ pending.length ≤ s.queue.capacity + 2 := by
  refine ⟨_, hi.flow, ?_⟩
  have hsize := hi.wf.size_le
  have hsym : (s.symbolizer.pending s.heap).length ≤ 1 := by
    cases s.symbolizer <;> simp [Symbolizer.pending]
  have hprod : (s.producer.pending s.heap).length ≤ 1 := by
    cases s.producer <;> simp [Producer.pending]
  simp only [List.length_append, List.length_map, ConcurrentQueue.length_contents]
  omega

end PipelineState

namespace DbPipeline

variable {localtime : Int → Tm} {config : ProfilingConfig} {s t : DbPipeline}

/-- What has been accepted and is not in the database. -/
def inFlight (s : DbPipeline) : List DbEntry := s.batch ++ s.queue.contents ++ s.buffer

theorem Inv.accepted_eq (hi : s.Inv config) : s.accepted = s.writer.inserted ++ s.inFlight := by
  rw [hi.conserved, inFlight, List.append_assoc, List.append_assoc, List.append_assoc]

/-- No batch is larger than the configured size. -/
theorem batch_step {a : DbPipelineAction} (hi : s.Inv config) (hsize : 0 < config.dbBatchSize)
    (hbatch : s.batch.length ≤ config.dbBatchSize) (h : s.step localtime config a = some t) :
    t.batch.length ≤ config.dbBatchSize := by
  have hzero : ((0 : Nat) : Int) ≤ config.dbBatchSize := by omega
  have hsame : t.thread = s.thread → t.batch.length ≤ config.dbBatchSize := fun heq => by
    rw [batch, heq]
    exact hbatch
  cases a with
  | push chunk timestampNs stackStr =>
      simp only [step, Option.ite_none_right_eq_some, Option.some.injEq] at h
      exact hsame (h.2 ▸ thread_dbWriterPushStack ..)
  | flush =>
      simp only [step] at h
      split at h
      · exact hsame (thread_dbWriterFlush h)
      · exact hsame (thread_dbWriterFlush h)
      · contradiction
  | stop | shutdown =>
      simp only [step, Option.ite_none_right_eq_some, Option.some.injEq] at h
      obtain ⟨-, rfl⟩ := h
      exact hsame rfl
  | testRunning | testSize | testEmptied =>
      simp only [step, Option.ite_none_right_eq_some, Option.some.injEq] at h
      obtain ⟨-, rfl⟩ := h
      simp only [batch]
      split <;> grind
  | pop =>
      obtain ⟨-, ⟨rfl, -⟩ | ⟨queue, rfl, -⟩⟩ := pop_cases hi hsize h
      · exact hzero
      · simp only [batch, List.length_take]
        omega
  | process =>
      simp only [step] at h
      split at h
      · obtain rfl := Option.some.inj h
        exact hzero
      · contradiction

theorem Inv.inFlight_length (hi : s.Inv config) (hbatch : s.batch.length ≤ config.dbBatchSize) :
    (s.inFlight.length : Int) ≤ config.dbBatchSize + queueCapacity + flushThreshold config := by
  have hsize := hi.wf.size_le
  rw [hi.capacity] at hsize
  have hbuffer : (s.buffer.length : Int) ≤ flushThreshold config := by
    have hproducer := hi.producer
    have hpos := flushThreshold_pos config
    simp only [ProducerInv] at hproducer
    split at hproducer
    · exact hproducer.2.2.le
    · exact hproducer.2.2
    · exact hproducer.2.2
    · simp [hproducer.2.2, hpos.le]
    · simp [hproducer.2.2, hpos.le]
  simp only [inFlight, List.length_append, ConcurrentQueue.length_contents, Nat.cast_add]
  omega

/-- A push keeps the entry it has got memory for. -/
theorem push_step {chunk : Option Nat} {timestampNs : UInt64} {stackStr : CString}
    (hi : s.Inv config) (h : s.step localtime config (.push chunk timestampNs stackStr) = some t) :
    t.accepted.map DbEntry.stack = s.accepted.map DbEntry.stack ++
      if chunk.isSome then [(timestampNs, stackStr)] else [] := by
  simp only [step, Option.ite_none_right_eq_some, Option.some.injEq] at h
  obtain ⟨hready, rfl⟩ := h
  have hproducer := hi.producer
  simp only [ProducerInv, hready] at hproducer
  cases chunk with
  | none => simp [dbWriterPushStack]
  | some chunk => simp [dbWriterPushStack, hproducer.1, DbEntry.stack]

theorem accepted_own_step {a : DbPipelineAction} (hown : a.Own)
    (h : s.step localtime config a = some t) : t.accepted = s.accepted := by
  cases a with
  | push chunk timestampNs stackStr => cases hown
  | stop => cases hown
  | shutdown => cases hown
  | flush =>
      simp only [step] at h
      split at h
      case h_3 => contradiction
      all_goals
        unfold dbWriterFlush at h
        split at h
        · obtain rfl := Option.some.inj h
          rfl
        · obtain ⟨_, -, rfl⟩ := Option.map_eq_some_iff.mp h
          rfl
  | testRunning | testSize | testEmptied =>
      simp only [step, Option.ite_none_right_eq_some, Option.some.injEq] at h
      obtain ⟨-, rfl⟩ := h
      rfl
  | pop =>
      simp only [step, Option.ite_none_right_eq_some] at h
      obtain ⟨_, -, rfl⟩ := Option.map_eq_some_iff.mp h.2
      rfl
  | process =>
      simp only [step] at h
      split at h
      · obtain rfl := Option.some.inj h
        rfl
      · contradiction

end DbPipeline

/-! ## The invariant -/

namespace Profiler

/-- The records that the handler was called on, of all rings. -/
def records {useLbr : Bool} (s : Profiler useLbr) : List (List UInt8) :=
  s.rings.current.2.map Prod.snd

/-- Those of them that are samples. -/
def sampleRecords {useLbr : Bool} (s : Profiler useLbr) : List (List UInt8) :=
  s.records.filter fun r => headerType (memOf r) = perfRecordSample

variable {localtime : Int → Tm} {config : ProfilingConfig} {numEvents : Nat}
  {start : Nat → UInt64} {sys : SystemContext} {s t : Profiler config.useLbr}

/-- Each part is in order, and each has from the one before it what that has made. -/
structure Inv (numEvents : Nat) (start : Nat → UInt64) (sys : SystemContext)
    (s : Profiler config.useLbr) : Prop where
  rings : s.rings.Inv noHandler numEvents start ()
  front : s.front.Inv
  capacity : s.front.queue.capacity = 1024
  back : s.back.Inv config
  batch : s.back.batch.length ≤ config.dbBatchSize
  parsed : s.front.headers = s.sampleRecords.map memOf
  sequential : Sequential config.filterMode sys s.front.received
    (s.pushed.map PushedStack.stack) s.sys
  kept : s.back.accepted.map DbEntry.stack =
    (s.pushed.filter (·.kept)).map PushedStack.stack

theorem inv_init (hsize : 0 < config.dbBatchSize)
    (h : (profilerMachine localtime config numEvents start sys).init s) :
    s.Inv numEvents start sys := by
  obtain ⟨hrings, hfront, hsys, hback, hpushed⟩ := h
  have hring := MainLoop.inv_init hrings
  have hcurrent : s.rings.current = ((), []) := by
    obtain ⟨-, -, hcall, hcontext, -⟩ := hrings
    rw [MainLoop.current, hcall, hcontext]
  refine ⟨hring, PipelineState.inv_init (by decide) hfront, ?_, DbPipeline.inv_init localtime hback,
    ?_, ?_, ?_, ?_⟩
  · obtain ⟨-, ⟨mem, hqueue⟩, -⟩ := hfront
    exact (ConcurrentQueue.wf_queueInit (by decide) hqueue).2.2.1
  · obtain ⟨-, -, -, -, hthread, -⟩ := hback
    simp only [DbPipeline.batch, hthread, List.length_nil, Nat.cast_zero]
    exact hsize.le
  · obtain ⟨-, -, -, hproducer, -, hattempts, -⟩ := hfront
    simp [PipelineState.headers, hattempts, hproducer, Producer.parsing, sampleRecords, records,
      hcurrent]
  · obtain ⟨-, -, -, -, -, -, hreceived⟩ := hfront
    rw [hreceived, hpushed, hsys]
    exact .nil
  · obtain ⟨-, -, -, -, -, haccepted, -⟩ := hback
    simp [haccepted, hpushed]

/-- The kernel, and the program between two iterations. -/
theorem Inv.rings_step {a : MainLoopAction} {rings : MainLoop Unit} (hi : s.Inv numEvents start sys)
    (h : s.rings.step noHandler numEvents a = some rings) (ha : a ≠ .iterate) :
    Inv numEvents start sys { s with rings } := by
  obtain ⟨new, hnew, -, hnil⟩ := MainLoop.current_step h
  obtain rfl := hnil ha
  refine { hi with rings := MainLoop.inv_step hi.rings h, parsed := ?_ }
  rw [hi.parsed]
  simp only [sampleRecords, records, hnew, List.append_nil]

theorem inv_iterate {stack : CallchainResult} (hi : s.Inv numEvents start sys)
    (h : s.step localtime config numEvents (.iterate stack) = some t) :
    t.Inv numEvents start sys := by
  simp only [step, Option.ite_none_right_eq_some] at h
  obtain ⟨-, h⟩ := h
  obtain ⟨rings, hrings, h⟩ := Option.bind_eq_some_iff.mp h
  obtain ⟨front, hfront, rfl⟩ := Option.map_eq_some_iff.mp h
  obtain ⟨new, hnew, hlength, -⟩ := MainLoop.current_step hrings
  have hinv := MainLoop.inv_step hi.rings hrings
  rw [hnew, List.drop_left] at hfront
  match new, hlength with
  | [], _ =>
      obtain rfl := Option.some.inj hfront
      refine { hi with rings := hinv, parsed := ?_ }
      rw [hi.parsed]
      simp only [sampleRecords, records, hnew, List.append_nil]
  | [(i, r)], _ =>
      replace hfront : s.front.step (.dispatch (memOf r) stack) = some front := hfront
      obtain ⟨hheaders, hreceived, hqueue⟩ := PipelineState.dispatch_step hfront
      refine { hi with
        rings := hinv
        front := PipelineState.inv_step hi.front hfront
        capacity := (congrArg _ hqueue).trans hi.capacity
        parsed := ?_
        sequential := by
          rw [hreceived]
          exact hi.sequential }
      rw [hheaders, hi.parsed]
      simp only [sampleRecords, records, hnew, List.map_append, List.filter_append, List.map_cons,
        List.map_nil, List.filter_cons, List.filter_nil]
      by_cases hsample : headerType (memOf r) = perfRecordSample <;> simp [hsample]

theorem inv_nextRound {alive : Option (Int → Bool)} (hi : s.Inv numEvents start sys)
    (h : s.step localtime config numEvents (.nextRound alive) = some t) :
    t.Inv numEvents start sys := by
  simp only [step, Option.ite_none_right_eq_some] at h
  obtain ⟨-, h⟩ := h
  obtain ⟨rings, hrings, rfl⟩ := Option.map_eq_some_iff.mp h
  refine { hi.rings_step hrings (by simp) with sequential := ?_ }
  dsimp only
  split
  · exact hi.sequential.cleanup alive
  · exact hi.sequential

theorem inv_front {a : PipelineAction} (hi : s.Inv numEvents start sys)
    (h : s.step localtime config numEvents (.front a) = some t) : t.Inv numEvents start sys := by
  simp only [step, Option.ite_none_right_eq_some] at h
  obtain ⟨hown, h⟩ := h
  obtain ⟨front, hfront, rfl⟩ := Option.map_eq_some_iff.mp h
  obtain ⟨hheaders, hreceived, hcapacity⟩ := PipelineState.own_step hi.front hown hfront
  exact { hi with
    front := PipelineState.inv_step hi.front hfront
    capacity := hcapacity.trans hi.capacity
    parsed := hheaders.trans hi.parsed
    sequential := by
      rw [hreceived]
      exact hi.sequential }

theorem inv_symbolize {reads : SampleReads} {parsed : reads.Parsed} {chunk : Option Nat}
    (hsize : 0 < config.dbBatchSize) (hi : s.Inv numEvents start sys)
    (h : s.step localtime config numEvents (.symbolize reads parsed chunk) = some t) :
    t.Inv numEvents start sys := by
  simp only [step] at h
  split at h
  · next v c hsym =>
    obtain ⟨⟨sys', timestampNs, stackStr⟩, hsample, h⟩ := Option.bind_eq_some_iff.mp h
    obtain ⟨front, hfront, h⟩ := Option.bind_eq_some_iff.mp h
    obtain ⟨back, hback, rfl⟩ := Option.map_eq_some_iff.mp h
    obtain ⟨hheaders, hreceived, hqueue⟩ := PipelineState.symbolize_step hsym hfront
    refine {
      rings := hi.rings
      front := PipelineState.inv_step hi.front hfront
      capacity := (congrArg _ hqueue).trans hi.capacity
      back := DbPipeline.inv_step hsize hi.back hback
      batch := DbPipeline.batch_step hi.back hsize hi.batch hback
      parsed := hheaders.trans hi.parsed
      sequential := ?_
      kept := ?_ }
    · rw [hreceived, List.map_append]
      exact hi.sequential.symbolize parsed hsample
    · rw [DbPipeline.push_step hi.back hback, hi.kept]
      cases chunk <;> simp [PushedStack.stack, List.filter_append]
  · contradiction

theorem inv_back {a : DbPipelineAction} (hsize : 0 < config.dbBatchSize)
    (hi : s.Inv numEvents start sys)
    (h : s.step localtime config numEvents (.back a) = some t) : t.Inv numEvents start sys := by
  simp only [step, Option.ite_none_right_eq_some] at h
  obtain ⟨hown, h⟩ := h
  obtain ⟨back, hback, rfl⟩ := Option.map_eq_some_iff.mp h
  refine { hi with
    back := DbPipeline.inv_step hsize hi.back hback
    batch := DbPipeline.batch_step hi.back hsize hi.batch hback
    kept := ?_ }
  rw [DbPipeline.accepted_own_step hown hback]
  exact hi.kept

theorem inv_step {a : ProfilerAction} (hsize : 0 < config.dbBatchSize)
    (hi : s.Inv numEvents start sys) (h : s.step localtime config numEvents a = some t) :
    t.Inv numEvents start sys := by
  cases a with
  | write i r =>
      obtain ⟨rings, hrings, rfl⟩ := Option.map_eq_some_iff.mp h
      exact hi.rings_step hrings (by simp)
  | read tempBuf =>
      simp only [step, Option.ite_none_right_eq_some] at h
      obtain ⟨rings, hrings, rfl⟩ := Option.map_eq_some_iff.mp h.2
      exact hi.rings_step hrings (by simp)
  | iterate stack => exact inv_iterate hi h
  | nextRound alive => exact inv_nextRound hi h
  | front a => exact inv_front hi h
  | symbolize reads parsed chunk => exact inv_symbolize hsize hi h
  | back a => exact inv_back hsize hi h

theorem inv_of_reachable (hsize : 0 < config.dbBatchSize)
    (h : (profilerMachine localtime config numEvents start sys).Reachable s) :
    s.Inv numEvents start sys :=
  (profilerMachine localtime config numEvents start sys).invariant (fun _ => inv_init hsize)
    (fun _ _ _ hi hstep => inv_step hsize hi hstep) h

end Profiler

/-! ## The clock -/

/-- `realtime_timestamp_ns` of a sample with this `timestamp_ns` -/
def SystemContext.realtimeNs (sys : SystemContext) (timestampNs : UInt64) : UInt64 :=
  if sys.monotonicStartNs ≠ 0 ∧ sys.realtimeStartNs ≠ 0 then
    timestampNs - sys.monotonicStartNs + sys.realtimeStartNs
  else timestampNs

/-- The two were started at the same time. -/
structure SystemContext.SameClock (sys sys' : SystemContext) : Prop where
  monotonic : sys'.monotonicStartNs = sys.monotonicStartNs
  realtime : sys'.realtimeStartNs = sys.realtimeStartNs

namespace SystemContext

variable {sys sys' sys'' : SystemContext} {pid : Int}

theorem SameClock.refl (sys : SystemContext) : sys.SameClock sys := ⟨rfl, rfl⟩

theorem SameClock.trans (h : sys.SameClock sys') (h' : sys'.SameClock sys'') :
    sys.SameClock sys'' :=
  ⟨h'.monotonic.trans h.monotonic, h'.realtime.trans h.realtime⟩

theorem SameClock.realtimeNs (h : sys.SameClock sys') : sys'.realtimeNs = sys.realtimeNs := by
  funext timestampNs
  simp only [SystemContext.realtimeNs, h.monotonic, h.realtime]

theorem sameClock_findNew {reads : ProcReads} {found : Option ProcessNode}
    (h : sys.findNew pid reads = (sys', found)) : sys.SameClock sys' := by
  obtain ⟨rfl, -⟩ := Prod.mk.inj h
  exact ⟨rfl, rfl⟩

theorem sameClock_userFuncName {node : ProcessNode} {currentIp : UInt64} {reads : ElfReads}
    {funcName : CString} (h : userFuncName sys pid node currentIp reads = some (sys', funcName)) :
    sys.SameClock sys' := by
  have helf : ∀ addr vma elf sys₁, sys.elfOfVma pid addr currentIp vma reads = (sys₁, elf) →
      sys.SameClock sys₁ := fun addr vma elf sys₁ helf => by
    unfold elfOfVma at helf
    split at helf <;> obtain ⟨rfl, -⟩ := Prod.mk.inj helf <;> exact ⟨rfl, rfl⟩
  unfold userFuncName at h
  split at h
  · obtain ⟨rfl, -⟩ := Prod.mk.inj (Option.some.inj h)
    exact .refl sys
  split at h
  · obtain ⟨rfl, -⟩ := Prod.mk.inj (Option.some.inj h)
    exact .refl sys
  split at h
  · obtain ⟨rfl, -⟩ := Prod.mk.inj (Option.some.inj h)
    exact .refl sys
  split at h
  · obtain ⟨rfl, -⟩ := Prod.mk.inj (Option.some.inj h)
    exact .refl sys
  split at h
  · next hcall =>
    obtain ⟨rfl, -⟩ := Prod.mk.inj (Option.some.inj h)
    exact helf _ _ _ _ hcall
  · next hcall =>
    obtain ⟨_, -, heq⟩ := Option.map_eq_some_iff.mp h
    obtain ⟨rfl, -⟩ := Prod.mk.inj heq
    exact helf _ _ _ _ hcall

/-- No frame touches the clock. -/
theorem sameClock_symbolizeFrame {filterMode : FilterMode} {c c' : Flame} {currentIp : UInt64}
    {reads : FrameReads}
    (h : symbolizeFrame filterMode pid sys c currentIp reads = some (sys', c')) :
    sys.SameClock sys' := by
  cases symbolizeFrame_cases h with
  | filtered => exact .refl sys
  | kernel => exact .refl sys
  | unknown => exact .refl sys
  | same _ _ _ _ hname => exact sameClock_userFuncName hname
  | gone _ _ _ _ hfind =>
      obtain ⟨rfl, -⟩ := Prod.mk.inj hfind
      exact ⟨rfl, rfl⟩
  | replaced _ _ _ _ hfind hname =>
      obtain ⟨rfl, -⟩ := Prod.mk.inj hfind
      exact ⟨(sameClock_userFuncName hname).monotonic, (sameClock_userFuncName hname).realtime⟩

theorem sameClock_frameLoop {filterMode : FilterMode} {reads : Nat → FrameReads} {i : Nat}
    {ips : List UInt64} {c c' : Flame}
    (h : frameLoop filterMode pid reads i ips sys c = some (sys', c')) : sys.SameClock sys' := by
  induction ips generalizing i sys c with
  | nil =>
      obtain ⟨rfl, -⟩ := Prod.mk.inj (Option.some.inj h)
      exact .refl sys
  | cons ip ips ih =>
      obtain ⟨⟨sys₁, c₁⟩, hframe, hloop⟩ := Option.bind_eq_some_iff.mp h
      exact (sameClock_symbolizeFrame hframe).trans (ih hloop)

/-- The time of a stack is that of its sample. -/
theorem symbolizeSample_clock {filterMode : FilterMode} {callchain : CallchainResult}
    {reads : SampleReads} {stack : UInt64 × CString}
    (h : symbolizeSample filterMode sys callchain reads = some (sys', stack)) :
    sys.SameClock sys' ∧ stack.1 = sys.realtimeNs callchain.sample.timestampNs := by
  obtain ⟨⟨sys₁, c⟩, hloop, heq⟩ := Option.map_eq_some_iff.mp h
  obtain ⟨rfl, rfl⟩ := Prod.mk.inj heq
  have hclock := (sameClock_findNew rfl).trans (sameClock_frameLoop hloop)
  exact ⟨hclock, congrFun hclock.realtimeNs _⟩

end SystemContext

/-- Each sample has one stack, with its time. -/
theorem Sequential.times {filterMode : FilterMode} {sys sys' : SystemContext}
    {samples : List Sample} {outputs : List (UInt64 × CString)}
    (h : Sequential filterMode sys samples outputs sys') :
    sys.SameClock sys' ∧
      outputs.map Prod.fst = samples.map fun x => sys.realtimeNs x.timestampNs := by
  induction h with
  | nil => exact ⟨.refl sys, rfl⟩
  | symbolize h parsed eq ih =>
      obtain ⟨hclock, htime⟩ := SystemContext.symbolizeSample_clock eq
      refine ⟨ih.1.trans hclock, ?_⟩
      rw [List.map_append, List.map_append, ih.2, List.map_singleton, List.map_singleton, htime,
        ih.1.realtimeNs]
  | cleanup h alive ih =>
      refine ⟨ih.1.trans ?_, ih.2⟩
      cases alive <;> exact ⟨rfl, rfl⟩

/-! ## From the rings to the database -/

section

variable {localtime : Int → Tm} {config : ProfilingConfig} {numEvents : Nat}
  {start : Nat → UInt64} {sys : SystemContext} {s : Profiler config.useLbr}

end

/-- One ring, a pool of one chunk, and the default configuration. -/
def startedProfiler : Profiler noArguments.useLbr where
  rings := ⟨startedMainLoop.events, 0, none, ((), []), 0, fun _ => []⟩
  front :=
    { pool := ⟨Function.update (fun _ => 0) 0 0, 1, 0, 1⟩
      queue := ⟨fun _ => 0, 1024, 0, 0, 0, false⟩
      heap := fun _ => ⟨0, 0, 0, 0, 0, fun _ => 0⟩
      fresh := 1
      freed := []
      producer := .idle
      symbolizer := .popping
      attempts := []
      received := [] }
  sys := withSymbols .nil
  back := startedPipeline noArguments
  pushed := []

theorem init_startedProfiler :
    (profilerMachine firstDay noArguments 1 (fun _ => 0 - 20) (withSymbols .nil)).init
      startedProfiler :=
  ⟨⟨init_startedMainLoop.1, rfl, rfl, rfl, rfl⟩, ⟨⟨0, rfl⟩, ⟨fun _ => 0, rfl⟩, rfl, rfl, rfl, rfl, rfl⟩,
    rfl, init_startedPipeline firstDay noArguments, rfl⟩

/-- A record is written, and its stack gets an entry. -/
def oneSample : List ProfilerAction :=
  [.write 0 (smallRecord 1), .read fun _ => 0, .iterate ⟨0, 0, 0, 0, 0, fun _ => 0⟩,
    .front (.alloc true), .front .fill, .front .push, .front .pop, .front .copy,
    .symbolize noProcess parsed_noProcess (some 0)]

end Profiling
