import Profiling.Config
import Profiling.Sample

/-!
# Profiling.Perf.Init

`perf_event_init_with_config` of `src/perf/perf.c`: one event for each CPU,
with the retry that turns LBR off.

The system calls are an environment, indexed by the attempt (`0` before the
`goto retry_create`, `1` after it) and the CPU.  Every call on a descriptor, a
mapping or the manager is logged in the order made; the manager stays usable
in the model after `cleanup_events` has freed it, as it does in the source.
An event carries the attributes that the kernel opened it with, so that the
manager says which records will be written into its rings.
-/

namespace Profiling

/-- An `errno` value. -/
abbrev Errno := Nat

def eInval : Errno := 22

/-- `EOPNOTSUPP` and `ENOTSUP` are one number on Linux. -/
def eOpNotSupp : Errno := 95

/-- What `build_perf_attr` sets of `struct perf_event_attr`. -/
structure PerfEventAttr where
  type : Nat
  config : Nat
  sampleType : UInt64
  branchSampleType : Nat
  sampleRegsUser : UInt64
  useClockid : Bool
  clockid : Nat
  freq : Bool
  sampleFreq : Int
  sampleMaxStack : Int
  disabled : Bool
  excludeKernel : Bool
  excludeIdle : Bool
  deriving DecidableEq, Repr

def perfTypeHardware : Nat := 0
def perfTypeSoftware : Nat := 1
def perfCountHwBranchInstructions : Nat := 4
def perfCountSwCpuClock : Nat := 0
def perfSampleBranchAny : Nat := 8
def clockMonotonic : Nat := 1

/-- `build_perf_attr` -/
def buildPerfAttr (config : ProfilingConfig) : PerfEventAttr where
  type := if config.useLbr then perfTypeHardware else perfTypeSoftware
  config := if config.useLbr then perfCountHwBranchInstructions else perfCountSwCpuClock
  sampleType :=
    if config.useLbr then
      perfSampleIp ||| perfSampleTid ||| perfSampleBranchStack ||| perfSampleRegsUser
        ||| perfSampleTime
    else
      perfSampleIp ||| perfSampleTid ||| perfSampleCallchain ||| perfSampleRegsUser
        ||| perfSampleTime
  branchSampleType := if config.useLbr then perfSampleBranchAny else 0
  sampleRegsUser := ((1 : UInt64) <<< 6) ||| ((1 : UInt64) <<< 7)
  useClockid := true
  clockid := clockMonotonic
  freq := true
  sampleFreq := config.samplingFrequency
  sampleMaxStack := config.maxStackDepth
  disabled := true
  excludeKernel := false
  excludeIdle := true

/-- A slot of the manager's event array.  `attr` is what the kernel opened
`fd` with. -/
structure EventSlot where
  fd : Int
  attr : Option PerfEventAttr
  cpu : Nat
  targetPid : Int
  mmapPage : Option Nat
  mmapSize : Int
  pagesize : Int

/-- A slot as `calloc` leaves it. -/
def EventSlot.zero : EventSlot := ⟨0, none, 0, 0, none, 0, 0⟩

/-- `struct perf_event_manager` -/
structure PerfEventManager where
  events : Nat → EventSlot
  numEvents : Nat
  numCpus : Nat

/-- The outcomes of the system calls. -/
structure PerfEnv where
  /-- `sysconf(_SC_NPROCESSORS_ONLN)` -/
  nprocs : Int
  callocManager : Bool
  callocEvents : Bool
  /-- `perf_event_open` in an attempt, for a CPU -/
  perfEventOpen : Nat → Nat → Except Errno Nat
  /-- `sysconf(_SC_PAGESIZE)` inside `perf_add_sample_event_mmap` -/
  pagesize : Nat → Nat → Int
  mmap : Nat → Nat → Option Nat
  /-- `sysconf(_SC_PAGESIZE)` after it -/
  pagesizeAgain : Nat → Nat → Int

/-- The calls made on what the function owns. -/
inductive PerfCall where
  | opened (fd : Nat) (attr : PerfEventAttr)
  | mapped (page : Nat)
  | closed (fd : Int)
  | unmapped (page : Nat)
  | freedManager
  /-- a read or write of the manager or its event array -/
  | usedManager
  deriving DecidableEq, Repr

/-- The event array and the log so far. -/
structure PerfState where
  events : Nat → EventSlot
  log : List PerfCall

namespace PerfState

/-- Append to the log. -/
def logged (st : PerfState) (calls : List PerfCall) : PerfState :=
  { st with log := st.log ++ calls }

/-- Write one slot of the event array. -/
def writeSlot (st : PerfState) (cpu : Nat) (slot : EventSlot) : PerfState :=
  { events := Function.update st.events cpu slot, log := st.log ++ [.usedManager] }

/-- `cleanup_events(manager, last_event)` -/
def cleanupEvents (st : PerfState) (lastEvent : Nat) : PerfState :=
  st.logged <|
    .usedManager ::
      ((List.range lastEvent).flatMap (fun i =>
        (if 0 ≤ (st.events i).fd then [.closed (st.events i).fd] else [])
          ++ (st.events i).mmapPage.toList.map .unmapped)
        ++ [.freedManager])

end PerfState

/-- How the loop over the CPUs ends. -/
inductive LoopEnd where
  | done
  /-- `goto retry_create` -/
  | retry
  /-- `return NULL` -/
  | failed
  deriving DecidableEq, Repr

/-- The loop over the CPUs, from the next CPU on. -/
def createEvents (env : PerfEnv) (attempt : Nat) (pe : PerfEventAttr) (lbrEnabled : Bool) :
    List Nat → PerfState → PerfState × LoopEnd
  | [], st => (st, .done)
  | cpu :: cpus, st =>
      match env.perfEventOpen attempt cpu with
      | .error errno =>
          if lbrEnabled = true ∧ (errno = eInval ∨ errno = eOpNotSupp) then
            (st.cleanupEvents cpu, .retry)
          else (st.cleanupEvents cpu, .failed)
      | .ok fd =>
          let pagesize := env.pagesize attempt cpu
          let slot : EventSlot := { st.events cpu with fd, attr := some pe, cpu, targetPid := -1 }
          let st := st.logged [.opened fd pe]
          if pagesize < 0 then
            ((st.writeSlot cpu { slot with mmapPage := none }).cleanupEvents (cpu + 1), .failed)
          else
            let slot := { slot with mmapSize := 1 * 1024 * 1024 + pagesize }
            match env.mmap attempt cpu with
            | none =>
                ((st.writeSlot cpu { slot with mmapPage := none }).cleanupEvents (cpu + 1), .failed)
            | some page =>
                let slot := { slot with mmapPage := some page }
                let st := st.logged [.mapped page]
                if env.pagesizeAgain attempt cpu < 0 then
                  ((st.writeSlot cpu slot).cleanupEvents (cpu + 1), .failed)
                else
                  createEvents env attempt pe lbrEnabled cpus
                    (st.writeSlot cpu { slot with pagesize := env.pagesizeAgain attempt cpu })

/-- From `retry_create:` to the end of the loop. -/
def retryCreate (env : PerfEnv) (config : ProfilingConfig) (numCpus attempt : Nat)
    (lbrEnabled : Bool) (st : PerfState) : PerfState × LoopEnd :=
  let tmpCfg := { config with useLbr := lbrEnabled }
  createEvents env attempt (buildPerfAttr tmpCfg) lbrEnabled (List.range numCpus) st

/-- `perf_event_init_with_config`, with its log. -/
def perfEventInitWithConfig (config : ProfilingConfig) (env : PerfEnv) :
    Option PerfEventManager × List PerfCall :=
  if env.nprocs < 0 then (none, [])
  else
    let numCpus := env.nprocs.toNat
    if env.callocManager = false then (none, [])
    else if env.callocEvents = false then (none, [.freedManager])
    else
      let first := retryCreate env config numCpus 0 config.useLbr ⟨fun _ => EventSlot.zero, []⟩
      -- the second time around LBR is off and nothing asks for a retry
      let last :=
        if first.2 = .retry then retryCreate env config numCpus 1 false first.1 else first
      if last.2 = .done then (some ⟨last.1.events, numCpus, numCpus⟩, last.1.log)
      else (none, last.1.log)

/-! ## What the events were opened with -/

section

variable {env : PerfEnv} {attempt : Nat} {pe : PerfEventAttr} {lbrEnabled : Bool}

/-- A loop that reaches its end has opened an event for each of its CPUs, with
the attributes of this attempt. -/
theorem createEvents_done {cpus : List Nat} {st st' : PerfState} (hnodup : cpus.Nodup)
    (h : createEvents env attempt pe lbrEnabled cpus st = (st', .done)) :
    (∀ cpu ∈ cpus, (st'.events cpu).attr = some pe ∧
      ∃ fd, env.perfEventOpen attempt cpu = .ok fd) ∧
    ∀ cpu ∉ cpus, st'.events cpu = st.events cpu := by
  induction cpus generalizing st with
  | nil =>
      obtain rfl := (Prod.ext_iff.mp h).1
      exact ⟨fun cpu hcpu => absurd hcpu (List.not_mem_nil), fun _ _ => rfl⟩
  | cons c cpus ih =>
      obtain ⟨hc, hnodup⟩ := List.nodup_cons.mp hnodup
      rw [createEvents] at h
      cases hopen : env.perfEventOpen attempt c with
      | error e =>
          rw [hopen] at h
          dsimp only at h
          split at h <;> simp at h
      | ok fd =>
          rw [hopen] at h
          dsimp only at h
          split at h
          · simp at h
          · cases hmap : env.mmap attempt c with
            | none => simp [hmap] at h
            | some page =>
                rw [hmap] at h
                dsimp only at h
                split at h
                · simp at h
                · obtain ⟨hin, hout⟩ := ih hnodup h
                  refine ⟨fun cpu hcpu => ?_, fun cpu hcpu => ?_⟩
                  · obtain rfl | hcpu := List.mem_cons.mp hcpu
                    · refine ⟨?_, fd, hopen⟩
                      rw [hout cpu hc]
                      simp [PerfState.writeSlot]
                    · exact hin cpu hcpu
                  · rw [List.mem_cons, not_or] at hcpu
                    rw [hout cpu hcpu.2]
                    simp [PerfState.writeSlot, PerfState.logged, hcpu.1]

/-- A loop asks for a retry only with LBR on, when an event could not be opened. -/
theorem createEvents_retry {cpus : List Nat} {st st' : PerfState}
    (h : createEvents env attempt pe lbrEnabled cpus st = (st', .retry)) :
    lbrEnabled = true ∧ ∃ cpu ∈ cpus, ∃ errno, env.perfEventOpen attempt cpu = .error errno := by
  induction cpus generalizing st with
  | nil => simp [createEvents] at h
  | cons c cpus ih =>
      rw [createEvents] at h
      cases hopen : env.perfEventOpen attempt c with
      | error e =>
          rw [hopen] at h
          dsimp only at h
          split at h
          · next hlbr => exact ⟨hlbr.1, c, List.mem_cons_self, e, hopen⟩
          · simp at h
      | ok fd =>
          rw [hopen] at h
          dsimp only at h
          split at h
          · simp at h
          · cases hmap : env.mmap attempt c with
            | none => simp [hmap] at h
            | some page =>
                rw [hmap] at h
                dsimp only at h
                split at h
                · simp at h
                · obtain ⟨hlbr, cpu, hcpu, hfail⟩ := ih h
                  exact ⟨hlbr, cpu, List.mem_cons_of_mem _ hcpu, hfail⟩

end

/-! ## The layout that is decoded -/

/-- `parse_sample_data` under this configuration decodes what the manager's
events record: the layouts agree, and every sample that the kernel writes for
one of its events is recovered. -/
def PerfEventManager.Decodable (m : PerfEventManager) (config : ProfilingConfig) : Prop :=
  ∀ cpu < m.numEvents, ∃ pe, (m.events cpu).attr = some pe ∧
    LayoutAgrees config.useLbr pe.sampleType ∧
    ∀ (s : KernelSample) (header : Mem) (result : CallchainResult),
      (s.encodeSample pe.sampleType).length < 65536 →
      header.Shows 0 (s.encodeSample pe.sampleType) →
      s.DecodesTo pe.sampleType (parseSampleData config.useLbr header result maxStackDepthCopy)

theorem sampleType_buildPerfAttr (config : ProfilingConfig) :
    (buildPerfAttr config).sampleType =
      if config.useLbr then
        perfSampleIp ||| perfSampleTid ||| perfSampleBranchStack ||| perfSampleRegsUser
          ||| perfSampleTime
      else
        perfSampleIp ||| perfSampleTid ||| perfSampleCallchain ||| perfSampleRegsUser
          ||| perfSampleTime := rfl

/-- `build_perf_attr` selects the layout for the `use_lbr` it is given. -/
theorem layoutAgrees_buildPerfAttr (config : ProfilingConfig) :
    LayoutAgrees config.useLbr (buildPerfAttr config).sampleType := by
  rw [sampleType_buildPerfAttr]
  cases config.useLbr <;> constructor <;> decide

/-- The call-chain layout is not the one decoded with LBR on. -/
theorem not_layoutAgrees_fallback (config : ProfilingConfig) :
    ¬LayoutAgrees true (buildPerfAttr { config with useLbr := false }).sampleType := fun h =>
  absurd (h.branchStack.mpr rfl) (by
    rw [sampleType_buildPerfAttr, if_neg Bool.false_ne_true]
    decide)

section

variable {config : ProfilingConfig} {env : PerfEnv} {numCpus : Nat} {st st' : PerfState}

/-- Events that were opened at the first attempt are decoded as they record. -/
theorem decodable_of_done (h : retryCreate env config numCpus 0 config.useLbr st = (st', .done)) :
    (PerfEventManager.mk st'.events numCpus numCpus).Decodable config ∧
      ∀ cpu < numCpus, ∃ fd, env.perfEventOpen 0 cpu = .ok fd := by
  obtain ⟨hin, -⟩ := createEvents_done List.nodup_range h
  have hlay := layoutAgrees_buildPerfAttr config
  constructor
  · intro cpu hcpu
    exact ⟨_, (hin cpu (List.mem_range.mpr hcpu)).1, hlay, fun s header result hfits hsh =>
      KernelSample.decodesTo_of_layoutAgrees hlay hfits hsh result⟩
  · exact fun cpu hcpu => (hin cpu (List.mem_range.mpr hcpu)).2

/-- Events that were opened after the fallback record a call chain, which is
not what is decoded with LBR on. -/
theorem not_decodable_of_fallback (hlbr : config.useLbr = true) (hpos : 0 < numCpus)
    (h : retryCreate env config numCpus 1 false st = (st', .done)) :
    ¬(PerfEventManager.mk st'.events numCpus numCpus).Decodable config := by
  intro hdec
  obtain ⟨hin, -⟩ := createEvents_done List.nodup_range h
  obtain ⟨pe, hpe, hlay, -⟩ := hdec 0 hpos
  have hattr := (hin 0 (List.mem_range.mpr hpos)).1
  obtain rfl := Option.some.inj (hattr.symm.trans hpe)
  rw [hlbr] at hlay
  exact not_layoutAgrees_fallback config hlay

end

/-- The configuration of `--lbr`. -/
def lbrConfig : ProfilingConfig := { defaultConfig with useLbr := true }

/-- Two CPUs whose kernel opens every event. -/
def lbrEnv : PerfEnv where
  nprocs := 2
  callocManager := true
  callocEvents := true
  perfEventOpen _ cpu := .ok (3 + cpu)
  pagesize _ _ := 4096
  mmap _ cpu := some (1 + cpu)
  pagesizeAgain _ _ := 4096

/-- One CPU whose kernel refuses the branch stack and then opens the event. -/
def noLbrEnv : PerfEnv where
  nprocs := 1
  callocManager := true
  callocEvents := true
  perfEventOpen attempt _ := if attempt = 0 then .error eOpNotSupp else .ok 3
  pagesize _ _ := 4096
  mmap _ _ := some 1
  pagesizeAgain _ _ := 4096

/-- A user-space sample two frames deep. -/
def twoFrames : KernelSample where
  misc := 2
  ip := 0x401136
  pid := 42
  tid := 42
  time := 1000
  callchain := [0xfffffffffffffe00, 0x401136]
  branches := []
  userRegs := none

end Profiling
