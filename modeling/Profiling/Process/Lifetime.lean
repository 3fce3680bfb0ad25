import Profiling.Config
import Profiling.Machine
import Profiling.Process

/-!
# Profiling.Process.Lifetime

The records of the process table while `symbolize_sample` of
`src/core/handler.c` holds pointers to them.

The symbolizer thread looks its record up, runs its frame loop and formats the
row; meanwhile processes die and are born, and the main thread may run
`cleanup_dead_processes`.  Each of these is one step over one table.  Reading
a record that is no longer there is undefined, so such a step is `none`.
-/

namespace Profiling

/-- `is_kernel_addr` -/
def isKernelAddr (ip : UInt64) : Bool := ip &&& 0x8000000000000000 ≠ 0

/-- The frame loop looks at `proc_info` for this address: a user-space address
that the filter lets through. -/
def usesProcess (filterMode : FilterMode) (ip : UInt64) : Bool :=
  !isKernelAddr ip && filterMode ≠ .kernel

/-- The local variables of `symbolize_sample` that this is about.  `procInfo`
and `processName` are the address of the record they point into; `none` is
`NULL`, respectively the literal `"unknown"`. -/
structure Sampling where
  pid : Int
  /-- the addresses that are still to be symbolized -/
  ips : List UInt64
  procInfo : Option Nat
  processName : Option Nat
  deriving DecidableEq, Repr

/-- The records that the symbolizer holds a pointer into and will still read:
`proc_info` if an address is left that it is looked at for, and `process_name`,
which the row is formatted with. -/
def Sampling.held (filterMode : FilterMode) (c : Sampling) : List Nat :=
  (if c.ips.any (usesProcess filterMode) then c.procInfo.toList else []) ++ c.processName.toList

/-- The table, what runs, and where the symbolizer is. -/
structure LifetimeState where
  table : ProcessTable
  /-- the start times of the running processes -/
  procs : Int → Option Nat
  /-- the address that the next `calloc` returns -/
  fresh : Nat
  freed : List Nat
  sampling : Option Sampling

/-- The steps of the symbolizer, of the system, and of the main thread. -/
inductive LifetimeAction where
  | lookup (pid : Int) (ips : List UInt64) (reads : ProcReads)
  | frame (reads : ProcReads)
  | format
  | die (pid : Int)
  | spawn (pid : Int) (startTime : Nat)
  | cleanup

namespace LifetimeState

/-- `is_process_alive` -/
def alive (s : LifetimeState) (pid : Int) : Bool := (s.procs pid).isSome

/-- `get_process_start_time` -/
def startTime (s : LifetimeState) (pid : Int) : Nat := (s.procs pid).getD 0

/-- `find_new_process`, answered by what runs. -/
def findNew (s : LifetimeState) (table : ProcessTable) (pid : Int) (reads : ProcReads) :
    ProcessTable × Option ProcessNode :=
  findNewProcess table pid { reads with startTime := s.startTime pid, alive := s.alive pid }
    s.fresh

/-- The record at an address. -/
def deref (s : LifetimeState) (addr : Nat) : Option ProcessNode :=
  ((List.range hashtableSize).flatMap s.table).find? fun node => node.addr = addr

/-- The locals after a lookup: `process_name` is the record's, unless that is `NULL`. -/
def sampled (pid : Int) (ips : List UInt64) (found : Option ProcessNode) : Sampling where
  pid := pid
  ips := ips
  procInfo := found.map (·.addr)
  processName := found.bind fun node => node.info.processName.map fun _ => node.addr

/-- One iteration of the frame loop. -/
def frameStep (filterMode : FilterMode) (s : LifetimeState) (c : Sampling) (ip : UInt64)
    (ips : List UInt64) (reads : ProcReads) : Option LifetimeState :=
  let next := { s with sampling := some { c with ips } }
  if usesProcess filterMode ip then
    match c.procInfo with
    | none => some next
    | some addr =>
        (s.deref addr).map fun node =>
          if node.info.startTime ≠ s.startTime node.info.processId then
            -- the pid is held by another process now
            let (table, gone) := removeProcess s.table node.info.processId
            let (table, found) := s.findNew table c.pid reads
            { s with
              table
              fresh := s.fresh + 1
              freed := s.freed ++ (gone.map (·.addr)).toList
              sampling := some (sampled c.pid ips found) }
          else next
  else some next

/-- One step. -/
def step (filterMode : FilterMode) (s : LifetimeState) : LifetimeAction → Option LifetimeState
  | .lookup pid ips reads =>
      match s.sampling with
      | some _ => none
      | none =>
          let (table, found) := s.findNew s.table pid reads
          some { s with table, fresh := s.fresh + 1, sampling := some (sampled pid ips found) }
  | .frame reads =>
      match s.sampling with
      | some c =>
          match c.ips with
          | ip :: ips => s.frameStep filterMode c ip ips reads
          | [] => none
      | none => none
  | .format =>
      match s.sampling with
      | some c =>
          if c.ips = [] ∧ ∀ addr ∈ c.processName, (s.deref addr).isSome then
            some { s with sampling := none }
          else none
      | none => none
  | .die pid => some { s with procs := Function.update s.procs pid none }
  | .spawn pid startTime => some { s with procs := Function.update s.procs pid (some startTime) }
  | .cleanup =>
      let cleaned := cleanupDeadProcesses s.alive s.table
      some { s with table := cleaned.1, freed := s.freed ++ cleaned.2.map (·.addr) }

/-- Every record that the symbolizer holds is in the table and not freed. -/
def Safe (filterMode : FilterMode) (s : LifetimeState) : Prop :=
  ∀ c, s.sampling = some c → ∀ addr ∈ c.held filterMode,
    addr ∉ s.freed ∧ ∃ node, Present s.table node ∧ node.addr = addr

/-- No record of a dead process is held. -/
def NoDeadRecordHeld (filterMode : FilterMode) (s : LifetimeState) : Prop :=
  ∀ c, s.sampling = some c → c.held filterMode = [] ∨ s.alive c.pid = true

instance (filterMode : FilterMode) (s : LifetimeState) :
    Decidable (s.NoDeadRecordHeld filterMode) :=
  match h : s.sampling with
  | none => isTrue (by simp [NoDeadRecordHeld, h])
  | some c =>
      decidable_of_iff (c.held filterMode = [] ∨ s.alive c.pid = true)
        (by simp [NoDeadRecordHeld, h])

/-- `cleanup_dead_processes` runs only when no record of a dead process is held. -/
def CleanupAllowed (filterMode : FilterMode) (s : LifetimeState) : LifetimeAction → Prop
  | .cleanup => s.NoDeadRecordHeld filterMode
  | _ => True

instance (filterMode : FilterMode) (s : LifetimeState) :
    ∀ a, Decidable (s.CleanupAllowed filterMode a)
  | .cleanup => inferInstanceAs (Decidable (s.NoDeadRecordHeld filterMode))
  | .lookup .. | .frame _ | .format | .die _ | .spawn .. => isTrue trivial

end LifetimeState

/-- The machine of these steps, from an empty table. -/
def lifetimeMachine (filterMode : FilterMode) : Machine LifetimeState LifetimeAction where
  init s := s.table = (fun _ => []) ∧ s.freed = [] ∧ s.sampling = none
  step := LifetimeState.step filterMode

namespace LifetimeState

/-! ## The invariant -/

/-- Addresses are used once, and what is held is in the table. -/
structure Inv (filterMode : FilterMode) (s : LifetimeState) : Prop where
  wf : s.table.WF
  addr_lt : ∀ node, Present s.table node → node.addr < s.fresh
  freed_lt : ∀ addr ∈ s.freed, addr < s.fresh
  freed_gone : ∀ node, Present s.table node → node.addr ∉ s.freed
  held : ∀ c, s.sampling = some c → ∀ addr ∈ c.held filterMode,
    ∃ node, Present s.table node ∧ node.addr = addr ∧ node.info.processId = c.pid

theorem Inv.safe {filterMode : FilterMode} {s : LifetimeState} (h : s.Inv filterMode) :
    s.Safe filterMode := by
  intro c hc addr ha
  obtain ⟨node, hn, rfl, -⟩ := h.held c hc addr ha
  exact ⟨h.freed_gone node hn, node, hn, rfl⟩

theorem inv_init (filterMode : FilterMode) {s : LifetimeState}
    (h : (lifetimeMachine filterMode).init s) : s.Inv filterMode := by
  obtain ⟨ht, hf, hs⟩ := h
  have hempty : ∀ node, ¬Present s.table node := by simp [Present, ht]
  constructor
  · rw [ht]
    exact ProcessTable.wf_empty
  · exact fun node hn => absurd hn (hempty node)
  · simp [hf]
  · exact fun node hn => absurd hn (hempty node)
  · simp [hs]

/-- Less is held when an address is done. -/
theorem held_of_tail {filterMode : FilterMode} {c : Sampling} {ip : UInt64} {ips : List UInt64}
    (hips : c.ips = ip :: ips) {addr : Nat} (h : addr ∈ { c with ips }.held filterMode) :
    addr ∈ c.held filterMode := by
  simp only [Sampling.held, List.mem_append, List.mem_ite_nil_right, hips, List.any_cons,
    Bool.or_eq_true] at h ⊢
  exact h.imp_left fun ⟨hips, haddr⟩ => ⟨.inr hips, haddr⟩

/-- The locals after a lookup point only into the record found. -/
theorem mem_held_sampled {filterMode : FilterMode} {pid : Int} {ips : List UInt64}
    {found : Option ProcessNode} {addr : Nat}
    (h : addr ∈ (sampled pid ips found).held filterMode) :
    ∃ node, found = some node ∧ node.addr = addr := by
  cases found with
  | none => simp [sampled, Sampling.held] at h
  | some node =>
      refine ⟨node, rfl, ?_⟩
      rcases List.mem_append.mp h with h | h
      · obtain ⟨-, h⟩ := List.mem_ite_nil_right.mp h
        simpa [sampled, eq_comm] using h
      · simp only [sampled, Option.bind_some, Option.mem_toList, Option.map_eq_some_iff] at h
        obtain ⟨-, -, h⟩ := h
        exact h

section Steps

variable {s t : LifetimeState} {filterMode : FilterMode}

/-- A lookup in a table without freed records leaves the symbolizer with the
record it found, which is in the table. -/
theorem inv_findNew {table : ProcessTable} {freed : List Nat} (hwf : table.WF)
    (haddr : ∀ node, Present table node → node.addr < s.fresh)
    (hfreed : ∀ addr ∈ freed, addr < s.fresh)
    (hgone : ∀ node, Present table node → node.addr ∉ freed)
    (pid : Int) (ips : List UInt64) (reads : ProcReads) :
    Inv filterMode { s with
      table := (s.findNew table pid reads).1
      fresh := s.fresh + 1
      freed
      sampling := some (sampled pid ips (s.findNew table pid reads).2) } := by
  have hfreed' : ∀ addr ∈ freed, addr < s.fresh + 1 := fun addr ha =>
    Nat.lt_succ_of_lt (hfreed addr ha)
  have haddr' : ∀ node, Present table node → node.addr < s.fresh + 1 := fun node hn =>
    Nat.lt_succ_of_lt (haddr node hn)
  rcases findNewProcess_cases table pid
      { reads with startTime := s.startTime pid, alive := s.alive pid } s.fresh with
    ⟨node, hfind, hpid, hpresent⟩ | hfind | ⟨node, hfind, hpid, -, hfresh, hnone⟩
  · rw [findNew, hfind]
    refine ⟨hwf, haddr', hfreed', hgone, ?_⟩
    rintro c hc addr ha
    obtain rfl := Option.some.inj hc
    obtain ⟨n, hn, rfl⟩ := mem_held_sampled ha
    obtain rfl := Option.some.inj hn
    exact ⟨node, hpresent, rfl, hpid⟩
  · rw [findNew, hfind]
    refine ⟨hwf, haddr', hfreed', hgone, ?_⟩
    rintro c hc addr ha
    obtain rfl := Option.some.inj hc
    obtain ⟨n, hn, -⟩ := mem_held_sampled ha
    contradiction
  · rw [findNew, hfind]
    have hnew : ∀ n, Present table n → n.addr ≠ node.addr := by
      intro n hn
      have := haddr n hn
      omega
    refine ⟨hwf.add hpid hnone hnew, fun n hn => ?_, hfreed', fun n hn => ?_, ?_⟩
    · rcases (present_add hpid n).mp hn with hn | rfl
      · exact haddr' n hn
      · dsimp only
        omega
    · rcases (present_add hpid n).mp hn with hn | rfl
      · exact hgone n hn
      · intro hf
        have := hfreed _ hf
        omega
    · rintro c hc addr ha
      obtain rfl := Option.some.inj hc
      obtain ⟨n, hn, rfl⟩ := mem_held_sampled ha
      obtain rfl := Option.some.inj hn
      exact ⟨node, (present_add hpid node).mpr (.inr rfl), rfl, hpid⟩

theorem inv_lookup {pid : Int} {ips : List UInt64} {reads : ProcReads} (hi : s.Inv filterMode)
    (h : s.step filterMode (.lookup pid ips reads) = some t) : t.Inv filterMode := by
  simp only [step] at h
  split at h
  · contradiction
  · obtain rfl := Option.some.inj h
    exact inv_findNew hi.wf hi.addr_lt hi.freed_lt hi.freed_gone pid ips reads

/-- Freeing records that are taken out of the table keeps the rest apart from
what is freed. -/
theorem Inv.free (hi : s.Inv filterMode) {table : ProcessTable} {gone : List Nat}
    (hkept : ∀ n, Present table n → Present s.table n)
    (hgone : ∀ addr ∈ gone, ∃ n, Present s.table n ∧ ¬Present table n ∧ n.addr = addr) :
    (∀ n, Present table n → n.addr < s.fresh) ∧
      (∀ addr ∈ s.freed ++ gone, addr < s.fresh) ∧
      ∀ n, Present table n → n.addr ∉ s.freed ++ gone := by
  refine ⟨fun n hn => hi.addr_lt n (hkept n hn), fun addr ha => ?_, fun n hn ha => ?_⟩
  · rcases List.mem_append.mp ha with ha | ha
    · exact hi.freed_lt addr ha
    · obtain ⟨n, hn, -, rfl⟩ := hgone addr ha
      exact hi.addr_lt n hn
  · rcases List.mem_append.mp ha with ha | ha
    · exact hi.freed_gone n (hkept n hn) ha
    · obtain ⟨n', hn', hout, haddr⟩ := hgone n.addr ha
      obtain rfl := hi.wf.addr n' hn' n (hkept n hn) haddr
      exact hout hn

/-- The pid belongs to another process now: the record is freed, and the
symbolizer holds the one of a new lookup. -/
theorem inv_recycle (hi : s.Inv filterMode) (c : Sampling) (node : ProcessNode)
    (reads : ProcReads) :
    let removed := removeProcess s.table node.info.processId
    let found := s.findNew removed.1 c.pid reads
    Inv filterMode { s with
      table := found.1
      fresh := s.fresh + 1
      freed := s.freed ++ (removed.2.map (·.addr)).toList
      sampling := some (sampled c.pid c.ips found.2) } := by
  have hkept : ∀ n, Present (removeProcess s.table node.info.processId).1 n →
      Present s.table n := fun n hn => ((present_removeProcess hi.wf n).mp hn).1
  have hgone : ∀ addr ∈ ((removeProcess s.table node.info.processId).2.map (·.addr)).toList,
      ∃ n, Present s.table n ∧ ¬Present (removeProcess s.table node.info.processId).1 n ∧
        n.addr = addr := by
    intro addr ha
    simp only [Option.mem_toList, Option.map_eq_some_iff] at ha
    obtain ⟨n, hn, rfl⟩ := ha
    obtain ⟨hpres, hpid⟩ := removeProcess_freed hn
    exact ⟨n, hpres, fun hin => ((present_removeProcess hi.wf n).mp hin).2 hpid, rfl⟩
  obtain ⟨haddr, hlt, hfreed⟩ := hi.free hkept hgone
  exact inv_findNew (hi.wf.removeProcess _) haddr hlt hfreed c.pid c.ips reads

/-- The frame loop lets go of its record before it frees it. -/
theorem inv_frame {reads : ProcReads} (hi : s.Inv filterMode)
    (h : s.step filterMode (.frame reads) = some t) : t.Inv filterMode := by
  simp only [step] at h
  split at h
  · next c hc =>
    split at h
    · next ip ips hips =>
      have hnext : Inv filterMode { s with sampling := some { c with ips } } :=
        ⟨hi.wf, hi.addr_lt, hi.freed_lt, hi.freed_gone, by
          rintro c' hc' addr ha
          obtain rfl := Option.some.inj hc'
          exact hi.held c hc addr (held_of_tail hips ha)⟩
      unfold frameStep at h
      dsimp only at h
      split at h
      · split at h
        · obtain rfl := Option.some.inj h
          exact hnext
        · next addr _ =>
          obtain ⟨node, -, rfl⟩ := Option.map_eq_some_iff.mp h
          split
          · exact inv_recycle hi { c with ips } node reads
          · exact hnext
      · obtain rfl := Option.some.inj h
        exact hnext
    · contradiction
  · contradiction

theorem inv_format (hi : s.Inv filterMode) (h : s.step filterMode .format = some t) :
    t.Inv filterMode := by
  simp only [step] at h
  split at h
  · split at h
    · obtain rfl := Option.some.inj h
      exact ⟨hi.wf, hi.addr_lt, hi.freed_lt, hi.freed_gone, by simp⟩
    · contradiction
  · contradiction

/-- Cleaning up keeps the record that is held, if its process is alive. -/
theorem inv_cleanup (hi : s.Inv filterMode) (hallowed : s.NoDeadRecordHeld filterMode)
    (h : s.step filterMode .cleanup = some t) : t.Inv filterMode := by
  obtain rfl := Option.some.inj h
  have hkept : ∀ n, Present (cleanupDeadProcesses s.alive s.table).1 n → Present s.table n :=
    fun n hn => ((present_cleanup s.alive n).mp hn).1
  have hgone : ∀ addr ∈ (cleanupDeadProcesses s.alive s.table).2.map (·.addr),
      ∃ n, Present s.table n ∧ ¬Present (cleanupDeadProcesses s.alive s.table).1 n ∧
        n.addr = addr := by
    intro addr ha
    obtain ⟨n, hn, rfl⟩ := List.mem_map.mp ha
    obtain ⟨hpres, hdead⟩ := (mem_cleanup_freed hi.wf s.alive n).mp hn
    exact ⟨n, hpres, fun hin => by simp [((present_cleanup s.alive n).mp hin).2] at hdead, rfl⟩
  obtain ⟨haddr, hlt, hfreed⟩ := hi.free hkept hgone
  refine ⟨hi.wf.cleanup s.alive, haddr, hlt, hfreed, ?_⟩
  intro c hc a ha
  obtain ⟨node, hn, rfl, hpid⟩ := hi.held c hc a ha
  rcases hallowed c hc with hnil | halive
  · simp [hnil] at ha
  · exact ⟨node, (present_cleanup s.alive node).mpr ⟨hn, by rw [hpid, halive]⟩, rfl, hpid⟩

theorem inv_step {a : LifetimeAction} (hi : s.Inv filterMode)
    (hallowed : s.CleanupAllowed filterMode a)
    (h : s.step filterMode a = some t) : t.Inv filterMode := by
  cases a with
  | lookup pid ips reads => exact inv_lookup hi h
  | frame reads => exact inv_frame hi h
  | format => exact inv_format hi h
  | die pid =>
      obtain rfl := Option.some.inj h
      exact ⟨hi.wf, hi.addr_lt, hi.freed_lt, hi.freed_gone, hi.held⟩
  | spawn pid startTime =>
      obtain rfl := Option.some.inj h
      exact ⟨hi.wf, hi.addr_lt, hi.freed_lt, hi.freed_gone, hi.held⟩
  | cleanup => exact inv_cleanup hi hallowed h

/-- A cleanup that is not allowed frees a record that is held. -/
theorem not_safe_of_cleanup (hi : s.Inv filterMode) (hdead : ¬s.NoDeadRecordHeld filterMode)
    (h : s.step filterMode .cleanup = some t) : ¬t.Safe filterMode := by
  obtain rfl := Option.some.inj h
  simp only [NoDeadRecordHeld, not_forall, not_or] at hdead
  obtain ⟨c, hc, hne, hdead⟩ := hdead
  obtain ⟨addr, ha⟩ := List.exists_mem_of_ne_nil _ hne
  obtain ⟨node, hn, rfl, hpid⟩ := hi.held c hc addr ha
  intro hsafe
  have hgone : node ∈ (cleanupDeadProcesses s.alive s.table).2 :=
    (mem_cleanup_freed hi.wf s.alive node).mpr ⟨hn, by simpa [hpid] using hdead⟩
  exact (hsafe c hc node.addr ha).1 (by simpa using .inr ⟨node, hgone, rfl⟩)

/-- The frame loop cannot read a record that is gone. -/
theorem frame_of_gone {c : Sampling} {ip : UInt64} {ips : List UInt64} {addr : Nat}
    {reads : ProcReads} (hc : s.sampling = some c) (hips : c.ips = ip :: ips)
    (huses : usesProcess filterMode ip = true) (hinfo : c.procInfo = some addr)
    (hgone : s.deref addr = none) : s.step filterMode (.frame reads) = none := by
  simp [step, frameStep, hc, hips, huses, hinfo, hgone]

/-- A cleanup when no process is alive leaves no record. -/
theorem deref_cleanup (hdead : ∀ pid, s.alive pid = false)
    (h : s.step filterMode .cleanup = some t) (addr : Nat) : t.deref addr = none := by
  obtain rfl := Option.some.inj h
  have hempty : ∀ i ∈ List.range hashtableSize,
      (cleanupDeadProcesses s.alive s.table).1 i = [] := by
    intro i hi
    simp [cleanupDeadProcesses, cleanupChain_eq, hdead, List.mem_range.mp hi]
  rw [deref, List.flatMap_eq_nil_iff.mpr hempty]
  rfl

end Steps

end LifetimeState

/-- **When held records live.**  In every run in which `cleanup_dead_processes`
never runs while a record of a dead process is held, each record that the
symbolizer holds is in the table and not freed.  A cleanup at any other moment
of such a run frees a record that is held. -/
theorem held_records_live {filterMode : FilterMode} {s : LifetimeState}
    (h : ((lifetimeMachine filterMode).guard
      (LifetimeState.CleanupAllowed filterMode)).Reachable s) :
    s.Safe filterMode ∧ (¬s.NoDeadRecordHeld filterMode →
      ∀ t, s.step filterMode .cleanup = some t → ¬t.Safe filterMode) := by
  have hi : s.Inv filterMode :=
    ((lifetimeMachine filterMode).guard (LifetimeState.CleanupAllowed filterMode)).invariant
      (fun _ => LifetimeState.inv_init filterMode) (fun s a t hs hstep => by
        obtain ⟨hallowed, hstep⟩ := (lifetimeMachine filterMode).guard_step_eq_some.mp hstep
        exact LifetimeState.inv_step hs hallowed hstep) h
  exact ⟨hi.safe, fun hdead t => LifetimeState.not_safe_of_cleanup hi hdead⟩

/-! ## A cleanup at the wrong moment -/

/-- What `/proc` says about a process with one memory area. -/
def someReads : ProcReads where
  calloc := true
  dupName := true
  dupCmdline := true
  startTime := 0
  comm := some (cstr "sleep\n")
  cmdline := some (cstr "sleep")
  alive := true
  maps := some .nil

/-- Process 42 runs, and nothing is known of it yet. -/
def beforeLookup : LifetimeState where
  table _ := []
  procs := Function.update (fun _ => none) 42 (some 7)
  fresh := 0
  freed := []
  sampling := none

/-- The state after the record of process 42 is found, for a sample of these addresses. -/
def afterLookup (ips : List UInt64) : LifetimeState :=
  let found := beforeLookup.findNew beforeLookup.table 42 someReads
  { beforeLookup with
    table := found.1
    fresh := 1
    sampling := some (LifetimeState.sampled 42 ips found.2) }

/-- The record is found, and a sample of two frames is symbolized up to the second. -/
theorem held_records_live_two_frames :
    ∃ s, ((lifetimeMachine .all).guard (LifetimeState.CleanupAllowed .all)).Reachable s ∧
      s.sampling = some ⟨42, [0x401136], some 0, some 0⟩ ∧ s.Safe .all := by
  have hreach : ((lifetimeMachine .all).guard (LifetimeState.CleanupAllowed .all)).Reachable _ :=
    ⟨beforeLookup,
      [.lookup 42 [0xffffffff81000000, 0x401136] someReads, .frame someReads, .cleanup],
      ⟨rfl, rfl, rfl⟩, rfl⟩
  exact ⟨_, hreach, rfl, (held_records_live hreach).1⟩

/-- The process exits during its sample and is cleaned up: the record that the
next frame will read has been freed. -/
theorem cleanup_frees_held_record :
    ∃ s, (lifetimeMachine .all).Reachable s ∧ ¬s.Safe .all ∧
      s.sampling = some ⟨42, [0x401136], some 0, some 0⟩ ∧
      ∀ reads, s.step .all (.frame reads) = none := by
  let exited : LifetimeState :=
    { afterLookup [0x401136] with procs := Function.update beforeLookup.procs 42 none }
  have hdead : ∀ pid, exited.alive pid = false := by
    intro pid
    by_cases hpid : pid = 42 <;> simp [exited, LifetimeState.alive, beforeLookup, hpid]
  have hi : exited.Inv .all := by
    have h₀ : beforeLookup.Inv .all := LifetimeState.inv_init .all ⟨rfl, rfl, rfl⟩
    have h₁ : (afterLookup [0x401136]).Inv .all :=
      LifetimeState.inv_step (a := .lookup 42 [0x401136] someReads) h₀ trivial rfl
    exact LifetimeState.inv_step (a := .die 42) h₁ trivial rfl
  have hheld : ¬exited.NoDeadRecordHeld .all := by decide
  obtain ⟨t, hclean⟩ : ∃ t, exited.step .all .cleanup = some t := ⟨_, rfl⟩
  have hsampling : t.sampling = some ⟨42, [0x401136], some 0, some 0⟩ := by
    obtain rfl := Option.some.inj hclean
    rfl
  have hgone : t.deref 0 = none := LifetimeState.deref_cleanup hdead hclean 0
  exact ⟨t, ⟨beforeLookup, [.lookup 42 [0x401136] someReads, .die 42, .cleanup],
      ⟨rfl, rfl, rfl⟩, hclean⟩, LifetimeState.not_safe_of_cleanup hi hheld hclean, hsampling,
    fun _ => LifetimeState.frame_of_gone hsampling rfl (by decide) rfl hgone⟩

end Profiling
