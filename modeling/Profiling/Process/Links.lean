import Profiling.Chain
import Profiling.Machine
import Profiling.Process

/-!
# Profiling.Process.Links

The process table as `src/core/process.c` has it: an array of head pointers,
and nodes that point to the next one.

Each operation walks a chain by its pointers and is `none` when a pointer
dangles or the walk does not end.  `Shows` relates the pointers to the lists
of `Profiling.Process`; every operation keeps the relation, so none of them is
ever `none`, and what is known about the lists holds of the nodes.
-/

namespace Profiling

open Chain

/-- `struct process_hash_table`, and the nodes in memory. -/
structure ProcessLinks where
  nodes : Nat → Option Nat
  cells : Cells ProcessInfo
  /-- the address that the next `calloc` returns -/
  fresh : Nat

namespace ProcessLinks

/-! ## The operations -/

/-- The chain of a bucket. -/
def bucket (s : ProcessLinks) (index : Nat) : Chained ProcessInfo := ⟨s.nodes index, s.cells⟩

def setBucket (s : ProcessLinks) (index : Nat) (chain : Chained ProcessInfo) : ProcessLinks :=
  { s with nodes := Function.update s.nodes index chain.head, cells := chain.cells }

/-- More than there are nodes: the budget of a walk. -/
def steps (s : ProcessLinks) : Nat := s.fresh + 1

/-- `find_process` -/
def findProcess (s : ProcessLinks) (pid : Int) : Option (Option Nat) :=
  findLoop (·.processId = pid) s.cells s.steps (s.nodes (hashPid pid))

/-- `find_new_process` -/
def findNewProcess (s : ProcessLinks) (pid : Int) (reads : ProcReads) :
    Option (ProcessLinks × Option Nat) :=
  match s.findProcess pid with
  | none => none
  | some (some addr) => some (s, some addr)
  | some none =>
      if reads.calloc = false then some (s, none)
      else if reads.alive = false then some (s, none)
      else
        match reads.maps with
        | none => some (s, none)
        | some memoryMapTree =>
            let info : ProcessInfo :=
              { processId := pid
                startTime := reads.startTime
                processName := storedName reads pid
                commandLine := storedCmdline reads pid
                memoryMapTree }
            let index := hashPid pid
            let s' := s.setBucket index ((s.bucket index).push s.fresh info)
            some ({ s' with fresh := s.fresh + 1 }, some s.fresh)

/-- `remove_process` -/
def removeProcess (s : ProcessLinks) (pid : Int) : Option ProcessLinks :=
  let index := hashPid pid
  ((s.bucket index).removeLoop (·.processId = pid) s.steps none (s.nodes index)).map
    fun (chain, _) => s.setBucket index chain

/-- One bucket of `cleanup_dead_processes`. -/
def cleanupBucket (alive : Int → Bool) (s : ProcessLinks) (i : Nat) : Option ProcessLinks :=
  ((s.bucket i).sweepLoop (!alive ·.processId) s.steps none (s.nodes i)).map
    fun (chain, _) => s.setBucket i chain

/-- `cleanup_dead_processes` -/
def cleanupDeadProcesses (alive : Int → Bool) (s : ProcessLinks) : Option ProcessLinks :=
  (List.range hashtableSize).foldlM (cleanupBucket alive) s

/-- The node at `addr` is in the chain of the bucket, with this record. -/
def Holds (s : ProcessLinks) (index addr : Nat) (info : ProcessInfo) : Prop :=
  ∃ xs, Seg s.cells (s.nodes index) xs none ∧ (addr, info) ∈ xs

end ProcessLinks

/-- The calls that change the table. -/
inductive TableAction where
  | findNew (pid : Int) (reads : ProcReads)
  | remove (pid : Int)
  | cleanup (alive : Int → Bool)

/-- The table from its creation on. -/
def tableMachine : Machine ProcessLinks TableAction where
  init s := s.nodes = (fun _ => none) ∧ s.cells = fun _ => none
  step s
    | .findNew pid reads => (s.findNewProcess pid reads).map Prod.fst
    | .remove pid => s.removeProcess pid
    | .cleanup alive => s.cleanupDeadProcesses alive

/-! ## Pointers and lists -/

/-- A node as a cell. -/
def ProcessNode.cell (node : ProcessNode) : Nat × ProcessInfo := (node.addr, node.info)

namespace ProcessLinks

/-- The chain of each bucket is the list of the bucket. -/
structure Shows (s : ProcessLinks) (table : ProcessTable) : Prop where
  chain : ∀ i, Seg s.cells (s.nodes i) ((table i).map ProcessNode.cell) none
  wf : table.WF
  addr_lt : ∀ node, Present table node → node.addr < s.fresh

variable {s : ProcessLinks} {table : ProcessTable}

theorem addrs_cell (chain : List ProcessNode) :
    addrs (chain.map ProcessNode.cell) = chain.map ProcessNode.addr := by
  simp [addrs, ProcessNode.cell, Function.comp_def]

theorem Shows.holds_iff (h : s.Shows table) (index addr : Nat) (info : ProcessInfo) :
    s.Holds index addr info ↔ ⟨addr, info⟩ ∈ table index := by
  have hmem : (addr, info) ∈ (table index).map ProcessNode.cell ↔ ⟨addr, info⟩ ∈ table index := by
    rw [List.mem_map]
    constructor
    · rintro ⟨node, hn, heq⟩
      obtain ⟨rfl, rfl⟩ := Prod.mk.inj heq
      exact hn
    · exact fun hn => ⟨_, hn, rfl⟩
  constructor
  · rintro ⟨xs, hseg, hin⟩
    rw [← hmem, ← hseg.unique (h.chain index)]
    exact hin
  · exact fun hn => ⟨_, h.chain index, hmem.mpr hn⟩

theorem Shows.mem_lt (h : s.Shows table) {i : Nat} {node : ProcessNode} (hn : node ∈ table i) :
    node.addr < s.fresh := by
  refine h.addr_lt node ?_
  rwa [Present, h.wf.bucket i node hn]

/-- A walk has steps enough for a chain. -/
theorem Shows.lt_steps (h : s.Shows table) (i : Nat) :
    ((table i).map ProcessNode.cell).length < s.steps := by
  have hsub : addrs ((table i).map ProcessNode.cell) ⊆ List.range s.fresh := by
    intro addr ha
    rw [addrs_cell] at ha
    obtain ⟨node, hn, rfl⟩ := List.mem_map.mp ha
    exact List.mem_range.mpr (h.mem_lt hn)
  have hle := (List.subperm_of_subset (nodup_of_seg (h.chain i)) hsub).length_le
  rw [List.length_map, List.length_range] at hle
  exact Nat.lt_succ_of_le hle

/-- What happens inside one chain leaves the others as they are. -/
theorem Shows.setBucket (h : s.Shows table) {i : Nat} {kept : List ProcessNode}
    {chain : Chained ProcessInfo} (hsub : kept.Sublist (table i))
    (hseg : Seg chain.cells chain.head (kept.map ProcessNode.cell) none)
    (hframe : ∀ a ∉ addrs ((table i).map ProcessNode.cell), chain.cells a = s.cells a) :
    (s.setBucket i chain).Shows (Function.update table i kept) := by
  have hsubs : ∀ j, (Function.update table i kept j).Sublist (table j) := by
    intro j
    by_cases hj : j = i
    · subst hj
      rwa [Function.update_self]
    · rw [Function.update_of_ne hj]
  refine ⟨fun j => ?_, h.wf.sublist hsubs, fun node hn => h.addr_lt node ((hsubs _).subset hn)⟩
  by_cases hj : j = i
  · subst hj
    simpa [ProcessLinks.setBucket] using hseg
  · simp only [ProcessLinks.setBucket, Function.update_of_ne hj]
    refine (h.chain j).frame fun a ha => hframe a fun ha' => hj ?_
    rw [addrs_cell] at ha ha'
    obtain ⟨node, hn, rfl⟩ := List.mem_map.mp ha
    obtain ⟨node', hn', haddr⟩ := List.mem_map.mp ha'
    have hbucket := h.wf.bucket j node hn
    have hbucket' := h.wf.bucket i node' hn'
    have hp : Present table node := by rwa [Present, hbucket]
    have hp' : Present table node' := by rwa [Present, hbucket']
    rw [← hbucket, ← hbucket', h.wf.addr node' hp' node hp haddr]

/-! ## What the operations do to the lists -/

theorem Shows.findProcess (h : s.Shows table) (pid : Int) :
    s.findProcess pid = some ((Profiling.findProcess table pid).map ProcessNode.addr) := by
  rw [ProcessLinks.findProcess, findLoop_spec _ (h.chain (hashPid pid)) (h.lt_steps _),
    Profiling.findProcess, List.find?_map, Option.map_map]
  rfl

/-- A new node goes to the head of the chain of its pid. -/
theorem Shows.add (h : s.Shows table) (info : ProcessInfo)
    (hnone : Profiling.findProcess table info.processId = none) :
    { s.setBucket (hashPid info.processId) ((s.bucket (hashPid info.processId)).push s.fresh info)
      with fresh := s.fresh + 1 }.Shows
      (Function.update table (hashPid info.processId)
        (⟨s.fresh, info⟩ :: table (hashPid info.processId))) := by
  have hout : ∀ j, s.fresh ∉ addrs ((table j).map ProcessNode.cell) := by
    intro j hmem
    rw [addrs_cell] at hmem
    obtain ⟨node, hn, haddr⟩ := List.mem_map.mp hmem
    exact absurd (h.mem_lt hn) (by omega)
  refine ⟨fun j => ?_, ?_, fun node hn => ?_⟩
  · by_cases hj : j = hashPid info.processId
    · subst hj
      simp only [ProcessLinks.setBucket, Function.update_self]
      exact Chained.push_spec (s := s.bucket (hashPid info.processId)) (h.chain _) (hout _) info
    · simp only [ProcessLinks.setBucket, Function.update_of_ne hj]
      exact (h.chain j).frame fun a ha =>
        Function.update_of_ne (ne_of_mem_of_not_mem ha (hout j)) _ _
  · exact h.wf.add rfl hnone fun node hn => Nat.ne_of_lt (h.addr_lt node hn)
  · have hadd : Present table node ∨ node = ⟨s.fresh, info⟩ := (present_add rfl node).mp hn
    rcases hadd with hn | rfl
    · exact Nat.lt_succ_of_lt (h.addr_lt node hn)
    · exact Nat.lt_succ_self _

theorem Shows.findNewProcess (h : s.Shows table) (pid : Int) (reads : ProcReads) :
    ∃ s', s.findNewProcess pid reads =
        some (s', (Profiling.findNewProcess table pid reads s.fresh).2.map ProcessNode.addr) ∧
      s'.Shows (Profiling.findNewProcess table pid reads s.fresh).1 := by
  rw [ProcessLinks.findNewProcess, h.findProcess, Profiling.findNewProcess]
  cases hfind : Profiling.findProcess table pid with
  | some node => exact ⟨s, rfl, h⟩
  | none =>
      dsimp only [Option.map_none]
      split
      · exact ⟨s, rfl, h⟩
      · split
        · exact ⟨s, rfl, h⟩
        · cases reads.maps with
          | none => exact ⟨s, rfl, h⟩
          | some memoryMapTree =>
              refine ⟨_, rfl, h.add ⟨pid, reads.startTime, storedName reads pid,
                storedCmdline reads pid, memoryMapTree⟩ hfind⟩

theorem Shows.removeProcess (h : s.Shows table) (pid : Int) :
    ∃ s', s.removeProcess pid = some s' ∧ s'.Shows (Profiling.removeProcess table pid).1 := by
  have hnil : Seg s.cells (s.nodes (hashPid pid)) [] (s.nodes (hashPid pid)) := rfl
  obtain ⟨chain, hloop, hseg, hframe⟩ := Chained.removeLoop_spec (s := s.bucket (hashPid pid))
    (·.processId = pid) hnil (h.chain (hashPid pid)) (h.lt_steps _)
  refine ⟨s.setBucket (hashPid pid) chain, ?_, ?_⟩
  · rw [ProcessLinks.removeProcess]
    exact congrArg (Option.map _) hloop
  · refine h.setBucket (unlink_sublist pid _) ?_ hframe
    rw [unlink_eq]
    rw [List.nil_append, List.eraseP_map] at hseg
    exact hseg

theorem Shows.cleanupBucket (h : s.Shows table) (alive : Int → Bool) (i : Nat) :
    ∃ s', s.cleanupBucket alive i = some s' ∧
      s'.Shows (Function.update table i (cleanupChain alive (table i)).1) := by
  have hnil : Seg s.cells (s.nodes i) [] (s.nodes i) := rfl
  obtain ⟨chain, hloop, hseg, hframe⟩ := Chained.sweepLoop_spec (s := s.bucket i)
    (!alive ·.processId) hnil (h.chain i) (h.lt_steps _)
  refine ⟨s.setBucket i chain, ?_, ?_⟩
  · rw [ProcessLinks.cleanupBucket]
    exact congrArg (Option.map _) hloop
  · rw [cleanupChain_eq]
    refine h.setBucket List.filter_sublist ?_ hframe
    rw [List.nil_append, List.filter_map] at hseg
    simpa [Function.comp_def, ProcessNode.cell] using hseg

/-- The buckets are cleaned one after the other. -/
theorem Shows.cleanupBuckets (h : s.Shows table) (alive : Int → Bool) (n : Nat) :
    ∃ s', (List.range n).foldlM (ProcessLinks.cleanupBucket alive) s = some s' ∧
      s'.Shows fun i => if i < n then (cleanupChain alive (table i)).1 else table i := by
  induction n with
  | zero => exact ⟨s, rfl, by simpa using h⟩
  | succ n ih =>
      obtain ⟨s₁, hfold, h₁⟩ := ih
      obtain ⟨s₂, hstep, h₂⟩ := h₁.cleanupBucket alive n
      refine ⟨s₂, ?_, ?_⟩
      · simp [List.range_succ, hfold, hstep]
      · convert h₂ using 1
        funext i
        rw [Function.update_apply]
        by_cases hi : i = n
        · simp [hi]
        · simp only [hi, if_false, show i < n + 1 ↔ i < n by omega]

theorem Shows.cleanupDeadProcesses (h : s.Shows table) (alive : Int → Bool) :
    ∃ s', s.cleanupDeadProcesses alive = some s' ∧
      s'.Shows (Profiling.cleanupDeadProcesses alive table).1 :=
  h.cleanupBuckets alive hashtableSize

/-! ## Every sequence of calls -/

theorem shows_init (h : tableMachine.init s) : s.Shows fun _ => [] :=
  ⟨fun i => by simp [h.1], ProcessTable.wf_empty, by simp [Present]⟩

theorem shows_step {a : TableAction} {t : ProcessLinks} (h : s.Shows table)
    (hstep : tableMachine.step s a = some t) : ∃ table', t.Shows table' := by
  cases a with
  | findNew pid reads =>
      obtain ⟨s', hfind, hs'⟩ := h.findNewProcess pid reads
      simp only [tableMachine, hfind, Option.map_some, Option.some.injEq] at hstep
      exact ⟨_, hstep ▸ hs'⟩
  | remove pid =>
      obtain ⟨s', hremove, hs'⟩ := h.removeProcess pid
      simp only [tableMachine, hremove, Option.some.injEq] at hstep
      exact ⟨_, hstep ▸ hs'⟩
  | cleanup alive =>
      obtain ⟨s', hcleanup, hs'⟩ := h.cleanupDeadProcesses alive
      simp only [tableMachine, hcleanup, Option.some.injEq] at hstep
      exact ⟨_, hstep ▸ hs'⟩

theorem shows_of_reachable (h : tableMachine.Reachable s) : ∃ table, s.Shows table :=
  tableMachine.invariant (P := fun s => ∃ table, s.Shows table) (fun _ h₀ => ⟨_, shows_init h₀⟩)
    (fun _ _ _ ⟨_, hs⟩ hstep => shows_step hs hstep) h

/-- A node is in the bucket of its pid. -/
theorem Shows.holds_present (h : s.Shows table) {index addr : Nat} {info : ProcessInfo} :
    s.Holds index addr info ↔ index = hashPid info.processId ∧ Present table ⟨addr, info⟩ := by
  rw [h.holds_iff]
  constructor
  · intro hn
    obtain rfl := h.wf.bucket index _ hn
    exact ⟨rfl, hn⟩
  · rintro ⟨rfl, hn⟩
    exact hn

/-- A search returns the node of the pid, if there is one. -/
theorem Shows.findProcess_holds (h : s.Shows table) (pid : Int) :
    ∃ found, s.findProcess pid = some found ∧ ∀ addr, found = some addr ↔
      ∃ index info, s.Holds index addr info ∧ info.processId = pid := by
  refine ⟨_, h.findProcess pid, fun addr => ?_⟩
  simp only [Option.map_eq_some_iff, h.wf.findProcess_eq_some, h.holds_present]
  constructor
  · rintro ⟨node, ⟨rfl, hn⟩, rfl⟩
    exact ⟨_, node.info, ⟨rfl, hn⟩, rfl⟩
  · rintro ⟨_, info, ⟨rfl, hn⟩, rfl⟩
    exact ⟨⟨addr, info⟩, ⟨rfl, hn⟩, rfl⟩

/-- A lookup keeps every node, and may add one of its pid, which it returns. -/
theorem Shows.findNewProcess_holds (h : s.Shows table) (pid : Int) (reads : ProcReads) :
    ∃ s' found, s.findNewProcess pid reads = some (s', found) ∧
      (∀ index addr info, s.Holds index addr info → s'.Holds index addr info) ∧
      (∀ index addr info, s'.Holds index addr info →
        s.Holds index addr info ∨ info.processId = pid ∧ found = some addr) ∧
      (∀ addr, found = some addr →
        ∃ index info, s'.Holds index addr info ∧ info.processId = pid) := by
  obtain ⟨s', hfind, hs'⟩ := h.findNewProcess pid reads
  refine ⟨s', _, hfind, ?_⟩
  simp only [h.holds_present, hs'.holds_present]
  rcases findNewProcess_cases table pid reads s.fresh with
    ⟨node, hcase, hpid, hn⟩ | hcase | ⟨node, hcase, hpid, -, haddr, -⟩
  · rw [hcase]
    refine ⟨fun _ _ _ hh => hh, fun _ _ _ hh => .inl hh, fun addr ha => ?_⟩
    obtain rfl := Option.some.inj ha
    exact ⟨_, node.info, ⟨rfl, hn⟩, hpid⟩
  · rw [hcase]
    exact ⟨fun _ _ _ hh => hh, fun _ _ _ hh => .inl hh, fun _ ha => by cases ha⟩
  · rw [hcase]
    dsimp only
    simp only [present_add hpid]
    refine ⟨fun _ _ _ hh => ⟨hh.1, .inl hh.2⟩, fun index addr info hh => ?_, fun addr ha => ?_⟩
    · rcases hh with ⟨hi, hn | rfl⟩
      · exact .inl ⟨hi, hn⟩
      · exact .inr ⟨hpid, rfl⟩
    · obtain rfl := Option.some.inj ha
      exact ⟨_, node.info, ⟨rfl, .inr rfl⟩, hpid⟩

/-- A removal deletes the node of its pid. -/
theorem Shows.removeProcess_holds (h : s.Shows table) (pid : Int) :
    ∃ s', s.removeProcess pid = some s' ∧ ∀ index addr info,
      s'.Holds index addr info ↔ s.Holds index addr info ∧ info.processId ≠ pid := by
  obtain ⟨s', hremove, hs'⟩ := h.removeProcess pid
  refine ⟨s', hremove, fun index addr info => ?_⟩
  rw [h.holds_present, hs'.holds_present, present_removeProcess h.wf, and_assoc]

/-- A cleanup deletes the nodes of the dead. -/
theorem Shows.cleanupDeadProcesses_holds (h : s.Shows table) (alive : Int → Bool) :
    ∃ s', s.cleanupDeadProcesses alive = some s' ∧ ∀ index addr info,
      s'.Holds index addr info ↔ s.Holds index addr info ∧ alive info.processId = true := by
  obtain ⟨s', hcleanup, hs'⟩ := h.cleanupDeadProcesses alive
  refine ⟨s', hcleanup, fun index addr info => ?_⟩
  rw [h.holds_present, hs'.holds_present, present_cleanup, and_assoc]

end ProcessLinks

/-- **The process table.**  After any calls on an empty table, a pid is in one
node at most, which is in its bucket and which a search finds; and the next
call ends without following a dangling pointer and changes what it should:
`find_new_process` adds a node of its pid at most, and none if it returns
`NULL`, `remove_process` deletes the node of its pid, and
`cleanup_dead_processes` those of the pids that are not alive. -/
theorem process_table_correct {s : ProcessLinks} (hs : tableMachine.Reachable s) :
    (∀ index addr info, s.Holds index addr info →
      index = hashPid info.processId ∧ index < 1024) ∧
    (∀ index addr info index' addr' info', s.Holds index addr info →
      s.Holds index' addr' info' → info.processId = info'.processId →
        index = index' ∧ addr = addr' ∧ info = info') ∧
    (∀ pid, ∃ found, s.findProcess pid = some found ∧ ∀ addr, found = some addr ↔
      ∃ index info, s.Holds index addr info ∧ info.processId = pid) ∧
    (∀ pid reads, ∃ s' found, s.findNewProcess pid reads = some (s', found) ∧
      (∀ index addr info, s.Holds index addr info → s'.Holds index addr info) ∧
      (∀ index addr info, s'.Holds index addr info →
        s.Holds index addr info ∨ info.processId = pid ∧ found = some addr) ∧
      (∀ addr, found = some addr →
        ∃ index info, s'.Holds index addr info ∧ info.processId = pid)) ∧
    (∀ pid, ∃ s', s.removeProcess pid = some s' ∧ ∀ index addr info,
      s'.Holds index addr info ↔ s.Holds index addr info ∧ info.processId ≠ pid) ∧
    (∀ alive, ∃ s', s.cleanupDeadProcesses alive = some s' ∧ ∀ index addr info,
      s'.Holds index addr info ↔ s.Holds index addr info ∧ alive info.processId = true) := by
  obtain ⟨table, h⟩ := ProcessLinks.shows_of_reachable hs
  refine ⟨fun index addr info hh => ?_, fun index addr info index' addr' info' hh hh' hpid => ?_,
    h.findProcess_holds, h.findNewProcess_holds, h.removeProcess_holds,
    h.cleanupDeadProcesses_holds⟩
  · obtain ⟨rfl, -⟩ := h.holds_present.mp hh
    exact ⟨rfl, hashPid_lt _⟩
  · obtain ⟨rfl, hn⟩ := h.holds_present.mp hh
    obtain ⟨rfl, hn'⟩ := h.holds_present.mp hh'
    obtain ⟨rfl, rfl⟩ := ProcessNode.mk.inj (h.wf.eq_of_pid hn hn' hpid)
    exact ⟨rfl, rfl, rfl⟩

/-- A process with one memory area, as it is read. -/
def runningReads : ProcReads where
  calloc := true
  dupName := true
  dupCmdline := true
  startTime := 0
  comm := some (cstr "sh\n")
  cmdline := none
  alive := true
  maps := some .nil

/-- Three pids of one bucket, one of them negative.  The one in the middle is
removed; a cleanup then leaves the one that is alive. -/
theorem process_table_correct_collision :
    ∃ s, tableMachine.run ⟨fun _ => none, fun _ => none, 0⟩
        [.findNew 7 runningReads, .findNew 1031 runningReads, .findNew (-1017) runningReads,
          .remove 1031] = some s ∧
      s.findProcess 7 = some (some 0) ∧ s.findProcess 1031 = some none ∧
      ∃ t, s.cleanupDeadProcesses (fun pid => pid = 7) = some t ∧ ∀ index addr info,
        t.Holds index addr info ↔ s.Holds index addr info ∧ info.processId = 7 := by
  refine ⟨_, rfl, rfl, rfl, ?_⟩
  obtain ⟨-, -, -, -, -, hcleanup⟩ := process_table_correct ⟨⟨fun _ => none, fun _ => none, 0⟩,
    [.findNew 7 runningReads, .findNew 1031 runningReads, .findNew (-1017) runningReads,
      .remove 1031], ⟨rfl, rfl⟩, rfl⟩
  obtain ⟨t, ht, hholds⟩ := hcleanup fun pid => pid = 7
  exact ⟨t, ht, by simpa using hholds⟩

end Profiling
