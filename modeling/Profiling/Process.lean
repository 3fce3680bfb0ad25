import Profiling.Buckets
import Profiling.Elf.Vma

/-!
# Profiling.Process

The process table of `src/core/process.c`: a hash table of records, filled
lazily from `/proc`.

A record is a heap node with an identity, its address; the C pointers to it
and to its strings are that address.  What `/proc` and the allocator answer
during one `find_new_process` is a `ProcReads`.
-/

namespace Profiling

/-- `HASHTABLE_SIZE` -/
def hashtableSize : Nat := 1024

/-- `hash_pid`: the pid as an `unsigned int`, modulo the table's size -/
def hashPid (pid : Int) : Nat := (pid % 2 ^ 32).toNat % hashtableSize

/-- `struct process_info`; a `NULL` string is `none`. -/
structure ProcessInfo where
  processId : Int
  startTime : Nat
  processName : Option CString
  commandLine : Option CString
  memoryMapTree : RbTree VirtualMemoryArea
  deriving DecidableEq, Repr

/-- `struct process_hash_node`, with its address. -/
structure ProcessNode where
  addr : Nat
  info : ProcessInfo
  deriving DecidableEq, Repr

/-- `struct process_hash_table`: the chain of each bucket. -/
abbrev ProcessTable := Nat → List ProcessNode

/-! ## Reading /proc -/

/-- The bytes of a buffer in front of the first NUL. -/
def untilNul (bytes : List UInt8) : CString := bytes.takeWhile (· ≠ 0)

/-- `read_proc_file(pid, "comm")`, given what `open`, `malloc` and `read` came to. -/
def readComm (content : Option (List UInt8)) : Option CString :=
  content.bind fun bytes =>
    let buffer := bytes.take 4095
    if buffer = [] then none
    else some (untilNul (if buffer.getLast? = some 10 then buffer.dropLast else buffer))

/-- `read_proc_file(pid, "cmdline")`: every NUL but the last becomes a space. -/
def readCmdline (content : Option (List UInt8)) : Option CString :=
  content.bind fun bytes =>
    let buffer := bytes.take 4095
    if buffer = [] then none
    else
      some (untilNul
        (buffer.dropLast.map (fun b => if b = 0 then 32 else b) ++ buffer.getLast?.toList))

/-- What is answered during one `find_new_process`. -/
structure ProcReads where
  /-- `calloc` of the node -/
  calloc : Bool
  /-- the `strdup` of the name and that of the command line -/
  dupName : Bool
  dupCmdline : Bool
  startTime : Nat
  comm : Option (List UInt8)
  cmdline : Option (List UInt8)
  alive : Bool
  /-- the tree that `parse_process_memory_maps` builds, when it returns 0 -/
  maps : Option (RbTree VirtualMemoryArea)

/-- The part of a path behind the last `/`. -/
def basename (path : CString) : CString := (path.reverse.takeWhile (· ≠ 47)).reverse

/-- The name that `find_new_process` stores. -/
def storedName (reads : ProcReads) (pid : Int) : Option CString :=
  match readComm reads.comm with
  | none =>
      let name :=
        match readCmdline reads.cmdline with
        | none | some [] => cstr "unknown"
        | some commandLine => basename (commandLine.takeWhile (· ≠ 32))
      if reads.dupName then some name else none
  | some comm =>
      let name := comm.takeWhile (· ≠ 10)
      if name = [] then
        if reads.dupName then some (cstr "pid_" ++ cstr (toString pid)) else none
      else some name

/-- The command line that it stores; an empty one is replaced by the name. -/
def storedCmdline (reads : ProcReads) (pid : Int) : Option CString :=
  match readCmdline reads.cmdline with
  | none | some [] => if reads.dupCmdline then storedName reads pid else none
  | some commandLine => some commandLine

/-! ## The table -/

/-- `find_process` -/
def findProcess (table : ProcessTable) (pid : Int) : Option ProcessNode :=
  (table (hashPid pid)).find? fun node => node.info.processId = pid

/-- `find_new_process`; `fresh` is the address that `calloc` would return. -/
def findNewProcess (table : ProcessTable) (pid : Int) (reads : ProcReads) (fresh : Nat) :
    ProcessTable × Option ProcessNode :=
  match findProcess table pid with
  | some node => (table, some node)
  | none =>
      if reads.calloc = false then (table, none)
      else if reads.alive = false then (table, none)
      else
        match reads.maps with
        | none => (table, none)
        | some memoryMapTree =>
            let node : ProcessNode :=
              { addr := fresh
                info :=
                  { processId := pid
                    startTime := reads.startTime
                    processName := storedName reads pid
                    commandLine := storedCmdline reads pid
                    memoryMapTree } }
            let index := hashPid pid
            (Function.update table index (node :: table index), some node)

/-- Unlinking the first node of a chain with this pid. -/
def unlink (pid : Int) : List ProcessNode → List ProcessNode × Option ProcessNode
  | [] => ([], none)
  | node :: chain =>
      if node.info.processId = pid then (chain, some node)
      else
        let (chain', freed) := unlink pid chain
        (node :: chain', freed)

/-- `remove_process`, with the node that it frees. -/
def removeProcess (table : ProcessTable) (pid : Int) : ProcessTable × Option ProcessNode :=
  let index := hashPid pid
  let (chain, freed) := unlink pid (table index)
  (Function.update table index chain, freed)

/-- The inner loop of `cleanup_dead_processes`: the nodes kept and those freed. -/
def cleanupChain (alive : Int → Bool) : List ProcessNode → List ProcessNode × List ProcessNode
  | [] => ([], [])
  | node :: chain =>
      let (kept, freed) := cleanupChain alive chain
      if alive node.info.processId then (node :: kept, freed) else (kept, node :: freed)

/-- `cleanup_dead_processes`, with the nodes that it frees. -/
def cleanupDeadProcesses (alive : Int → Bool) (table : ProcessTable) :
    ProcessTable × List ProcessNode :=
  (fun i => if i < hashtableSize then (cleanupChain alive (table i)).1 else table i,
    (List.range hashtableSize).flatMap fun i => (cleanupChain alive (table i)).2)

/-! ## What the operations do -/

/-- The node is in the table. -/
def Present (table : ProcessTable) (node : ProcessNode) : Prop :=
  node ∈ table (hashPid node.info.processId)

/-- Every node is in the bucket of its pid, and no pid or address occurs twice. -/
structure ProcessTable.WF (table : ProcessTable) : Prop where
  bucket : ∀ i, ∀ node ∈ table i, hashPid node.info.processId = i
  pid : ∀ i, (table i).Pairwise fun a b => a.info.processId ≠ b.info.processId
  addr : ∀ node, Present table node → ∀ node', Present table node' →
    node.addr = node'.addr → node = node'

theorem ProcessTable.wf_empty : ProcessTable.WF fun _ => [] :=
  ⟨by simp, fun _ => List.Pairwise.nil, by simp [Present]⟩

section

variable {table : ProcessTable} {pid : Int} {node : ProcessNode}

theorem hashPid_lt (pid : Int) : hashPid pid < hashtableSize :=
  Nat.mod_lt _ (by decide)

/-- A well-formed table with some nodes of each bucket left out. -/
theorem ProcessTable.WF.sublist (h : table.WF) {table' : ProcessTable}
    (hsub : ∀ i, (table' i).Sublist (table i)) : table'.WF where
  bucket i n hn := h.bucket i n ((hsub i).subset hn)
  pid i := (h.pid i).sublist (hsub i)
  addr n hn n' hn' := h.addr n ((hsub _).subset hn) n' ((hsub _).subset hn')

/-- The table is one of chained buckets, keyed by the pid. -/
theorem ProcessTable.WF.placed (h : table.WF) :
    Buckets.Placed (·.info.processId) hashPid table := ⟨h.bucket, h.pid⟩

theorem findProcess_eq_some (h : findProcess table pid = some node) :
    node.info.processId = pid ∧ Present table node :=
  Buckets.mem_of_find? h

/-- Two nodes of one pid are one node. -/
theorem ProcessTable.WF.eq_of_pid (h : table.WF) {node' : ProcessNode} (hn : Present table node)
    (hn' : Present table node') (hpid : node.info.processId = node'.info.processId) :
    node = node' :=
  h.placed.eq_of_key hn hn' hpid

/-- A search by pid finds the node of that pid, if there is one. -/
theorem ProcessTable.WF.findProcess_eq_some (h : table.WF) :
    findProcess table pid = some node ↔ node.info.processId = pid ∧ Present table node :=
  h.placed.find?_eq_some_iff

/-- What `find_new_process` can do: find the record, or fail, or add one. -/
theorem findNewProcess_cases (table : ProcessTable) (pid : Int) (reads : ProcReads) (fresh : Nat) :
    (∃ node, findNewProcess table pid reads fresh = (table, some node) ∧
      node.info.processId = pid ∧ Present table node) ∨
    findNewProcess table pid reads fresh = (table, none) ∨
    ∃ node, findNewProcess table pid reads fresh =
        (Function.update table (hashPid pid) (node :: table (hashPid pid)), some node) ∧
      node.info.processId = pid ∧ reads.maps = some node.info.memoryMapTree ∧
      node.addr = fresh ∧ findProcess table pid = none := by
  unfold findNewProcess
  cases hfind : findProcess table pid with
  | some node => exact .inl ⟨node, rfl, findProcess_eq_some hfind⟩
  | none =>
      dsimp only
      split
      · exact .inr (.inl rfl)
      · split
        · exact .inr (.inl rfl)
        · cases reads.maps with
          | none => exact .inr (.inl rfl)
          | some tree => exact .inr (.inr ⟨_, rfl, rfl, rfl, rfl, rfl⟩)

/-- The nodes after a record has been added. -/
theorem present_add (hpid : node.info.processId = pid) (n : ProcessNode) :
    Present (Function.update table (hashPid pid) (node :: table (hashPid pid))) n ↔
      Present table n ∨ n = node := by
  subst hpid
  exact Buckets.mem_push (·.info.processId) hashPid node

/-- Adding a record under a fresh address for a pid that has none. -/
theorem ProcessTable.WF.add (h : table.WF) (hpid : node.info.processId = pid)
    (hnone : findProcess table pid = none) (hfresh : ∀ n, Present table n → n.addr ≠ node.addr) :
    ProcessTable.WF (Function.update table (hashPid pid) (node :: table (hashPid pid))) := by
  subst hpid
  have hplaced := h.placed.push (x := node) (Buckets.find?_eq_none_iff.mp hnone)
  refine ⟨hplaced.bucket, hplaced.distinct, fun n hn n' hn' ha => ?_⟩
  rw [present_add rfl] at hn hn'
  rcases hn with hn | rfl <;> rcases hn' with hn' | rfl
  · exact h.addr n hn n' hn' ha
  · exact absurd ha (hfresh n hn)
  · exact absurd ha.symm (hfresh n' hn')
  · rfl

/-- Unlinking takes out the first node of the pid, if there is one. -/
theorem unlink_eq (pid : Int) (chain : List ProcessNode) :
    unlink pid chain = (chain.eraseP fun node => node.info.processId = pid,
      chain.find? fun node => node.info.processId = pid) := by
  induction chain with
  | nil => rfl
  | cons node chain ih =>
      rw [unlink]
      by_cases hpid : node.info.processId = pid
      · simp [hpid]
      · simp [hpid, ih]

theorem unlink_sublist (pid : Int) (chain : List ProcessNode) :
    (unlink pid chain).1.Sublist chain := by
  rw [unlink_eq]
  exact List.eraseP_sublist

/-- Removing a pid keeps exactly the other nodes. -/
theorem present_removeProcess (h : table.WF) (n : ProcessNode) :
    Present (removeProcess table pid).1 n ↔ Present table n ∧ n.info.processId ≠ pid := by
  simp only [removeProcess, unlink_eq]
  exact h.placed.mem_erase pid

theorem ProcessTable.WF.removeProcess (h : table.WF) (pid : Int) :
    (removeProcess table pid).1.WF := by
  refine h.sublist fun i => ?_
  by_cases hi : i = hashPid pid
  · subst hi
    simp [Profiling.removeProcess, unlink_sublist]
  · simp [Profiling.removeProcess, Function.update_of_ne hi]

/-- The node that `remove_process` frees is the one with that pid. -/
theorem removeProcess_freed (h : (removeProcess table pid).2 = some node) :
    Present table node ∧ node.info.processId = pid := by
  simp only [removeProcess, unlink_eq] at h
  exact (Buckets.mem_of_find? h).symm

/-- Cleaning a chain separates the living from the dead. -/
theorem cleanupChain_eq (alive : Int → Bool) (chain : List ProcessNode) :
    cleanupChain alive chain = (chain.filter (alive ·.info.processId),
      chain.filter (!alive ·.info.processId)) := by
  induction chain with
  | nil => rfl
  | cons n chain ih =>
      rw [cleanupChain, ih]
      cases h : alive n.info.processId <;> simp [h]

/-- Cleaning up keeps exactly the nodes of living processes. -/
theorem present_cleanup (alive : Int → Bool) (n : ProcessNode) :
    Present (cleanupDeadProcesses alive table).1 n ↔
      Present table n ∧ alive n.info.processId = true := by
  simp [Present, cleanupDeadProcesses, hashPid_lt, cleanupChain_eq]

theorem ProcessTable.WF.cleanup (h : table.WF) (alive : Int → Bool) :
    (cleanupDeadProcesses alive table).1.WF := by
  refine h.sublist fun i => ?_
  simp only [cleanupDeadProcesses, cleanupChain_eq]
  split
  · exact List.filter_sublist
  · exact List.Sublist.refl _

/-- The nodes that `cleanup_dead_processes` frees are those of dead processes. -/
theorem mem_cleanup_freed (h : table.WF) (alive : Int → Bool) (n : ProcessNode) :
    n ∈ (cleanupDeadProcesses alive table).2 ↔
      Present table n ∧ alive n.info.processId = false := by
  simp only [cleanupDeadProcesses, cleanupChain_eq, List.mem_flatMap, List.mem_range,
    List.mem_filter, Bool.not_eq_true', Present]
  constructor
  · rintro ⟨i, -, hn, ha⟩
    exact ⟨by rwa [h.bucket i n hn], ha⟩
  · rintro ⟨hn, ha⟩
    exact ⟨_, hashPid_lt _, hn, ha⟩

end

end Profiling
