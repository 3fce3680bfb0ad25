import Profiling.Elf.Address
import Profiling.Elf.Cache
import Profiling.Process.Lifetime
import Profiling.Sample

/-!
# Profiling.Symbolize

`symbolize_sample` of `src/core/handler.c`, and `find_kernel_symbol` of
`src/core/kernel_symbol.c`: from a decoded sample to the string that
`db_writer_push_stack` gets.

One frame is one `symbolizeFrame`, the body of the loop over `all_ips`.  What
`/proc`, libelf and the allocator answer during a frame is a `FrameReads`.  A
result is `none` where the C code would read a record or an ELF entry that is
gone.  `flame_buffer` is the string in it, which the branch for a recycled pid
lets grow without a check.
-/

namespace Profiling

/-! ## Kernel symbols -/

/-- What `find_kernel_symbol` reads of `struct kernel_symbol`. -/
structure KernelSymbol where
  address : UInt64
  name : CString
  deriving DecidableEq, Repr

/-- The descent of `find_kernel_symbol`, with `found_symbol`. -/
def kernelSymbolLoop (addr : UInt64) :
    RbTree KernelSymbol → Option KernelSymbol → Option KernelSymbol
  | .nil, foundSymbol => foundSymbol
  | .node _ left current right, foundSymbol =>
      if current.address ≤ addr then kernelSymbolLoop addr right (some current)
      else kernelSymbolLoop addr left foundSymbol

/-- `find_kernel_symbol` -/
def findKernelSymbol (root : Option (RbTree KernelSymbol)) (addr : UInt64) : CString :=
  match root with
  | none => cstr "unknown_kernel_function"
  | some tree =>
      match kernelSymbolLoop addr tree none with
      | some symbol => symbol.name
      | none => cstr "unknown_kernel_function"

/-! ## The state -/

/-- What `symbolize_sample` uses of `struct system_context`. -/
structure SystemContext where
  processTable : ProcessTable
  elfCache : ElfCache
  kernelSymbols : Option (RbTree KernelSymbol)
  monotonicStartNs : UInt64
  realtimeStartNs : UInt64
  /-- the address that the next `calloc` returns -/
  fresh : Nat

/-- What is answered during one frame. -/
structure FrameReads where
  /-- `get_process_start_time` -/
  startTime : Nat
  /-- the `find_new_process` after a recycled pid -/
  process : ProcReads
  elf : ElfReads

/-- What is answered during one `symbolize_sample`. -/
structure SampleReads where
  /-- the first `find_new_process` -/
  process : ProcReads
  frame : Nat → FrameReads

/-- The local variables of `symbolize_sample` that the frame loop works on. -/
structure Flame where
  /-- the address that `proc_info` points to -/
  procInfo : Option Nat
  processName : CString
  flameBuffer : CString
  flameLen : Nat
  deriving DecidableEq, Repr

/-- `PERF_CONTEXT_MAX` -/
def perfContextMax : UInt64 := -4095

/-- `callchain->pid` as an `int` -/
def CallchainResult.intPid (callchain : CallchainResult) : Int :=
  (callchain.pid.toNat : Int).bmod (2 ^ 32)

/-- `all_ips` -/
def allIps (callchain : CallchainResult) : List UInt64 :=
  (if callchain.ip ≠ 0 ∧ callchain.ip < perfContextMax then [callchain.ip] else []) ++
    callchain.entries.filter fun ip => ip < perfContextMax

/-! ## One frame -/

/-- `vma_info->elf_file = elf`, for the area around an address in the record at `addr`. -/
def ProcessTable.setElfFile (table : ProcessTable) (addr : Nat) (realAddr : UInt64)
    (elf : Option Nat) : ProcessTable := fun i =>
  (table i).map fun node =>
    if node.addr = addr then
      { node with
        info := { node.info with
          memoryMapTree := node.info.memoryMapTree.modify (vmaCut realAddr) fun vma =>
            { vma with elfFile := elf } } }
    else node

namespace SystemContext

/-- The record at an address. -/
def derefProcess (sys : SystemContext) (addr : Nat) : Option ProcessNode :=
  (Buckets.entries hashtableSize sys.processTable).find? fun node => node.addr = addr

/-- `find_new_process` -/
def findNew (sys : SystemContext) (pid : Int) (reads : ProcReads) :
    SystemContext × Option ProcessNode :=
  let (processTable, found) := findNewProcess sys.processTable pid reads sys.fresh
  ({ sys with processTable, fresh := sys.fresh + 1 }, found)

/-- `vma_info->elf_file`, which is looked up when it is `NULL`. -/
def elfOfVma (sys : SystemContext) (pid : Int) (addr : Nat) (currentIp : UInt64)
    (vma : VirtualMemoryArea) (reads : ElfReads) : SystemContext × Option Nat :=
  match vma.elfFile with
  | some elf => (sys, some elf)
  | none =>
      let (elfCache, elf) := findOrCreateElf sys.elfCache pid vma.mappingName reads sys.fresh
      ({ sys with
          elfCache
          processTable := sys.processTable.setElfFile addr currentIp elf
          fresh := sys.fresh + 1 }, elf)

end SystemContext

/-- `func_name` for an address in an ELF file. -/
def elfFuncName (elf : ElfNode) (currentIp : UInt64) (vma : VirtualMemoryArea) : CString :=
  let symbolName := findSymbolNameFromElf (some elf.file) (getRelativeAddress currentIp (some vma))
  if symbolName.length > 0 then symbolName.take 511
  else (cstr "[unknown_symbol:" ++ elf.filePath ++ cstr "]").take 511

/-- `func_name` for a user-space address of the process at `node`. -/
def userFuncName (sys : SystemContext) (pid : Int) (node : ProcessNode) (currentIp : UInt64)
    (reads : ElfReads) : Option (SystemContext × CString) :=
  if node.info.memoryMapTree = .nil then some (sys, cstr "[vma_unavailable]")
  else
    match findVmaFromProcess node.info.memoryMapTree currentIp with
    | none => some (sys, cstr "[unknown_vma]")
    | some vma =>
        match vma.mappingName with
        | none => some (sys, cstr "[anonymous]")
        | some mappingName =>
            if mappingName = [] ∨ mappingName.head? = some 91 then
              some (sys, mappingName.take 511)
            else
              match sys.elfOfVma pid node.addr currentIp vma reads with
              | (sys, none) =>
                  some (sys, (cstr "[unknown_elf:" ++ mappingName ++ cstr "]").take 511)
              | (sys, some elf) =>
                  (derefElf sys.elfCache elf).map fun elf => (sys, elfFuncName elf currentIp vma)

/-- The locals once a record is found: the name is the record's, unless that is `NULL`. -/
def Flame.enter (c : Flame) (found : Option ProcessNode) : Flame :=
  { c with
    procInfo := found.map (·.addr)
    processName := (found.bind (·.info.processName)).getD (cstr "unknown") }

/-- A frame goes behind the others if there is room for it. -/
def Flame.append (c : Flame) (funcName : CString) : Flame :=
  if c.flameLen + funcName.length + 2 < 16384 then
    { c with
      flameBuffer := c.flameBuffer ++ 59 :: funcName
      flameLen := c.flameLen + funcName.length + 1 }
  else c

/-- The frame at which the pid turns out to be gone, for which no room is checked. -/
def Flame.appendRecycled (c : Flame) : Flame :=
  let funcName := cstr "[process_recycled]"
  { c with
    flameBuffer := c.flameBuffer ++ 59 :: funcName
    flameLen := c.flameLen + funcName.length + 1 }

/-- The address is in the space that `filter_mode` leaves out. -/
def filteredOut (filterMode : FilterMode) (currentIp : UInt64) : Bool :=
  match filterMode with
  | .user => isKernelAddr currentIp
  | .kernel => !isKernelAddr currentIp
  | .all => false

/-- The frame of a user-space address. -/
def symbolizeUserFrame (pid : Int) (sys : SystemContext) (c : Flame) (currentIp : UInt64)
    (reads : FrameReads) : Option (SystemContext × Flame) :=
  match c.procInfo with
  | none => some (sys, c.append (cstr "[unknown_process]"))
  | some addr =>
      match sys.derefProcess addr with
      | none => none
      | some node =>
          if node.info.startTime ≠ reads.startTime then
            let removed := (removeProcess sys.processTable node.info.processId).1
            match { sys with processTable := removed }.findNew pid reads.process with
            | (sys, none) => some (sys, (c.enter none).appendRecycled)
            | (sys, some node) =>
                (userFuncName sys pid node currentIp reads.elf).map fun (sys, funcName) =>
                  (sys, (c.enter (some node)).append funcName)
          else
            (userFuncName sys pid node currentIp reads.elf).map fun (sys, funcName) =>
              (sys, c.append funcName)

/-- The body of the frame loop. -/
def symbolizeFrame (filterMode : FilterMode) (pid : Int) (sys : SystemContext) (c : Flame)
    (currentIp : UInt64) (reads : FrameReads) : Option (SystemContext × Flame) :=
  if filteredOut filterMode currentIp then some (sys, c)
  else if isKernelAddr currentIp then
    some (sys, c.append
      ((findKernelSymbol sys.kernelSymbols currentIp ++ cstr " [kernel]").take 511))
  else symbolizeUserFrame pid sys c currentIp reads

/-- The frame loop, from its `i`-th address on. -/
def frameLoop (filterMode : FilterMode) (pid : Int) (reads : Nat → FrameReads) :
    Nat → List UInt64 → SystemContext → Flame → Option (SystemContext × Flame)
  | _, [], sys, c => some (sys, c)
  | i, currentIp :: ips, sys, c =>
      (symbolizeFrame filterMode pid sys c currentIp (reads i)).bind fun (sys, c) =>
        frameLoop filterMode pid reads (i + 1) ips sys c

/-! ## The sample -/

/-- `snprintf(flame_buffer, sizeof(flame_buffer), "%s[%d]", …)` -/
def Flame.header (c : Flame) (pid : Int) : Flame :=
  let text := c.processName ++ cstr "[" ++ cstr (toString pid) ++ cstr "]"
  { c with flameBuffer := text.take 16383, flameLen := text.length }

/-- `db_stack_str` -/
def dbStackStr (pid : Int) (processName flameBuffer : CString) : CString :=
  (cstr (toString pid) ++ 124 :: processName ++ 124 :: flameBuffer).take 16639

/-- `realtime_timestamp_ns` -/
def SystemContext.realtimeTimestampNs (sys : SystemContext) (callchain : CallchainResult) :
    UInt64 :=
  if sys.monotonicStartNs ≠ 0 ∧ sys.realtimeStartNs ≠ 0 then
    callchain.timestampNs - sys.monotonicStartNs + sys.realtimeStartNs
  else callchain.timestampNs

/-- `symbolize_sample`, with what it passes to `db_writer_push_stack`. -/
def symbolizeSample (filterMode : FilterMode) (sys : SystemContext) (callchain : CallchainResult)
    (reads : SampleReads) : Option (SystemContext × UInt64 × CString) :=
  let pid := callchain.intPid
  let (sys, found) := sys.findNew pid reads.process
  let c := (Flame.enter ⟨none, [], [], 0⟩ found).header pid
  (frameLoop filterMode pid reads.frame 0 (allIps callchain) sys c).map fun (sys, c) =>
    (sys, sys.realtimeTimestampNs callchain, dbStackStr pid c.processName c.flameBuffer)

end Profiling
