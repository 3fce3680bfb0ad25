import Profiling.Symbolize.References

/-!
# Profiling.Symbolize.Frames

What one iteration of the frame loop of `symbolize_sample` can do
(`FrameCase`), and that it always can: between two calls no area points to an
ELF entry that is gone, and `proc_info` is `NULL` or a record of the pid.

A record is told apart from others by its address, pid, start time and name
(`ProcessNode.identity`); a frame changes none of these in a record that it
keeps.
-/

namespace Profiling

/-! ## The cases of a frame -/

/-- `remove_process` and then `find_new_process`, at a frame that finds another
process under the pid. -/
def SystemContext.recycle (sys : SystemContext) (node : ProcessNode) (pid : Int)
    (reads : ProcReads) : SystemContext × Option ProcessNode :=
  SystemContext.findNew
    { sys with processTable := (removeProcess sys.processTable node.info.processId).1 } pid reads

/-- `func_name` for a kernel address. -/
def kernelFuncName (sys : SystemContext) (currentIp : UInt64) : CString :=
  (findKernelSymbol sys.kernelSymbols currentIp ++ cstr " [kernel]").take 511

/-- The ways through the body of the frame loop. -/
inductive FrameCase (filterMode : FilterMode) (pid : Int) (sys : SystemContext) (c : Flame)
    (currentIp : UInt64) (reads : FrameReads) : SystemContext → Flame → Prop where
  | filtered (hout : filteredOut filterMode currentIp = true) :
      FrameCase filterMode pid sys c currentIp reads sys c
  | kernel (hshown : filteredOut filterMode currentIp = false)
      (hkernel : isKernelAddr currentIp = true) :
      FrameCase filterMode pid sys c currentIp reads sys (c.append (kernelFuncName sys currentIp))
  | unknown (hused : usesProcess filterMode currentIp = true) (hinfo : c.procInfo = none) :
      FrameCase filterMode pid sys c currentIp reads sys (c.append (cstr "[unknown_process]"))
  | same {addr : Nat} {node : ProcessNode} {sys' : SystemContext} {funcName : CString}
      (hused : usesProcess filterMode currentIp = true) (hinfo : c.procInfo = some addr)
      (hderef : sys.derefProcess addr = some node)
      (hstart : node.info.startTime = reads.startTime)
      (hname : userFuncName sys pid node currentIp reads.elf = some (sys', funcName)) :
      FrameCase filterMode pid sys c currentIp reads sys' (c.append funcName)
  | gone {addr : Nat} {node : ProcessNode} {sys' : SystemContext}
      (hused : usesProcess filterMode currentIp = true) (hinfo : c.procInfo = some addr)
      (hderef : sys.derefProcess addr = some node)
      (hstart : node.info.startTime ≠ reads.startTime)
      (hfind : sys.recycle node pid reads.process = (sys', none)) :
      FrameCase filterMode pid sys c currentIp reads sys' (c.enter none).appendRecycled
  | replaced {addr : Nat} {node node' : ProcessNode} {sys₁ sys' : SystemContext}
      {funcName : CString}
      (hused : usesProcess filterMode currentIp = true) (hinfo : c.procInfo = some addr)
      (hderef : sys.derefProcess addr = some node)
      (hstart : node.info.startTime ≠ reads.startTime)
      (hfind : sys.recycle node pid reads.process = (sys₁, some node'))
      (hname : userFuncName sys₁ pid node' currentIp reads.elf = some (sys', funcName)) :
      FrameCase filterMode pid sys c currentIp reads sys' ((c.enter (some node')).append funcName)

/-- An address is looked up in the process if it is a user-space address that
the filter lets through. -/
theorem usesProcess_iff {filterMode : FilterMode} {ip : UInt64} :
    usesProcess filterMode ip = true ↔
      filteredOut filterMode ip = false ∧ isKernelAddr ip = false := by
  cases filterMode <;> simp [usesProcess, filteredOut]

section

variable {filterMode : FilterMode} {pid : Int} {sys sys' : SystemContext} {c c' : Flame}
  {currentIp : UInt64} {reads : FrameReads}

theorem symbolizeFrame_cases
    (h : symbolizeFrame filterMode pid sys c currentIp reads = some (sys', c')) :
    FrameCase filterMode pid sys c currentIp reads sys' c' := by
  unfold symbolizeFrame at h
  cases hout : filteredOut filterMode currentIp with
  | true =>
      rw [hout, if_pos rfl] at h
      obtain ⟨rfl, rfl⟩ := Prod.mk.inj (Option.some.inj h)
      exact .filtered hout
  | false =>
  rw [hout, if_neg Bool.false_ne_true] at h
  cases hkernel : isKernelAddr currentIp with
  | true =>
      rw [hkernel, if_pos rfl] at h
      obtain ⟨rfl, rfl⟩ := Prod.mk.inj (Option.some.inj h)
      exact .kernel hout hkernel
  | false =>
  have hused := usesProcess_iff.mpr ⟨hout, hkernel⟩
  rw [hkernel, if_neg Bool.false_ne_true, symbolizeUserFrame] at h
  cases hinfo : c.procInfo with
  | none =>
      rw [hinfo] at h
      obtain ⟨rfl, rfl⟩ := Prod.mk.inj (Option.some.inj h)
      exact .unknown hused hinfo
  | some addr =>
  rw [hinfo] at h
  dsimp only at h
  cases hderef : sys.derefProcess addr with
  | none => simp [hderef] at h
  | some node =>
  rw [hderef] at h
  dsimp only at h
  split at h
  · next hstart =>
    cases hfind : sys.recycle node pid reads.process with
    | mk sys₁ found =>
      rw [SystemContext.recycle] at hfind
      rw [hfind] at h
      cases found with
      | none =>
          obtain ⟨rfl, rfl⟩ := Prod.mk.inj (Option.some.inj h)
          exact .gone hused hinfo hderef hstart hfind
      | some node' =>
          obtain ⟨⟨sys₂, funcName⟩, hname, heq⟩ := Option.map_eq_some_iff.mp h
          obtain ⟨rfl, rfl⟩ := Prod.mk.inj heq
          exact .replaced hused hinfo hderef hstart hfind hname
  · next hstart =>
    obtain ⟨⟨sys₂, funcName⟩, hname, heq⟩ := Option.map_eq_some_iff.mp h
    obtain ⟨rfl, rfl⟩ := Prod.mk.inj heq
    exact .same hused hinfo hderef (not_not.mp hstart) hname

end

/-! ## The records that stay -/

/-- What a record is known by: its address, pid, start time and name. -/
def ProcessNode.identity (node : ProcessNode) : Nat × Int × Nat × Option CString :=
  (node.addr, node.info.processId, node.info.startTime, node.info.processName)

/-- A record with this identity is in the table. -/
def ProcessTable.Has (table : ProcessTable) (identity : Nat × Int × Nat × Option CString) : Prop :=
  ∃ node, Present table node ∧ node.identity = identity

section

variable {sys sys' : SystemContext} {pid : Int} {node : ProcessNode} {currentIp : UInt64}
  {reads : ElfReads} {funcName : CString} {identity : Nat × Int × Nat × Option CString}

/-- A write to `elf_file` keeps every record's identity. -/
theorem has_setElfFile (table : ProcessTable) (addr : Nat) (realAddr : UInt64) (elf : Option Nat) :
    (table.setElfFile addr realAddr elf).Has identity ↔ table.Has identity := by
  let f : ProcessNode → ProcessNode := fun node =>
    if node.addr = addr then
      { node with
        info := { node.info with
          memoryMapTree := node.info.memoryMapTree.modify (vmaCut realAddr) fun vma =>
            { vma with elfFile := elf } } }
    else node
  have hf : ∀ n, (f n).identity = n.identity := fun n => by
    simp only [f]
    split <;> rfl
  have hpid : ∀ n, (f n).info.processId = n.info.processId := fun n =>
    congrArg (fun identity => identity.2.1) (hf n)
  have htable : table.setElfFile addr realAddr elf = fun i => (table i).map f := rfl
  rw [htable]
  constructor
  · rintro ⟨n, hn, rfl⟩
    obtain ⟨m, hm, rfl⟩ := (present_map hpid n).mp hn
    exact ⟨m, hm, (hf m).symm⟩
  · rintro ⟨m, hm, rfl⟩
    exact ⟨f m, (present_map hpid _).mpr ⟨m, hm, rfl⟩, hf m⟩

/-- What a name lookup leaves alone: the kernel symbols, and the identities of
all records. -/
structure SystemContext.SameRecords (sys sys' : SystemContext) : Prop where
  kernelSymbols : sys'.kernelSymbols = sys.kernelSymbols
  has : ∀ identity, sys'.processTable.Has identity ↔ sys.processTable.Has identity

theorem SystemContext.SameRecords.refl (sys : SystemContext) : sys.SameRecords sys :=
  ⟨rfl, fun _ => Iff.rfl⟩

theorem sameRecords_elfOfVma (sys : SystemContext) (pid : Int) (addr : Nat) (currentIp : UInt64)
    (vma : VirtualMemoryArea) (reads : ElfReads) :
    sys.SameRecords (sys.elfOfVma pid addr currentIp vma reads).1 := by
  unfold SystemContext.elfOfVma
  split
  · exact .refl sys
  · exact ⟨rfl, fun _ => has_setElfFile _ _ _ _⟩

/-- A name is at most 511 bytes long. -/
theorem userFuncName_spec
    (h : userFuncName sys pid node currentIp reads = some (sys', funcName)) :
    funcName.length ≤ 511 ∧ sys.SameRecords sys' := by
  have hsame : ∀ {name : CString}, name.length ≤ 511 → some (sys, name) = some (sys', funcName) →
      funcName.length ≤ 511 ∧ sys.SameRecords sys' := by
    intro name hlen heq
    obtain ⟨rfl, rfl⟩ := Prod.mk.inj (Option.some.inj heq)
    exact ⟨hlen, .refl sys⟩
  have htake : ∀ name : CString, (name.take 511).length ≤ 511 := fun name =>
    List.length_take_le 511 name
  unfold userFuncName at h
  split at h
  · exact hsame (by decide) h
  split at h
  · exact hsame (by decide) h
  split at h
  · exact hsame (by decide) h
  split at h
  · exact hsame (htake _) h
  next vma _ _ _ _ _ =>
  have hrecords := sameRecords_elfOfVma sys pid node.addr currentIp vma reads
  split at h
  · next hcall =>
    rw [hcall] at hrecords
    obtain ⟨rfl, rfl⟩ := Prod.mk.inj (Option.some.inj h)
    exact ⟨htake _, hrecords⟩
  · next hcall =>
    rw [hcall] at hrecords
    obtain ⟨elf, -, heq⟩ := Option.map_eq_some_iff.mp h
    obtain ⟨rfl, rfl⟩ := Prod.mk.inj heq
    refine ⟨?_, hrecords⟩
    unfold elfFuncName
    dsimp only
    split <;> exact htake _

end

/-! ## Lookups -/

theorem length_untilNul_le (bytes : List UInt8) : (untilNul bytes).length ≤ bytes.length :=
  (List.takeWhile_sublist _).length_le

/-- The buffer bounds what is read of `comm`. -/
theorem length_readComm_le {content : Option (List UInt8)} {comm : CString}
    (h : readComm content = some comm) : comm.length ≤ 4095 := by
  obtain ⟨bytes, -, hread⟩ := Option.bind_eq_some_iff.mp h
  have htake := List.length_take_le 4095 bytes
  dsimp only at hread
  split at hread
  · cases hread
  · obtain rfl := Option.some.inj hread
    refine (length_untilNul_le _).trans ?_
    split
    · rw [List.length_dropLast]
      omega
    · exact htake

/-- And what is read of `cmdline`. -/
theorem length_readCmdline_le {content : Option (List UInt8)} {commandLine : CString}
    (h : readCmdline content = some commandLine) : commandLine.length ≤ 4095 := by
  obtain ⟨bytes, -, hread⟩ := Option.bind_eq_some_iff.mp h
  have htake := List.length_take_le 4095 bytes
  dsimp only at hread
  split at hread
  · cases hread
  · next hne =>
    obtain rfl := Option.some.inj hread
    have hpos := List.length_pos_iff.mpr hne
    have hlast : ((bytes.take 4095).getLast?.toList).length ≤ 1 := by
      cases (bytes.take 4095).getLast? <;> simp
    refine (length_untilNul_le _).trans ?_
    rw [List.length_append, List.length_map, List.length_dropLast]
    omega

theorem length_basename_le (path : CString) : (basename path).length ≤ path.length := by
  rw [basename, List.length_reverse]
  exact (List.takeWhile_sublist _).length_le.trans (List.length_reverse).le

/-- So a stored name is at most 4095 bytes long. -/
theorem length_storedName_le {reads : ProcReads} {pid : Int} {name : CString}
    (hlo : -2 ^ 31 ≤ pid) (hhi : pid < 2 ^ 31) (h : storedName reads pid = some name) :
    name.length ≤ 4095 := by
  unfold storedName at h
  cases hcomm : readComm reads.comm with
  | none =>
      rw [hcomm] at h
      dsimp only at h
      split at h
      · obtain rfl := Option.some.inj h
        split
        · decide
        · decide
        · next hcmdline =>
          exact (length_basename_le _).trans ((List.takeWhile_sublist _).length_le.trans
            (length_readCmdline_le hcmdline))
      · cases h
  | some comm =>
      rw [hcomm] at h
      dsimp only at h
      split at h
      · split at h
        · obtain rfl := Option.some.inj h
          have hpid : (cstr (toString pid)).length ≤ 11 :=
            length_cstr_toString_le_succ (by decide) (by omega) (by omega)
          have hprefix : (cstr "pid_").length = 4 := rfl
          rw [List.length_append]
          omega
        · cases h
      · obtain rfl := Option.some.inj h
        exact (List.takeWhile_sublist _).length_le.trans (length_readComm_le hcomm)

/-- `callchain->pid` is an `int`. -/
theorem intPid_range (callchain : CallchainResult) :
    -2 ^ 31 ≤ callchain.intPid ∧ callchain.intPid < 2 ^ 31 := by
  have hlo := Int.le_bmod (x := (callchain.pid.toNat : Int)) (m := 2 ^ 32) (by decide)
  have hhi := Int.bmod_lt (x := (callchain.pid.toNat : Int)) (m := 2 ^ 32) (by decide)
  unfold CallchainResult.intPid
  omega

section

variable {sys sys' : SystemContext} {pid : Int} {reads : ProcReads} {found : Option ProcessNode}

/-- The records after one has been added. -/
theorem has_add {table : ProcessTable} {node : ProcessNode} (hpid : node.info.processId = pid)
    (identity : Nat × Int × Nat × Option CString) :
    ProcessTable.Has (Function.update table (hashPid pid) (node :: table (hashPid pid)))
      identity ↔ table.Has identity ∨ identity = node.identity := by
  constructor
  · rintro ⟨n, hn, rfl⟩
    rcases (present_add hpid n).mp hn with hn | rfl
    · exact .inl ⟨n, hn, rfl⟩
    · exact .inr rfl
  · rintro (⟨n, hn, rfl⟩ | rfl)
    · exact ⟨n, (present_add hpid n).mpr (.inl hn), rfl⟩
    · exact ⟨node, (present_add hpid node).mpr (.inr rfl), rfl⟩

/-- The identity of the record that a lookup makes. -/
def newIdentity (sys : SystemContext) (pid : Int) (reads : ProcReads) :
    Nat × Int × Nat × Option CString :=
  (sys.fresh, pid, reads.startTime, storedName reads pid)

/-- What a lookup does: it finds the record of the pid, or fails, or makes one. -/
theorem findNew_cases (h : sys.findNew pid reads = (sys', found)) :
    sys'.kernelSymbols = sys.kernelSymbols ∧
    ((found = findProcess sys.processTable pid ∧
        ∀ identity, sys'.processTable.Has identity ↔ sys.processTable.Has identity) ∨
      findProcess sys.processTable pid = none ∧
        ∃ node, found = some node ∧ node.identity = newIdentity sys pid reads ∧
          ∀ identity, sys'.processTable.Has identity ↔
            sys.processTable.Has identity ∨ identity = newIdentity sys pid reads) := by
  unfold SystemContext.findNew findNewProcess at h
  cases hfind : findProcess sys.processTable pid with
  | some node =>
      rw [hfind] at h
      obtain ⟨rfl, rfl⟩ := Prod.mk.inj h
      exact ⟨rfl, .inl ⟨rfl, fun _ => Iff.rfl⟩⟩
  | none =>
      rw [hfind] at h
      dsimp only at h
      split at h
      · obtain ⟨rfl, rfl⟩ := Prod.mk.inj h
        exact ⟨rfl, .inl ⟨rfl, fun _ => Iff.rfl⟩⟩
      split at h
      · obtain ⟨rfl, rfl⟩ := Prod.mk.inj h
        exact ⟨rfl, .inl ⟨rfl, fun _ => Iff.rfl⟩⟩
      split at h
      · obtain ⟨rfl, rfl⟩ := Prod.mk.inj h
        exact ⟨rfl, .inl ⟨rfl, fun _ => Iff.rfl⟩⟩
      · obtain ⟨rfl, rfl⟩ := Prod.mk.inj h
        exact ⟨rfl, .inr ⟨rfl, _, rfl, rfl, has_add rfl⟩⟩

/-- A pid that has been removed is not found. -/
theorem findProcess_removeProcess {table : ProcessTable} (hwf : table.WF) (pid : Int) :
    findProcess (removeProcess table pid).1 pid = none := by
  refine Option.eq_none_iff_forall_ne_some.mpr fun n hn => ?_
  obtain ⟨hpid, hpresent⟩ := findProcess_eq_some hn
  exact ((present_removeProcess hwf n).mp hpresent).2 hpid

/-- What happens at a frame that finds another process under the pid: all
records of the pid go, and there is a new one or none. -/
theorem recycle_cases {node : ProcessNode} (hwf : sys.processTable.WF)
    (hpid : node.info.processId = pid) (h : sys.recycle node pid reads = (sys', found)) :
    sys'.kernelSymbols = sys.kernelSymbols ∧
    ((found = none ∧ ∀ identity, sys'.processTable.Has identity ↔
        sys.processTable.Has identity ∧ identity.2.1 ≠ pid) ∨
      ∃ node', found = some node' ∧ node'.identity = newIdentity sys pid reads ∧
        ∀ identity, sys'.processTable.Has identity ↔
          (sys.processTable.Has identity ∧ identity.2.1 ≠ pid) ∨
            identity = newIdentity sys pid reads) := by
  subst hpid
  have hkeep : ∀ identity, (removeProcess sys.processTable node.info.processId).1.Has identity ↔
      sys.processTable.Has identity ∧ identity.2.1 ≠ node.info.processId := by
    intro identity
    constructor
    · rintro ⟨n, hn, rfl⟩
      obtain ⟨hn, hne⟩ := (present_removeProcess hwf n).mp hn
      exact ⟨⟨n, hn, rfl⟩, hne⟩
    · rintro ⟨⟨n, hn, rfl⟩, hne⟩
      exact ⟨n, (present_removeProcess hwf n).mpr ⟨hn, hne⟩, rfl⟩
  have hnone := findProcess_removeProcess hwf node.info.processId
  obtain ⟨hkernel, ⟨hfound, hhas⟩ | ⟨-, node', hfound, hidentity, hhas⟩⟩ := findNew_cases h
  · refine ⟨hkernel, .inl ⟨hfound.trans hnone, fun identity => ?_⟩⟩
    rw [hhas, hkeep]
  · refine ⟨hkernel, .inr ⟨node', hfound, hidentity, fun identity => ?_⟩⟩
    rw [hhas, hkeep]
    rfl

end

/-! ## Totality -/

section

variable {sys sys' : SystemContext} {lost : List Nat} {pid : Int} {node : ProcessNode}
  {currentIp : UInt64}

/-- A record in the table is read at its address. -/
theorem Balanced.derefProcess_of_present (h : Balanced sys lost)
    (hn : Present sys.processTable node) : sys.derefProcess node.addr = some node := by
  unfold SystemContext.derefProcess
  cases hfind : (Buckets.entries hashtableSize sys.processTable).find? fun n =>
      n.addr = node.addr with
  | none =>
      have hmem : node ∈ Buckets.entries hashtableSize sys.processTable :=
        (h.table.placed.mem_entries hashPid_lt).mpr hn
      simpa using List.find?_eq_none.mp hfind node hmem
  | some n =>
      obtain ⟨hn', haddr⟩ := h.derefProcess hfind
      rw [h.table.addr n hn' node hn haddr]

/-- The file of an area is cached. -/
theorem Balanced.derefElf_isSome (h : Balanced sys lost) {elf : Nat}
    (helf : elf ∈ elfRefs (areas sys.processTable)) : (derefElf sys.elfCache elf).isSome := by
  have hcount : 0 < (elfRefs (areas sys.processTable) ++ lost).count elf := by
    rw [List.count_append]
    have := List.count_pos_iff.mpr helf
    omega
  obtain ⟨n, hn, haddr⟩ := h.counts.cached elf hcount
  rw [h.cache.derefElf_eq_some.mpr ⟨hn, haddr⟩]
  rfl

/-- Looking up the file of an area gives one that is cached, or none. -/
theorem Balanced.elfOfVma_isSome (h : Balanced sys lost) (hnode : Present sys.processTable node)
    {vma : VirtualMemoryArea}
    (hvma : findVmaFromProcess node.info.memoryMapTree currentIp = some vma) {reads : ElfReads}
    {elf : Nat} (hcall : sys.elfOfVma pid node.addr currentIp vma reads = (sys', some elf)) :
    (derefElf sys'.elfCache elf).isSome := by
  have hbalanced := (h.elfOfVma hnode hvma pid reads).1
  rw [hcall] at hbalanced
  refine hbalanced.derefElf_isSome ?_
  unfold SystemContext.elfOfVma at hcall
  cases hnull : vma.elfFile with
  | some elf' =>
      rw [hnull] at hcall
      obtain ⟨rfl, heq⟩ := Prod.mk.inj hcall
      obtain rfl := Option.some.inj heq
      obtain ⟨as, bs, htree, -⟩ := RbTree.modify_spec hvma id
      have harea : vma ∈ areas sys.processTable :=
        List.mem_flatMap.mpr ⟨node, (h.table.placed.mem_entries hashPid_lt).mpr hnode,
          by simp [htree]⟩
      exact List.mem_filterMap.mpr ⟨vma, harea, hnull⟩
  | none =>
      rw [hnull] at hcall
      dsimp only at hcall
      cases hcreate : findOrCreateElf sys.elfCache pid vma.mappingName reads sys.fresh with
      | mk elfCache found =>
        rw [hcreate] at hcall
        obtain ⟨rfl, rfl⟩ := Prod.mk.inj hcall
        exact (elfRefs_setElfFile currentIp (some elf) h.table hnode hvma hnull).mem_iff.mpr
          (by simp)

/-- Every name can be looked up. -/
theorem Balanced.userFuncName_isSome (h : Balanced sys lost)
    (hnode : Present sys.processTable node) (pid : Int) (currentIp : UInt64) (reads : ElfReads) :
    (Profiling.userFuncName sys pid node currentIp reads).isSome := by
  unfold Profiling.userFuncName
  split
  · rfl
  split
  · rfl
  split
  · rfl
  split
  · rfl
  next vma hvma _ _ _ _ =>
  split
  · rfl
  · next hcall =>
    rw [Option.isSome_map]
    exact h.elfOfVma_isSome hnode hvma hcall

end

/-! ## Sound states -/

/-- The tables as they are between two calls: balanced, with names that
`find_new_process` has stored. -/
structure SystemContext.Sound (sys : SystemContext) : Prop where
  balanced : ∃ lost, Balanced sys lost
  names : ∀ identity, sys.processTable.Has identity →
    ∀ name ∈ identity.2.2.2, name.length ≤ 4095

/-- The tables and the locals between two frames. -/
structure FrameInv (pid : Int) (sys : SystemContext) (c : Flame) : Prop where
  sound : sys.Sound
  held : ∀ addr ∈ c.procInfo, HoldsRecord sys pid addr

section

variable {sys sys' : SystemContext} {pid : Int} {c c' : Flame} {filterMode : FilterMode}
  {currentIp : UInt64} {reads : FrameReads}

/-- The record that `proc_info` points to has the pid. -/
theorem FrameInv.deref (h : FrameInv pid sys c) {addr : Nat} (hinfo : c.procInfo = some addr) :
    ∃ node, sys.derefProcess addr = some node ∧ Present sys.processTable node ∧
      node.info.processId = pid := by
  obtain ⟨lost, hbalanced⟩ := h.sound.balanced
  obtain ⟨node, hn, rfl, hpid⟩ := h.held addr (by simp [hinfo])
  exact ⟨node, hbalanced.derefProcess_of_present hn, hn, hpid⟩

theorem SystemContext.SameRecords.names (hsame : sys.SameRecords sys') (h : sys.Sound) :
    ∀ identity, sys'.processTable.Has identity → ∀ name ∈ identity.2.2.2, name.length ≤ 4095 :=
  fun identity hid => h.names identity ((hsame.has identity).mp hid)

/-- A lookup keeps the state sound. -/
theorem SystemContext.Sound.findNew (h : sys.Sound) (hlo : -2 ^ 31 ≤ pid) (hhi : pid < 2 ^ 31)
    {reads : ProcReads} (hparsed : reads.Parsed) {found : Option ProcessNode}
    (hfind : sys.findNew pid reads = (sys', found)) :
    sys'.Sound ∧ ∀ node ∈ found, Present sys'.processTable node ∧ node.info.processId = pid := by
  obtain ⟨lost, hbalanced⟩ := h.balanced
  obtain ⟨hbalanced', hfound⟩ := hbalanced.findNew hparsed pid
  rw [hfind] at hbalanced' hfound
  refine ⟨⟨⟨lost, hbalanced'⟩, fun identity hid name hname => ?_⟩, hfound⟩
  obtain ⟨-, ⟨-, hhas⟩ | ⟨-, node, -, -, hhas⟩⟩ := findNew_cases hfind
  · exact h.names identity ((hhas identity).mp hid) name hname
  · rcases (hhas identity).mp hid with hid | rfl
    · exact h.names identity hid name hname
    · exact length_storedName_le hlo hhi hname

/-- So does a removal. -/
theorem SystemContext.Sound.remove (h : sys.Sound) (pid : Int) :
    SystemContext.Sound { sys with processTable := (removeProcess sys.processTable pid).1 } := by
  obtain ⟨lost, hbalanced⟩ := h.balanced
  refine ⟨⟨_, hbalanced.remove pid⟩, ?_⟩
  rintro identity ⟨n, hn, rfl⟩
  exact h.names _ ⟨n, ((present_removeProcess hbalanced.table n).mp hn).1, rfl⟩

/-- And a cleanup. -/
theorem SystemContext.Sound.cleanup (h : sys.Sound) (alive : Int → Bool) :
    SystemContext.Sound
      { sys with processTable := (cleanupDeadProcesses alive sys.processTable).1 } := by
  obtain ⟨lost, hbalanced⟩ := h.balanced
  refine ⟨⟨_, hbalanced.cleanup alive⟩, ?_⟩
  rintro identity ⟨n, hn, rfl⟩
  exact h.names _ ⟨n, ((present_cleanup alive n).mp hn).1, rfl⟩

/-- A frame never reads a record or an entry that is gone. -/
theorem FrameInv.symbolizeFrame_isSome (h : FrameInv pid sys c) (hlo : -2 ^ 31 ≤ pid)
    (hhi : pid < 2 ^ 31) (hparsed : reads.process.Parsed) (filterMode : FilterMode)
    (currentIp : UInt64) : (symbolizeFrame filterMode pid sys c currentIp reads).isSome := by
  unfold symbolizeFrame
  split
  · rfl
  split
  · rfl
  unfold symbolizeUserFrame
  cases hinfo : c.procInfo with
  | none => rfl
  | some addr =>
      obtain ⟨node, hderef, hn, -⟩ := h.deref hinfo
      simp only [hderef]
      split
      · split
        · rfl
        · next hfind =>
          obtain ⟨⟨⟨lost, hbalanced⟩, -⟩, hfound⟩ :=
            (h.sound.remove node.info.processId).findNew hlo hhi hparsed hfind
          rw [Option.isSome_map]
          exact hbalanced.userFuncName_isSome (hfound _ rfl).1 pid currentIp reads.elf
      · obtain ⟨lost, hbalanced⟩ := h.sound.balanced
        rw [Option.isSome_map]
        exact hbalanced.userFuncName_isSome hn pid currentIp reads.elf

/-- **One frame.**  It goes through, and keeps the invariant. -/
theorem FrameInv.frame (h : FrameInv pid sys c) (hlo : -2 ^ 31 ≤ pid) (hhi : pid < 2 ^ 31)
    (hparsed : reads.process.Parsed) (filterMode : FilterMode) (currentIp : UInt64) :
    ∃ sys' c', symbolizeFrame filterMode pid sys c currentIp reads = some (sys', c') ∧
      FrameInv pid sys' c' := by
  obtain ⟨lost, hbalanced⟩ := h.sound.balanced
  obtain ⟨⟨sys', c'⟩, hframe⟩ := Option.isSome_iff_exists.mp
    (h.symbolizeFrame_isSome hlo hhi hparsed filterMode currentIp)
  obtain ⟨hbalanced', hheld⟩ := hbalanced.symbolizeFrame hparsed h.held hframe
  refine ⟨sys', c', hframe, ⟨⟨_, hbalanced'⟩, ?_⟩, hheld⟩
  cases symbolizeFrame_cases hframe with
  | filtered => exact h.sound.names
  | kernel => exact h.sound.names
  | unknown => exact h.sound.names
  | same _ _ _ _ hname => exact (userFuncName_spec hname).2.names h.sound
  | gone _ hinfo hderef _ hfind =>
      exact (h.sound.remove _ |>.findNew hlo hhi hparsed hfind).1.names
  | replaced _ hinfo hderef _ hfind hname =>
      exact (userFuncName_spec hname).2.names
        (h.sound.remove _ |>.findNew hlo hhi hparsed hfind).1

end

/-! ## The frame loop -/

/-- `symbolize_sample` up to the frame loop. -/
def enterSample (sys : SystemContext) (callchain : CallchainResult) (reads : ProcReads) :
    SystemContext × Flame :=
  let pid := callchain.intPid
  let start := sys.findNew pid reads
  (start.1, (Flame.enter ⟨none, [], [], 0⟩ start.2).header pid)

/-- The tables and the locals after the first `n` iterations. -/
def afterFrames (filterMode : FilterMode) (sys : SystemContext) (callchain : CallchainResult)
    (reads : SampleReads) (n : Nat) : Option (SystemContext × Flame) :=
  let start := enterSample sys callchain reads.process
  frameLoop filterMode callchain.intPid reads.frame 0 ((allIps callchain).take n) start.1 start.2

/-- What is read while a sample is symbolized has areas without files. -/
structure SampleReads.Parsed (reads : SampleReads) : Prop where
  process : reads.process.Parsed
  frame : ∀ i, (reads.frame i).process.Parsed

theorem frameLoop_concat (filterMode : FilterMode) (pid : Int) (reads : Nat → FrameReads)
    (ips : List UInt64) (currentIp : UInt64) (i : Nat) (sys : SystemContext) (c : Flame) :
    frameLoop filterMode pid reads i (ips ++ [currentIp]) sys c =
      (frameLoop filterMode pid reads i ips sys c).bind fun next =>
        symbolizeFrame filterMode pid next.1 next.2 currentIp (reads (i + ips.length)) := by
  induction ips generalizing i sys c with
  | nil => exact Option.bind_fun_some _
  | cons ip ips ih =>
      rw [List.cons_append, frameLoop, frameLoop, Option.bind_assoc]
      refine congrArg _ (funext fun next => ?_)
      rw [List.length_cons, Nat.add_comm ips.length 1, ← Nat.add_assoc]
      exact ih (i + 1) next.1 next.2

section

variable {filterMode : FilterMode} {sys : SystemContext} {callchain : CallchainResult}
  {reads : SampleReads}

theorem symbolizeSample_eq :
    symbolizeSample filterMode sys callchain reads =
      (afterFrames filterMode sys callchain reads (allIps callchain).length).map fun (sys, c) =>
        (sys, sys.realtimeTimestampNs callchain,
          dbStackStr callchain.intPid c.processName c.flameBuffer) := by
  rw [afterFrames, List.take_length]
  rfl

theorem afterFrames_zero : afterFrames filterMode sys callchain reads 0 =
    some (enterSample sys callchain reads.process) := rfl

theorem afterFrames_succ {n : Nat} (hn : n < (allIps callchain).length) :
    afterFrames filterMode sys callchain reads (n + 1) =
      (afterFrames filterMode sys callchain reads n).bind fun next =>
        symbolizeFrame filterMode callchain.intPid next.1 next.2 (allIps callchain)[n]
          (reads.frame n) := by
  rw [afterFrames, List.take_succ_eq_append_getElem hn, frameLoop_concat, Nat.zero_add,
    List.length_take, Nat.min_eq_left (Nat.le_of_lt hn)]
  rfl

/-- In front of the loop the header is complete, and leaves room for frames. -/
theorem enterSample_spec (hsys : sys.Sound) (callchain : CallchainResult) {process : ProcReads}
    (hparsed : process.Parsed) :
    let start := enterSample sys callchain process
    FrameInv callchain.intPid start.1 start.2 ∧
      start.2.flameBuffer = start.2.processName ++ cstr "[" ++ cstr (toString callchain.intPid)
        ++ cstr "]" ∧
      start.2.flameLen = start.2.flameBuffer.length ∧ start.2.flameLen ≤ 4108 := by
  obtain ⟨hlo, hhi⟩ := intPid_range callchain
  cases hfind : sys.findNew callchain.intPid process with
  | mk sys' found =>
    obtain ⟨hsound, hfound⟩ := hsys.findNew hlo hhi hparsed hfind
    have hname : ((found.bind (·.info.processName)).getD (cstr "unknown")).length ≤ 4095 := by
      cases hbind : found.bind (·.info.processName) with
      | none => decide
      | some name =>
          obtain ⟨node, hnode, hname⟩ := Option.bind_eq_some_iff.mp hbind
          exact hsound.names _ ⟨node, (hfound node hnode).1, rfl⟩ name hname
    have hpid : (cstr (toString callchain.intPid)).length ≤ 11 :=
      length_cstr_toString_le_succ (by decide) (by omega) (by omega)
    have hbrackets : (cstr "[").length = 1 ∧ (cstr "]").length = 1 := ⟨rfl, rfl⟩
    simp only [enterSample, hfind, Flame.header, Flame.enter]
    generalize (found.bind (·.info.processName)).getD (cstr "unknown") = name at hname
    have hlen : (name ++ cstr "[" ++ cstr (toString callchain.intPid) ++ cstr "]").length ≤
        4108 := by
      simp only [List.length_append]
      omega
    refine ⟨⟨hsound, fun addr ha => ?_⟩, ?_, ?_, hlen⟩
    · obtain ⟨node, hnode, rfl⟩ := Option.map_eq_some_iff.mp ha
      obtain ⟨hn, hpid⟩ := hfound node hnode
      exact ⟨node, hn, rfl, hpid⟩
    · exact List.take_of_length_le (by omega)
    · rw [List.take_of_length_le (by omega)]

/-- **The loop runs through.**  After any number of frames the tables and the
locals fit each other. -/
theorem afterFrames_inv (hsys : sys.Sound) (callchain : CallchainResult) (hparsed : reads.Parsed)
    (filterMode : FilterMode) {n : Nat} (hn : n ≤ (allIps callchain).length) :
    ∃ sys' c', afterFrames filterMode sys callchain reads n = some (sys', c') ∧
      FrameInv callchain.intPid sys' c' := by
  obtain ⟨hlo, hhi⟩ := intPid_range callchain
  induction n with
  | zero => exact ⟨_, _, afterFrames_zero, (enterSample_spec hsys callchain hparsed.process).1⟩
  | succ n ih =>
      obtain ⟨sys', c', hafter, hinv⟩ := ih (by omega)
      rw [afterFrames_succ (by omega), hafter]
      exact hinv.frame hlo hhi (hparsed.frame n) filterMode _

end

/-! ## Reachable states -/

namespace RefState

/-- The tables are sound, and so are the locals of the call that is going on. -/
structure SoundInv (s : RefState) : Prop where
  sound : s.sys.Sound
  range : ∀ c, s.sample = some c → -2 ^ 31 ≤ c.pid ∧ c.pid < 2 ^ 31
  frame : ∀ c, s.sample = some c → FrameInv c.pid s.sys c.flame

theorem soundInv_init {s : RefState} (h : refMachine.init s) : s.SoundInv := by
  have hinv := inv_init h
  obtain ⟨htable, -, hsample, -⟩ := h
  refine ⟨⟨⟨_, hinv.balanced⟩, ?_⟩, by simp [hsample], by simp [hsample]⟩
  rintro identity ⟨n, hn, -⟩
  simp [htable, Present] at hn

/-- A step that leaves no call going on. -/
theorem SoundInv.idle {s : RefState} (hsound : s.sys.Sound) (hsample : s.sample = none) :
    s.SoundInv := ⟨hsound, by simp [hsample], by simp [hsample]⟩

theorem soundInv_step {s t : RefState} {a : RefAction} (hi : s.SoundInv)
    (h : s.step a = some t) : t.SoundInv := by
  obtain ⟨hcase, -⟩ := step_cases h
  obtain ⟨sys, sample, lost⟩ := t
  dsimp only at hcase
  cases hcase with
  | @sample filterMode callchain reads _ found hidle hparsed hfind =>
      have hstart := (enterSample_spec hi.sound callchain hparsed).1
      simp only [enterSample, hfind] at hstart
      refine ⟨hstart.sound, fun c hc => ?_, fun c hc => ?_⟩ <;> obtain rfl := Option.some.inj hc
      · dsimp only
        exact intPid_range callchain
      · dsimp only
        exact hstart
  | @frame reads c currentIp ips _ flame hc hips hparsed hframe =>
      obtain ⟨hlo, hhi⟩ := hi.range c hc
      obtain ⟨sys₁, flame₁, hframe₁, hinv⟩ :=
        (hi.frame c hc).frame hlo hhi hparsed c.filterMode currentIp
      obtain ⟨rfl, rfl⟩ := Prod.mk.inj (Option.some.inj (hframe₁.symm.trans hframe))
      refine ⟨hinv.sound, fun c' hc' => ?_, fun c' hc' => ?_⟩ <;>
        obtain rfl := Option.some.inj hc'
      · exact ⟨hlo, hhi⟩
      · exact hinv
  | finish => exact .idle hi.sound rfl
  | remove => exact .idle (hi.sound.remove _) rfl
  | cleanup => exact .idle (hi.sound.cleanup _) rfl

end RefState

/-- Every state that the calls lead to is sound. -/
theorem sound_of_reachable {s : RefState} (h : refMachine.Reachable s) : s.sys.Sound :=
  (refMachine.invariant (fun _ => RefState.soundInv_init)
    (fun _ _ _ => RefState.soundInv_step) h).sound

end Profiling
