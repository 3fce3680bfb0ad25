import Profiling.Symbolize

/-!
# Profiling.Symbolize.References

The references from memory areas to entries of the ELF cache, over whole runs
of `symbolize_sample`, `remove_process` and `cleanup_dead_processes`.

`symbolize_sample` takes a reference for an area when it first looks its file
up.  Freeing a tree of areas gives none back: `release_elf_by_ptr` has no
caller.  So the counts and the areas agree for as long as no area with a file
has been freed, and never again afterwards (`elf_references_exact`).  A ghost
field of the state keeps the references that went with freed areas.
-/

namespace Profiling

/-! ## References -/

/-- The memory areas of all processes. -/
def areas (table : ProcessTable) : List VirtualMemoryArea :=
  (Buckets.entries hashtableSize table).flatMap fun node => node.info.memoryMapTree.toList

/-- The references that an area is one of. -/
def elfRefs (vmas : List VirtualMemoryArea) : List Nat := vmas.filterMap (·.elfFile)

/-- The references that the areas of these records are. -/
def recordRefs (nodes : List ProcessNode) : List Nat :=
  elfRefs (nodes.flatMap fun node => node.info.memoryMapTree.toList)

/-- Each count is the number of areas that point to the entry, every area points
to an entry that is cached, and an entry without areas is not. -/
structure RefsExact (sys : SystemContext) : Prop where
  count : ∀ elf, Cached sys.elfCache elf →
    elf.referenceCount = (areas sys.processTable).countP (·.elfFile = some elf.addr)
  cached : ∀ vma ∈ areas sys.processTable, ∀ addr, vma.elfFile = some addr →
    ∃ elf, Cached sys.elfCache elf ∧ elf.addr = addr
  used : ∀ elf, Cached sys.elfCache elf →
    ∃ vma ∈ areas sys.processTable, vma.elfFile = some elf.addr

theorem count_elfRefs (vmas : List VirtualMemoryArea) (addr : Nat) :
    (elfRefs vmas).count addr = vmas.countP (·.elfFile = some addr) := by
  induction vmas with
  | nil => rfl
  | cons vma vmas ih =>
      rw [elfRefs, List.filterMap_cons, List.countP_cons, ← ih]
      cases h : vma.elfFile with
      | none => simp [elfRefs]
      | some a =>
          by_cases ha : a = addr
          · simp [elfRefs, ha]
          · simp [elfRefs, ha]

/-! ## Runs -/

/-- A call of `symbolize_sample` that is going on. -/
structure SampleRun where
  filterMode : FilterMode
  pid : Int
  /-- the addresses that are still to be symbolized -/
  ips : List UInt64
  flame : Flame

structure RefState where
  sys : SystemContext
  sample : Option SampleRun
  /-- the references that areas had when they were freed -/
  lost : List Nat

/-- The calls; one of `symbolize_sample` takes a step for each of its frames. -/
inductive RefAction where
  | sample (filterMode : FilterMode) (callchain : CallchainResult) (reads : ProcReads)
  | frame (reads : FrameReads)
  | finish
  | remove (pid : Int)
  | cleanup (alive : Int → Bool)

/-- `parse_process_memory_maps` sets `elf_file` to `NULL`. -/
def ProcReads.Parsed (reads : ProcReads) : Prop :=
  ∀ tree ∈ reads.maps, ∀ vma ∈ tree.toList, vma.elfFile = none

instance (reads : ProcReads) : Decidable reads.Parsed :=
  inferInstanceAs (Decidable (∀ tree ∈ reads.maps, ∀ vma ∈ tree.toList, vma.elfFile = none))

/-- The record that a frame frees, if the pid of the one it looks at is another
process's now. -/
def recycledBy (sys : SystemContext) (c : Flame) (reads : FrameReads) : Option ProcessNode :=
  ((c.procInfo.bind sys.derefProcess).filter (·.info.startTime ≠ reads.startTime)).bind
    fun node => (removeProcess sys.processTable node.info.processId).2

namespace RefState

/-- The record that the next frame frees. -/
def recycled (s : RefState) (reads : FrameReads) : Option ProcessNode :=
  match s.sample with
  | none => none
  | some c =>
      match c.ips with
      | [] => none
      | currentIp :: _ =>
          if filteredOut c.filterMode currentIp || isKernelAddr currentIp then none
          else recycledBy s.sys c.flame reads

/-- The records that a step frees. -/
def freed (s : RefState) : RefAction → List ProcessNode
  | .sample .. | .finish => []
  | .frame reads => (s.recycled reads).toList
  | .remove pid => (removeProcess s.sys.processTable pid).2.toList
  | .cleanup alive => (cleanupDeadProcesses alive s.sys.processTable).2

/-- What a step does to the system; one call is made after the other. -/
def stepSystem (s : RefState) : RefAction → Option (SystemContext × Option SampleRun)
  | .sample filterMode callchain reads =>
      match s.sample with
      | some _ => none
      | none =>
          if reads.Parsed then
            let (sys, found) := s.sys.findNew callchain.intPid reads
            some (sys, some
              { filterMode
                pid := callchain.intPid
                ips := allIps callchain
                flame := (Flame.enter ⟨none, [], [], 0⟩ found).header callchain.intPid })
          else none
  | .frame reads =>
      match s.sample with
      | none => none
      | some c =>
          match c.ips with
          | [] => none
          | currentIp :: ips =>
              if reads.process.Parsed then
                (symbolizeFrame c.filterMode c.pid s.sys c.flame currentIp reads).map
                  fun (sys, flame) => (sys, some { c with ips, flame })
              else none
  | .finish =>
      match s.sample with
      | none => none
      | some c => if c.ips = [] then some (s.sys, none) else none
  | .remove pid =>
      match s.sample with
      | some _ => none
      | none =>
          some ({ s.sys with processTable := (removeProcess s.sys.processTable pid).1 }, none)
  | .cleanup alive =>
      match s.sample with
      | some _ => none
      | none =>
          some ({ s.sys with
            processTable := (cleanupDeadProcesses alive s.sys.processTable).1 }, none)

/-- One step. -/
def step (s : RefState) (a : RefAction) : Option RefState :=
  (s.stepSystem a).map fun (sys, sample) =>
    { sys, sample, lost := s.lost ++ recordRefs (s.freed a) }

/-- The step frees no area that has a file. -/
def FreesNoElf (s : RefState) (a : RefAction) : Prop := recordRefs (s.freed a) = []

instance (s : RefState) (a : RefAction) : Decidable (s.FreesNoElf a) :=
  inferInstanceAs (Decidable (_ = _))

end RefState

/-- The calls on the system that `initialize_system` has set up. -/
def refMachine : Machine RefState RefAction where
  init s := s.sys.processTable = (fun _ => []) ∧ s.sys.elfCache = (fun _ => []) ∧
    s.sample = none ∧ s.lost = []
  step := RefState.step

/-! ## What the steps do to the areas -/

section Areas

variable {table : ProcessTable} {node : ProcessNode}

theorem recordRefs_perm {nodes nodes' : List ProcessNode} (h : nodes.Perm nodes') :
    (recordRefs nodes).Perm (recordRefs nodes') :=
  (h.flatMap_right _).filterMap _

@[simp] theorem recordRefs_nil : recordRefs [] = [] := rfl

theorem recordRefs_append (nodes nodes' : List ProcessNode) :
    recordRefs (nodes ++ nodes') = recordRefs nodes ++ recordRefs nodes' := by
  simp [recordRefs, elfRefs]

theorem elfRefs_areas (table : ProcessTable) :
    elfRefs (areas table) = recordRefs (Buckets.entries hashtableSize table) := rfl

/-- A new record has no references yet. -/
theorem elfRefs_findNewProcess (table : ProcessTable) (pid : Int) {reads : ProcReads}
    (hparsed : reads.Parsed) (fresh : Nat) :
    (elfRefs (areas (findNewProcess table pid reads fresh).1)).Perm (elfRefs (areas table)) := by
  rcases findNewProcess_cases table pid reads fresh with
    ⟨node, hcase, -⟩ | hcase | ⟨node, hcase, rfl, hmaps, -⟩
  · rw [hcase]
  · rw [hcase]
  · have hnone : recordRefs [node] = [] := by
      rw [recordRefs, List.flatMap_singleton]
      exact List.filterMap_eq_nil_iff.mpr fun vma hvma => hparsed _ hmaps vma hvma
    rw [hcase, elfRefs_areas, elfRefs_areas]
    refine (recordRefs_perm (Buckets.entries_push_perm (hashPid_lt _) node)).trans ?_
    rw [← List.singleton_append, recordRefs_append, hnone, List.nil_append]

/-- A removal takes the references of the record with it. -/
theorem elfRefs_removeProcess (table : ProcessTable) (pid : Int) :
    (elfRefs (areas table)).Perm
      (recordRefs (removeProcess table pid).2.toList ++
        elfRefs (areas (removeProcess table pid).1)) := by
  simp only [elfRefs_areas, ← recordRefs_append, removeProcess, unlink_eq]
  exact recordRefs_perm (Buckets.entries_eraseP_perm (hashPid_lt pid) _)

/-- A cleanup takes the references of the dead with it. -/
theorem elfRefs_cleanup (table : ProcessTable) (alive : Int → Bool) :
    (elfRefs (areas table)).Perm
      (recordRefs (cleanupDeadProcesses alive table).2 ++
        elfRefs (areas (cleanupDeadProcesses alive table).1)) := by
  simp only [elfRefs_areas, ← recordRefs_append]
  have hkept : Buckets.entries hashtableSize (cleanupDeadProcesses alive table).1 =
      (Buckets.entries hashtableSize table).filter (alive ·.info.processId) := by
    rw [Buckets.entries, Buckets.entries, List.filter_flatMap]
    refine List.flatMap_congr fun i hi => ?_
    simp only [cleanupDeadProcesses, cleanupChain_eq, List.mem_range.mp hi, if_true]
  have hgone : (cleanupDeadProcesses alive table).2 =
      (Buckets.entries hashtableSize table).filter (!alive ·.info.processId) := by
    simp only [cleanupDeadProcesses, cleanupChain_eq, Buckets.entries, List.filter_flatMap]
  rw [hkept, hgone]
  exact recordRefs_perm ((List.filter_append_perm _ _).symm.trans List.perm_append_comm)

/-- The records after a change that keeps the pids. -/
theorem present_map {f : ProcessNode → ProcessNode}
    (hf : ∀ n, (f n).info.processId = n.info.processId) (n : ProcessNode) :
    Present (fun i => (table i).map f) n ↔ ∃ m, Present table m ∧ f m = n :=
  @Buckets.mem_map _ _ (fun m : ProcessNode => m.info.processId) hashPid table n f hf

variable (addr : Nat) (realAddr : UInt64) (elf : Option Nat)

/-- What a write to `elf_file` does to a record. -/
theorem exists_setElfFile (table : ProcessTable) :
    ∃ f : ProcessNode → ProcessNode,
      table.setElfFile addr realAddr elf = (fun i => (table i).map f) ∧
      (∀ n, (f n).addr = n.addr ∧ (f n).info.processId = n.info.processId) ∧
      (∀ n, n.addr ≠ addr → f n = n) ∧
      ∀ n, n.addr = addr → (f n).info.memoryMapTree =
        n.info.memoryMapTree.modify (vmaCut realAddr) fun vma => { vma with elfFile := elf } := by
  refine ⟨_, rfl, fun n => ?_, fun n hn => if_neg hn, fun n hn => ?_⟩
  · dsimp only
    split <;> exact ⟨rfl, rfl⟩
  · rw [if_pos hn]

theorem present_setElfFile (n : ProcessNode) (hn : Present table n) :
    ∃ n', Present (table.setElfFile addr realAddr elf) n' ∧ n'.addr = n.addr ∧
      n'.info.processId = n.info.processId := by
  obtain ⟨f, hf, hkeep, -, -⟩ := exists_setElfFile addr realAddr elf table
  rw [hf]
  exact ⟨f n, (present_map (fun n => (hkeep n).2) _).mpr ⟨n, hn, rfl⟩, hkeep n⟩

theorem ProcessTable.WF.setElfFile (h : table.WF) :
    (table.setElfFile addr realAddr elf).WF ∧
      ∀ n', Present (table.setElfFile addr realAddr elf) n' →
        ∃ n, Present table n ∧ n.addr = n'.addr := by
  obtain ⟨f, hf, hkeep, -, -⟩ := exists_setElfFile addr realAddr elf table
  rw [hf]
  have hplaced := h.placed.map fun n => (hkeep n).2
  have hold : ∀ n', Present (fun i => (table i).map f) n' → ∃ n, Present table n ∧ f n = n' :=
    fun n' => (present_map (fun n => (hkeep n).2) n').mp
  refine ⟨⟨hplaced.bucket, hplaced.distinct, fun n hn n' hn' heq => ?_⟩, fun n' hn' => ?_⟩
  · obtain ⟨m, hm, rfl⟩ := hold n hn
    obtain ⟨m', hm', rfl⟩ := hold n' hn'
    rw [(hkeep m).1, (hkeep m').1] at heq
    rw [h.addr m hm m' hm' heq]
  · obtain ⟨n, hn, rfl⟩ := hold n' hn'
    exact ⟨n, hn, (hkeep n).1.symm⟩

/-- A write to the `elf_file` of an area that has none adds one reference. -/
theorem elfRefs_setElfFile (h : table.WF) (hnode : Present table node)
    {vma : VirtualMemoryArea}
    (hvma : findVmaFromProcess node.info.memoryMapTree realAddr = some vma)
    (hnull : vma.elfFile = none) :
    (elfRefs (areas (table.setElfFile node.addr realAddr elf))).Perm
      (elf.toList ++ elfRefs (areas table)) := by
  obtain ⟨f, hf, -, hother, hthis⟩ := exists_setElfFile node.addr realAddr elf table
  obtain ⟨as, bs, hsplit⟩ := List.append_of_mem ((h.placed.mem_entries hashPid_lt).mpr hnode)
  have hfix : ∀ n ∈ as ++ bs, f n = n := by
    intro n hn
    have hkeys := h.placed.nodup_entries hashtableSize
    have hentry : n ∈ Buckets.entries hashtableSize table := by
      rw [hsplit]
      grind
    refine hother n fun haddr => ?_
    obtain rfl := h.addr n ((h.placed.mem_entries hashPid_lt).mp hentry) node hnode haddr
    rw [hsplit, List.map_append, List.map_cons, List.nodup_append, List.nodup_cons] at hkeys
    rcases List.mem_append.mp hn with hn | hn
    · exact hkeys.2.2 _ (List.mem_map_of_mem hn) _ (List.mem_cons_self ..) rfl
    · exact hkeys.2.1.1 (List.mem_map_of_mem hn)
  obtain ⟨vs, ws, htree, hmodify⟩ := RbTree.modify_spec hvma fun vma => { vma with elfFile := elf }
  have has : as.map f = as :=
    (List.map_congr_left fun n hn => hfix n (List.mem_append_left _ hn)).trans (List.map_id' as)
  have hbs : bs.map f = bs :=
    (List.map_congr_left fun n hn => hfix n (List.mem_append_right _ hn)).trans (List.map_id' bs)
  have hnew : recordRefs [f node] = elfRefs vs ++ elf.toList ++ elfRefs ws := by
    rw [recordRefs, List.flatMap_singleton, hthis node rfl, hmodify]
    cases elf <;> simp [elfRefs]
  have hold : recordRefs [node] = elfRefs vs ++ elfRefs ws := by
    rw [recordRefs, List.flatMap_singleton, htree]
    simp [elfRefs, hnull]
  have hentries : Buckets.entries hashtableSize (table.setElfFile node.addr realAddr elf) =
      as ++ ([f node] ++ bs) := by
    rw [hf, Buckets.entries_map, hsplit, List.map_append, List.map_cons, has, hbs]
    rfl
  have hsplit : Buckets.entries hashtableSize table = as ++ ([node] ++ bs) := hsplit
  rw [elfRefs_areas, elfRefs_areas, hentries, hsplit]
  simp only [recordRefs_append, hnew, hold]
  rw [List.perm_iff_count]
  intro a
  simp only [List.count_append]
  omega

end Areas

/-! ## The invariant -/

/-- The tables are well formed, and the counts are those of the areas there are
and of the ones that were freed. -/
structure Balanced (sys : SystemContext) (lost : List Nat) : Prop where
  table : sys.processTable.WF
  addr_lt : ∀ node, Present sys.processTable node → node.addr < sys.fresh
  cache : sys.elfCache.WF sys.fresh
  counts : sys.elfCache.Counts fun addr => (elfRefs (areas sys.processTable) ++ lost).count addr

/-- The record at an address is one of this pid. -/
def HoldsRecord (sys : SystemContext) (pid : Int) (addr : Nat) : Prop :=
  ∃ node, Present sys.processTable node ∧ node.addr = addr ∧ node.info.processId = pid

/-- Counts depend on how often a reference occurs. -/
theorem ElfCache.Counts.congr {cache : ElfCache} {refs refs' : Nat → Nat} (h : cache.Counts refs)
    (heq : ∀ addr, refs' addr = refs addr) : cache.Counts refs' := (funext heq) ▸ h

section Steps

variable {sys sys' : SystemContext} {lost : List Nat} {node : ProcessNode} {pid : Int}

/-- A lookup keeps the balance, and what it returns is in the table. -/
theorem Balanced.findNew (h : Balanced sys lost) {reads : ProcReads} (hparsed : reads.Parsed)
    (pid : Int) :
    Balanced (sys.findNew pid reads).1 lost ∧
      ∀ node ∈ (sys.findNew pid reads).2, Present (sys.findNew pid reads).1.processTable node ∧
        node.info.processId = pid := by
  have hrefs := elfRefs_findNewProcess sys.processTable pid hparsed sys.fresh
  have hcounts : sys.elfCache.Counts fun addr => (elfRefs (areas (findNewProcess sys.processTable
      pid reads sys.fresh).1) ++ lost).count addr :=
    h.counts.congr fun addr => (hrefs.append_right lost).count_eq addr
  have hcache := h.cache.mono (Nat.le_succ sys.fresh)
  have hlt : ∀ node, Present sys.processTable node → node.addr < sys.fresh + 1 := fun node hn =>
    Nat.lt_succ_of_lt (h.addr_lt node hn)
  simp only [SystemContext.findNew]
  rcases findNewProcess_cases sys.processTable pid reads sys.fresh with
    ⟨node, hcase, hpid, hn⟩ | hcase | ⟨node, hcase, hpid, -, hfresh, hnone⟩
  · rw [hcase] at hcounts ⊢
    refine ⟨⟨h.table, hlt, hcache, hcounts⟩, fun n hn' => ?_⟩
    obtain rfl := Option.some.inj hn'
    exact ⟨hn, hpid⟩
  · rw [hcase] at hcounts ⊢
    exact ⟨⟨h.table, hlt, hcache, hcounts⟩, fun n hn' => by cases hn'⟩
  · rw [hcase] at hcounts ⊢
    refine ⟨⟨h.table.add hpid hnone fun n hn => ?_, fun n hn => ?_, hcache, hcounts⟩,
      fun n hn' => ?_⟩
    · exact hfresh ▸ Nat.ne_of_lt (h.addr_lt n hn)
    · rcases (present_add hpid n).mp hn with hn | rfl
      · exact hlt n hn
      · exact hfresh ▸ Nat.lt_succ_self _
    · obtain rfl := Option.some.inj hn'
      exact ⟨(present_add hpid node).mpr (.inr rfl), hpid⟩

/-- A removal loses the references of the record. -/
theorem Balanced.remove (h : Balanced sys lost) (pid : Int) :
    Balanced { sys with processTable := (removeProcess sys.processTable pid).1 }
      (lost ++ recordRefs (removeProcess sys.processTable pid).2.toList) := by
  refine ⟨h.table.removeProcess pid, fun n hn => ?_, h.cache, h.counts.congr fun addr => ?_⟩
  · exact h.addr_lt n ((present_removeProcess h.table n).mp hn).1
  · have hrefs := (elfRefs_removeProcess sys.processTable pid).count_eq addr
    simp only [List.count_append] at hrefs ⊢
    omega

/-- A cleanup loses the references of the dead. -/
theorem Balanced.cleanup (h : Balanced sys lost) (alive : Int → Bool) :
    Balanced { sys with processTable := (cleanupDeadProcesses alive sys.processTable).1 }
      (lost ++ recordRefs (cleanupDeadProcesses alive sys.processTable).2) := by
  refine ⟨h.table.cleanup alive, fun n hn => ?_, h.cache, h.counts.congr fun addr => ?_⟩
  · exact h.addr_lt n ((present_cleanup alive n).mp hn).1
  · have hrefs := (elfRefs_cleanup sys.processTable alive).count_eq addr
    simp only [List.count_append] at hrefs ⊢
    omega

/-- Looking up the file of an area takes a reference, if it has none yet. -/
theorem Balanced.elfOfVma (h : Balanced sys lost) (hnode : Present sys.processTable node)
    {currentIp : UInt64} {vma : VirtualMemoryArea}
    (hvma : findVmaFromProcess node.info.memoryMapTree currentIp = some vma) (pid : Int)
    (reads : ElfReads) :
    Balanced (sys.elfOfVma pid node.addr currentIp vma reads).1 lost ∧
      ∀ addr pid', HoldsRecord sys pid' addr →
        HoldsRecord (sys.elfOfVma pid node.addr currentIp vma reads).1 pid' addr := by
  unfold SystemContext.elfOfVma
  cases hnull : vma.elfFile with
  | some elf => exact ⟨h, fun _ _ hheld => hheld⟩
  | none =>
      obtain ⟨hcache, hcounts⟩ := ElfCache.findOrCreateElf_spec h.cache h.counts pid
        vma.mappingName reads
      dsimp only
      cases hcall : findOrCreateElf sys.elfCache pid vma.mappingName reads sys.fresh with
      | mk elfCache elf =>
        rw [hcall] at hcache hcounts
        have hrefs := elfRefs_setElfFile currentIp elf h.table hnode hvma hnull
        obtain ⟨htable, hold⟩ := h.table.setElfFile node.addr currentIp elf
        refine ⟨⟨htable, fun n hn => ?_, hcache, ?_⟩, ?_⟩
        · obtain ⟨m, hm, heq⟩ := hold n hn
          exact heq ▸ Nat.lt_succ_of_lt (h.addr_lt m hm)
        · cases elf with
          | none =>
              dsimp only at hcounts
              rw [hcounts]
              refine h.counts.congr fun addr => ?_
              rw [(hrefs.append_right lost).count_eq, Option.toList_none, List.nil_append]
          | some addr =>
              refine ElfCache.Counts.congr hcounts fun a => ?_
              rw [(hrefs.append_right lost).count_eq, Function.update_apply]
              by_cases ha : a = addr
              · subst ha
                simp
              · simp [ha, Ne.symm ha]
        · rintro addr pid' ⟨n, hn, haddr, hpid⟩
          obtain ⟨n', hn', haddr', hpid'⟩ := present_setElfFile node.addr currentIp elf n hn
          exact ⟨n', hn', haddr'.trans haddr, hpid'.trans hpid⟩

/-- The references stay balanced while a name is looked up. -/
theorem Balanced.userFuncName (h : Balanced sys lost) (hnode : Present sys.processTable node)
    {currentIp : UInt64} {reads : ElfReads} {funcName : CString}
    (hname : userFuncName sys pid node currentIp reads = some (sys', funcName)) :
    Balanced sys' lost ∧
      ∀ addr pid', HoldsRecord sys pid' addr → HoldsRecord sys' pid' addr := by
  have hsame : ∀ {name : CString}, some (sys, name) = some (sys', funcName) → Balanced sys' lost ∧
      ∀ addr pid', HoldsRecord sys pid' addr → HoldsRecord sys' pid' addr := by
    intro name heq
    obtain ⟨rfl, -⟩ := Prod.mk.inj (Option.some.inj heq)
    exact ⟨h, fun _ _ hheld => hheld⟩
  unfold Profiling.userFuncName at hname
  split at hname
  · exact hsame hname
  · cases hvma : findVmaFromProcess node.info.memoryMapTree currentIp with
    | none =>
        rw [hvma] at hname
        exact hsame hname
    | some vma =>
        have hstep := h.elfOfVma hnode hvma pid reads
        rw [hvma] at hname
        dsimp only at hname
        cases hmapping : vma.mappingName with
        | none =>
            rw [hmapping] at hname
            exact hsame hname
        | some mappingName =>
            rw [hmapping] at hname
            dsimp only at hname
            split at hname
            · exact hsame hname
            · cases hcall : sys.elfOfVma pid node.addr currentIp vma reads with
              | mk sys₁ elf =>
                rw [hcall] at hname hstep
                cases elf with
                | none =>
                    obtain ⟨rfl, -⟩ := Prod.mk.inj (Option.some.inj hname)
                    exact hstep
                | some elf =>
                    dsimp only at hname
                    obtain ⟨_, -, heq⟩ := Option.map_eq_some_iff.mp hname
                    obtain ⟨rfl, -⟩ := Prod.mk.inj heq
                    exact hstep

theorem Balanced.derefProcess (h : Balanced sys lost) {addr : Nat}
    (hderef : sys.derefProcess addr = some node) :
    Present sys.processTable node ∧ node.addr = addr := by
  unfold SystemContext.derefProcess at hderef
  have hmem := List.mem_of_find?_eq_some hderef
  have haddr := List.find?_some hderef
  exact ⟨(h.table.placed.mem_entries hashPid_lt).mp hmem, by simpa using haddr⟩

theorem procInfo_append (c : Flame) (funcName : CString) :
    (c.append funcName).procInfo = c.procInfo := by
  unfold Flame.append
  split <;> rfl

/-- A record whose pid is another process's now is freed. -/
theorem recycledBy_of_ne {c : Flame} {reads : FrameReads} {addr : Nat}
    (hinfo : c.procInfo = some addr) (hderef : sys.derefProcess addr = some node)
    (hstale : node.info.startTime ≠ reads.startTime) :
    recycledBy sys c reads = (removeProcess sys.processTable node.info.processId).2 := by
  rw [recycledBy, hinfo, Option.bind_some, hderef, Option.filter_some,
    if_pos (by simpa using hstale), Option.bind_some]

theorem recycledBy_of_eq {c : Flame} {reads : FrameReads} {addr : Nat}
    (hinfo : c.procInfo = some addr) (hderef : sys.derefProcess addr = some node)
    (hsame : node.info.startTime = reads.startTime) : recycledBy sys c reads = none := by
  simp [recycledBy, hinfo, hderef, hsame]

/-- The references stay balanced over a frame, but for those of a record that
it frees. -/
theorem Balanced.symbolizeUserFrame (h : Balanced sys lost) {c c' : Flame} {currentIp : UInt64}
    {reads : FrameReads} (hparsed : reads.process.Parsed)
    (hheld : ∀ addr ∈ c.procInfo, HoldsRecord sys pid addr)
    (hframe : symbolizeUserFrame pid sys c currentIp reads = some (sys', c')) :
    Balanced sys' (lost ++ recordRefs (recycledBy sys c reads).toList) ∧
      ∀ addr ∈ c'.procInfo, HoldsRecord sys' pid addr := by
  unfold Profiling.symbolizeUserFrame at hframe
  cases hinfo : c.procInfo with
  | none =>
      rw [hinfo] at hframe
      obtain ⟨rfl, rfl⟩ := Prod.mk.inj (Option.some.inj hframe)
      refine ⟨by simpa [recycledBy, hinfo] using h, fun addr ha => ?_⟩
      rw [procInfo_append, hinfo] at ha
      cases ha
  | some addr =>
      rw [hinfo] at hframe hheld
      dsimp only at hframe
      cases hderef : sys.derefProcess addr with
      | none => simp [hderef] at hframe
      | some node =>
          rw [hderef] at hframe
          dsimp only at hframe
          obtain ⟨hn, haddr⟩ := h.derefProcess hderef
          split at hframe
          · next hstale =>
            rw [recycledBy_of_ne hinfo hderef hstale]
            have hremoved := h.remove node.info.processId
            obtain ⟨hfound, hpresent⟩ := hremoved.findNew hparsed pid
            cases hcall : SystemContext.findNew { sys with processTable :=
                (removeProcess sys.processTable node.info.processId).1 } pid reads.process with
            | mk sys₁ found =>
              rw [hcall] at hframe hfound hpresent
              cases found with
              | none =>
                  obtain ⟨rfl, rfl⟩ := Prod.mk.inj (Option.some.inj hframe)
                  exact ⟨hfound, fun addr ha => by cases ha⟩
              | some node₁ =>
                  obtain ⟨⟨sys₂, funcName⟩, hname, heq⟩ := Option.map_eq_some_iff.mp hframe
                  obtain ⟨rfl, rfl⟩ := Prod.mk.inj heq
                  obtain ⟨hn₁, hpid₁⟩ := hpresent node₁ rfl
                  obtain ⟨hbalanced, hkept⟩ := hfound.userFuncName hn₁ hname
                  refine ⟨hbalanced, fun addr ha => ?_⟩
                  rw [procInfo_append] at ha
                  obtain rfl := Option.some.inj ha
                  exact hkept _ _ ⟨node₁, hn₁, rfl, hpid₁⟩
          · next hsame =>
            have hgone := recycledBy_of_eq hinfo hderef (not_not.mp hsame)
            obtain ⟨⟨sys₁, funcName⟩, hname, heq⟩ := Option.map_eq_some_iff.mp hframe
            obtain ⟨rfl, rfl⟩ := Prod.mk.inj heq
            obtain ⟨hbalanced, hkept⟩ := h.userFuncName hn hname
            refine ⟨by simpa [hgone] using hbalanced, fun addr' ha => ?_⟩
            rw [procInfo_append, hinfo] at ha
            exact hkept _ _ (hheld addr' ha)

theorem Balanced.symbolizeFrame (h : Balanced sys lost) {filterMode : FilterMode} {c c' : Flame}
    {currentIp : UInt64} {reads : FrameReads} (hparsed : reads.process.Parsed)
    (hheld : ∀ addr ∈ c.procInfo, HoldsRecord sys pid addr)
    (hframe : symbolizeFrame filterMode pid sys c currentIp reads = some (sys', c')) :
    Balanced sys' (lost ++ recordRefs (if filteredOut filterMode currentIp || isKernelAddr currentIp
      then none else recycledBy sys c reads).toList) ∧
      ∀ addr ∈ c'.procInfo, HoldsRecord sys' pid addr := by
  have hnothing : lost ++ recordRefs (none : Option ProcessNode).toList = lost := by simp
  unfold Profiling.symbolizeFrame at hframe
  cases hout : filteredOut filterMode currentIp with
  | true =>
      rw [hout, if_pos rfl] at hframe
      obtain ⟨rfl, rfl⟩ := Prod.mk.inj (Option.some.inj hframe)
      rw [Bool.true_or, if_pos rfl, hnothing]
      exact ⟨h, hheld⟩
  | false =>
      rw [hout, if_neg Bool.false_ne_true] at hframe
      rw [Bool.false_or]
      cases hkernel : isKernelAddr currentIp with
      | true =>
          rw [hkernel, if_pos rfl] at hframe
          obtain ⟨rfl, rfl⟩ := Prod.mk.inj (Option.some.inj hframe)
          rw [if_pos rfl, hnothing]
          exact ⟨h, by rwa [procInfo_append]⟩
      | false =>
          rw [hkernel, if_neg Bool.false_ne_true] at hframe
          rw [if_neg Bool.false_ne_true]
          exact h.symbolizeUserFrame hparsed hheld hframe

end Steps

namespace RefState

variable {s t u : RefState}

/-- The references are balanced, and the symbolizer holds a record of its pid. -/
structure Inv (s : RefState) : Prop where
  balanced : Balanced s.sys s.lost
  held : ∀ c, s.sample = some c → ∀ addr ∈ c.flame.procInfo, HoldsRecord s.sys c.pid addr

theorem inv_init (h : refMachine.init s) : s.Inv := by
  obtain ⟨htable, hcache, hsample, hlost⟩ := h
  refine ⟨⟨htable ▸ ProcessTable.wf_empty, ?_, hcache ▸ ElfCache.wf_empty _, ?_⟩, ?_⟩
  · simp [htable, Present]
  · have hareas : areas (fun _ => []) = [] := by simp [areas, Buckets.entries]
    constructor <;> simp [hcache, htable, hareas, hlost, Buckets.Mem, elfRefs]
  · simp [hsample]

/-- The ways a step can go. -/
inductive StepCase (s : RefState) : RefAction → SystemContext → Option SampleRun → Prop where
  | sample {filterMode : FilterMode} {callchain : CallchainResult} {reads : ProcReads}
      {sys : SystemContext} {found : Option ProcessNode} (hidle : s.sample = none)
      (hparsed : reads.Parsed) (hfind : s.sys.findNew callchain.intPid reads = (sys, found)) :
      StepCase s (.sample filterMode callchain reads) sys
        (some
          { filterMode
            pid := callchain.intPid
            ips := allIps callchain
            flame := (Flame.enter ⟨none, [], [], 0⟩ found).header callchain.intPid })
  | frame {reads : FrameReads} {c : SampleRun} {currentIp : UInt64} {ips : List UInt64}
      {sys : SystemContext} {flame : Flame} (hc : s.sample = some c)
      (hips : c.ips = currentIp :: ips) (hparsed : reads.process.Parsed)
      (hframe : symbolizeFrame c.filterMode c.pid s.sys c.flame currentIp reads = some (sys, flame)) :
      StepCase s (.frame reads) sys (some { c with ips, flame })
  | finish {c : SampleRun} (hc : s.sample = some c) (hips : c.ips = []) :
      StepCase s .finish s.sys none
  | remove {pid : Int} (hidle : s.sample = none) :
      StepCase s (.remove pid)
        { s.sys with processTable := (removeProcess s.sys.processTable pid).1 } none
  | cleanup {alive : Int → Bool} (hidle : s.sample = none) :
      StepCase s (.cleanup alive)
        { s.sys with processTable := (cleanupDeadProcesses alive s.sys.processTable).1 } none

theorem step_cases {a : RefAction} (h : s.step a = some t) :
    s.StepCase a t.sys t.sample ∧ t.lost = s.lost ++ recordRefs (s.freed a) := by
  obtain ⟨⟨sys, sample⟩, hsys, rfl⟩ := Option.map_eq_some_iff.mp h
  refine ⟨?_, rfl⟩
  dsimp only
  cases a with
  | sample filterMode callchain reads =>
      simp only [stepSystem] at hsys
      split at hsys
      · contradiction
      next hidle =>
      split at hsys
      · next hparsed =>
        obtain ⟨rfl, rfl⟩ := Prod.mk.inj (Option.some.inj hsys)
        exact .sample hidle hparsed rfl
      · contradiction
  | frame reads =>
      simp only [stepSystem] at hsys
      split at hsys
      · contradiction
      next c hc =>
      split at hsys
      · contradiction
      next currentIp ips hips =>
      split at hsys
      · next hparsed =>
        obtain ⟨⟨sys₁, flame⟩, hframe, heq⟩ := Option.map_eq_some_iff.mp hsys
        obtain ⟨rfl, rfl⟩ := Prod.mk.inj heq
        exact .frame hc hips hparsed hframe
      · contradiction
  | finish =>
      simp only [stepSystem] at hsys
      split at hsys
      · contradiction
      next c hc =>
      split at hsys
      · next hips =>
        obtain ⟨rfl, rfl⟩ := Prod.mk.inj (Option.some.inj hsys)
        exact .finish hc hips
      · contradiction
  | remove pid =>
      simp only [stepSystem] at hsys
      split at hsys
      · contradiction
      · next hidle =>
        obtain ⟨rfl, rfl⟩ := Prod.mk.inj (Option.some.inj hsys)
        exact .remove hidle
  | cleanup alive =>
      simp only [stepSystem] at hsys
      split at hsys
      · contradiction
      · next hidle =>
        obtain ⟨rfl, rfl⟩ := Prod.mk.inj (Option.some.inj hsys)
        exact .cleanup hidle

/-- A step keeps the balance, and a call that goes on holds a record of its pid. -/
theorem inv_step {a : RefAction} (hi : s.Inv) (h : s.step a = some t) : t.Inv := by
  obtain ⟨hcase, hlost⟩ := step_cases h
  obtain ⟨sys, sample, lost⟩ := t
  dsimp only at hcase hlost
  subst hlost
  cases hcase with
  | sample hidle hparsed hfind =>
      obtain ⟨hbalanced, hpresent⟩ := hi.balanced.findNew hparsed _
      rw [hfind] at hbalanced hpresent
      refine ⟨by rw [freed, recordRefs_nil, List.append_nil]; exact hbalanced,
        fun c hc addr ha => ?_⟩
      obtain rfl := Option.some.inj hc
      obtain ⟨node, hnode, rfl⟩ := Option.map_eq_some_iff.mp ha
      obtain ⟨hn, hpid⟩ := hpresent node hnode
      exact ⟨node, hn, rfl, by simpa only using hpid⟩
  | frame hc hips hparsed hframe =>
      obtain ⟨hbalanced, hheld⟩ := hi.balanced.symbolizeFrame hparsed (hi.held _ hc) hframe
      refine ⟨?_, fun c' hc' => ?_⟩
      · simp only [freed, recycled, hc, hips]
        exact hbalanced
      · obtain rfl := Option.some.inj hc'
        exact hheld
  | finish =>
      exact ⟨by rw [freed, recordRefs_nil, List.append_nil]; exact hi.balanced,
        fun c hc => by cases hc⟩
  | remove => exact ⟨hi.balanced.remove _, fun c hc => by cases hc⟩
  | cleanup => exact ⟨hi.balanced.cleanup _, fun c hc => by cases hc⟩

/-- The counts are those of the areas as long as nothing is lost. -/
theorem Inv.refsExact_iff (hi : s.Inv) : RefsExact s.sys ↔ s.lost = [] := by
  have hcounts := hi.balanced.counts
  constructor
  · intro hexact
    refine List.eq_nil_iff_forall_not_mem.mpr fun addr hlost => ?_
    have hpos := List.count_pos_iff.mpr hlost
    obtain ⟨elf, helf, rfl⟩ := hcounts.cached addr (by rw [List.count_append]; omega)
    have hcount := hcounts.count elf helf
    have hcount' := hexact.count elf helf
    rw [List.count_append, count_elfRefs] at hcount
    omega
  · intro hlost
    rw [hlost] at hcounts
    simp only [List.append_nil, count_elfRefs] at hcounts
    refine ⟨hcounts.count, fun vma hvma addr helf => hcounts.cached addr ?_, fun elf helf => ?_⟩
    · exact List.countP_pos_iff.mpr ⟨vma, hvma, by simpa using helf⟩
    · obtain ⟨vma, hvma, heq⟩ := List.countP_pos_iff.mp (hcounts.pos elf helf)
      exact ⟨vma, hvma, by simpa using heq⟩

/-- What is lost stays lost. -/
theorem lost_step {a : RefAction} (h : s.step a = some t) :
    t.lost = s.lost ++ recordRefs (s.freed a) := (step_cases h).2

end RefState

/-! ## A whole call -/

/-- The frame loop is one step for each address. -/
theorem run_frames {filterMode : FilterMode} {pid : Int} {reads : Nat → FrameReads}
    (hparsed : ∀ i, (reads i).process.Parsed) {ips : List UInt64} {i : Nat}
    {sys sys' : SystemContext} {c c' : Flame} (lost : List Nat)
    (h : frameLoop filterMode pid reads i ips sys c = some (sys', c')) :
    ∃ lost', refMachine.run ⟨sys, some ⟨filterMode, pid, ips, c⟩, lost⟩
        ((List.range' i ips.length).map fun j => .frame (reads j)) =
      some ⟨sys', some ⟨filterMode, pid, [], c'⟩, lost'⟩ := by
  induction ips generalizing i sys c lost with
  | nil =>
      obtain ⟨rfl, rfl⟩ := Prod.mk.inj (Option.some.inj h)
      exact ⟨lost, rfl⟩
  | cons currentIp ips ih =>
      rw [frameLoop] at h
      obtain ⟨⟨sys₁, c₁⟩, hframe, hrest⟩ := Option.bind_eq_some_iff.mp h
      let s : RefState := ⟨sys, some ⟨filterMode, pid, currentIp :: ips, c⟩, lost⟩
      have hstep : refMachine.step s (.frame (reads i)) =
          some ⟨sys₁, some ⟨filterMode, pid, ips, c₁⟩,
            lost ++ recordRefs (s.freed (.frame (reads i)))⟩ := by
        simp only [refMachine, RefState.step, RefState.stepSystem, s, if_pos (hparsed i), hframe,
          Option.map_some]
      obtain ⟨lost', hrun⟩ := ih (lost ++ recordRefs (s.freed (.frame (reads i)))) hrest
      refine ⟨lost', ?_⟩
      rw [List.length_cons, List.range'_succ, List.map_cons, Machine.run_cons, hstep,
        Option.bind_some]
      exact hrun

/-- A call of `symbolize_sample` is a run of these steps. -/
theorem symbolizeSample_run {filterMode : FilterMode} {callchain : CallchainResult}
    {reads : SampleReads} (hprocess : reads.process.Parsed)
    (hframes : ∀ i, (reads.frame i).process.Parsed) {sys sys' : SystemContext}
    {timestamp : UInt64} {str : CString} (lost : List Nat)
    (h : symbolizeSample filterMode sys callchain reads = some (sys', timestamp, str)) :
    ∃ lost', refMachine.run ⟨sys, none, lost⟩
        (.sample filterMode callchain reads.process ::
          ((List.range' 0 (allIps callchain).length).map fun j => .frame (reads.frame j)) ++
            [.finish]) = some ⟨sys', none, lost'⟩ := by
  unfold symbolizeSample at h
  cases hfind : sys.findNew callchain.intPid reads.process with
  | mk sys₁ found =>
    dsimp only at h
    rw [hfind] at h
    dsimp only at h
    obtain ⟨⟨sys₂, c⟩, hloop, heq⟩ := Option.map_eq_some_iff.mp h
    obtain ⟨rfl, -⟩ := Prod.mk.inj heq
    obtain ⟨lost', hrun⟩ := run_frames hframes lost hloop
    refine ⟨lost', ?_⟩
    have hsample : refMachine.step ⟨sys, none, lost⟩ (.sample filterMode callchain reads.process) =
        some ⟨sys₁, some ⟨filterMode, callchain.intPid, allIps callchain,
          (Flame.enter ⟨none, [], [], 0⟩ found).header callchain.intPid⟩, lost⟩ := by
      simp [refMachine, RefState.step, RefState.stepSystem, if_pos hprocess, hfind,
        RefState.freed]
    have hfinish : refMachine.step ⟨sys₂, some ⟨filterMode, callchain.intPid, [], c⟩, lost'⟩
        .finish = some ⟨sys₂, none, lost'⟩ := by
      simp [refMachine, RefState.step, RefState.stepSystem, RefState.freed]
    rw [List.cons_append, Machine.run_cons, hsample, Option.bind_some, Machine.run_append, hrun,
      Option.bind_some, Machine.run_cons, hfinish, Option.bind_some, Machine.run_nil]

/-! ## Every sequence of calls -/

/-- **When the counts are those of the areas.**  As long as no step frees an
area that has a file, each count is the number of areas that point to the
entry, every area's file is cached, and an entry without areas is not.  After
the first step that does, this never holds again. -/
theorem elf_references_exact {s : RefState}
    (hs : (refMachine.guard RefState.FreesNoElf).Reachable s) :
    RefsExact s.sys ∧
      ∀ a t as u, ¬s.FreesNoElf a → refMachine.step s a = some t → refMachine.run t as = some u →
        ¬RefsExact u.sys := by
  have hi : s.Inv ∧ s.lost = [] :=
    (refMachine.guard RefState.FreesNoElf).invariant (P := fun s => s.Inv ∧ s.lost = [])
      (fun _ h₀ => ⟨RefState.inv_init h₀, h₀.2.2.2⟩)
      (fun s a t ⟨hi, hlost⟩ hstep => by
        obtain ⟨hnone, hstep⟩ := refMachine.guard_step_eq_some.mp hstep
        refine ⟨RefState.inv_step hi hstep, ?_⟩
        rw [RefState.lost_step hstep, hlost, hnone, List.append_nil]) hs
  refine ⟨hi.1.refsExact_iff.mpr hi.2, fun a t as u hfrees hstep hrun => ?_⟩
  have ht : t.Inv ∧ t.lost ≠ [] := by
    refine ⟨RefState.inv_step hi.1 hstep, ?_⟩
    rw [RefState.lost_step hstep]
    exact List.append_ne_nil_of_right_ne_nil _ hfrees
  have hu : u.Inv ∧ u.lost ≠ [] :=
    refMachine.run_induction (P := fun s => s.Inv ∧ s.lost ≠ []) (fun s a t ⟨hi, hlost⟩ hstep => by
      refine ⟨RefState.inv_step hi hstep, ?_⟩
      rw [RefState.lost_step hstep]
      exact List.append_ne_nil_of_left_ne_nil hlost _) ht hrun
  exact fun hexact => hu.2 (hu.1.refsExact_iff.mp hexact)

/-! ## A sampled process that is removed -/

/-- What `/proc` says about a process with one area, which maps a file. -/
def sleepReads : ProcReads where
  calloc := true
  dupName := true
  dupCmdline := true
  startTime := 7
  comm := some (cstr "sleep\n")
  cmdline := some (cstr "sleep")
  alive := true
  maps := some (.node .black .nil
    { startAddr := 0x401000
      endAddr := 0x402000
      vmFlags := 5
      fileOffset := 0x1000
      mappingName := some (cstr "/bin/sleep")
      elfFile := none } .nil)

/-- The file opens under its own path. -/
def sleepFrame : FrameReads where
  startTime := 7
  process := sleepReads
  elf :=
    { parserInit := fun path => if path = cstr "/bin/sleep" then some ⟨some [1, 2], some ⟨0, .nil⟩⟩
        else none
      calloc := true
      dupPath := true }

def initialState : RefState :=
  ⟨⟨fun _ => [], fun _ => [], none, 0, 0, 0⟩, none, []⟩

/-- One sample of process 42, with one address. -/
def sleepSample : List RefAction :=
  [.sample .all ⟨0, 42, 42, 0x401136, 0, fun _ => 0⟩ sleepReads, .frame sleepFrame, .finish]

/-- The sample takes one reference, for the one area. -/
theorem elf_references_exact_sleep :
    ∃ s, (refMachine.guard RefState.FreesNoElf).run initialState sleepSample = some s ∧
      (derefElf s.sys.elfCache 1).map (·.referenceCount) = some 1 ∧ RefsExact s.sys := by
  have hcount : ((refMachine.guard RefState.FreesNoElf).run initialState sleepSample).map
      (fun s => (derefElf s.sys.elfCache 1).map (·.referenceCount)) = some (some 1) := by
    decide +kernel
  obtain ⟨s, hrun, hone⟩ := Option.map_eq_some_iff.mp hcount
  exact ⟨s, hrun, hone, (elf_references_exact ⟨initialState, _, ⟨rfl, rfl, rfl, rfl⟩, hrun⟩).1⟩

/-- The process is removed, and its area is freed with the reference. -/
theorem removed_process_keeps_reference :
    ∃ s, refMachine.run initialState (sleepSample ++ [.remove 42]) = some s ∧
      refMachine.Reachable s ∧ s.sample = none ∧ ¬RefsExact s.sys := by
  have hlost : (refMachine.run initialState (sleepSample ++ [.remove 42])).map
      (fun s => (s.lost, s.sample.isNone)) = some ([1], true) := by
    decide +kernel
  obtain ⟨s, hrun, heq⟩ := Option.map_eq_some_iff.mp hlost
  obtain ⟨hlost, hsample⟩ := Prod.mk.inj heq
  have hinit : refMachine.init initialState := ⟨rfl, rfl, rfl, rfl⟩
  have hreach : refMachine.Reachable s := ⟨initialState, _, hinit, hrun⟩
  have hi : s.Inv := refMachine.invariant (fun _ => RefState.inv_init)
    (fun _ _ _ hi hstep => RefState.inv_step hi hstep) hreach
  refine ⟨s, hrun, hreach, Option.isNone_iff_eq_none.mp hsample, fun hexact => ?_⟩
  have hnone := hi.refsExact_iff.mp hexact
  exact List.cons_ne_nil 1 [] (hlost ▸ hnone)

end Profiling
