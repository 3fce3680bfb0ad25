import Profiling.Symbolize.Stack

/-!
# Profiling.Symbolize.Recycle

The record that `symbolize_sample` works on, from frame to frame.

All that the loop's course depends on is the start time and the name of that
record (`heldAt`), and they depend on nothing but what is looked up at the
start and at the frames that notice another start time.  `Tracks` connects them
to the record at `proc_info`.  The header is written with the first name and the
row with the last one; a record is given up at the first frame that notices
another start time, and 0 is one, though it stands for a process that is gone.
-/

namespace Profiling

/-! ## The record that is held -/

/-- The start time and the name of the record that `find_new_process` makes for a
pid that has none. -/
def lookedUp (pid : Int) (reads : ProcReads) : Option (Nat × Option CString) :=
  if reads.calloc = false ∨ reads.alive = false then none
  else reads.maps.map fun _ => (reads.startTime, storedName reads pid)

/-- A frame that finds another start time than the record's. -/
def notices (filterMode : FilterMode) (held : Option (Nat × Option CString)) (currentIp : UInt64)
    (reads : FrameReads) : Bool :=
  usesProcess filterMode currentIp && held.any fun record => record.1 ≠ reads.startTime

/-- The record held after a frame. -/
def heldStep (filterMode : FilterMode) (pid : Int) (held : Option (Nat × Option CString))
    (currentIp : UInt64) (reads : FrameReads) : Option (Nat × Option CString) :=
  if notices filterMode held currentIp reads then lookedUp pid reads.process else held

/-- The record held after the first `n` frames. -/
def heldAt (filterMode : FilterMode) (sys : SystemContext) (callchain : CallchainResult)
    (reads : SampleReads) : Nat → Option (Nat × Option CString)
  | 0 =>
      match findProcess sys.processTable callchain.intPid with
      | some node => some (node.info.startTime, node.info.processName)
      | none => lookedUp callchain.intPid reads.process
  | n + 1 =>
      let held := heldAt filterMode sys callchain reads n
      match (allIps callchain)[n]? with
      | none => held
      | some currentIp => heldStep filterMode callchain.intPid held currentIp (reads.frame n)

/-- `process_name` for a record, or for none. -/
def recordName (held : Option (Nat × Option CString)) : CString :=
  (held.bind (·.2)).getD (cstr "unknown")

/-- The `n`-th frame finds another start time than that of the record. -/
def NoticedAt (filterMode : FilterMode) (sys : SystemContext) (callchain : CallchainResult)
    (reads : SampleReads) (n : Nat) : Prop :=
  ∃ currentIp ∈ (allIps callchain)[n]?,
    notices filterMode (heldAt filterMode sys callchain reads n) currentIp (reads.frame n) = true

section

variable {filterMode : FilterMode} {sys : SystemContext} {callchain : CallchainResult}
  {reads : SampleReads} {m n : Nat}

theorem heldAt_succ_of_noticed (h : NoticedAt filterMode sys callchain reads n) :
    heldAt filterMode sys callchain reads (n + 1) =
      lookedUp callchain.intPid (reads.frame n).process := by
  obtain ⟨currentIp, hip, hnotices⟩ := h
  rw [Option.mem_def] at hip
  simp only [heldAt, hip, heldStep, hnotices, if_true]

theorem heldAt_succ_of_not_noticed (h : ¬NoticedAt filterMode sys callchain reads n) :
    heldAt filterMode sys callchain reads (n + 1) = heldAt filterMode sys callchain reads n := by
  rw [heldAt]
  split
  · rfl
  · next currentIp hip => exact if_neg fun hnotices => h ⟨currentIp, hip, hnotices⟩

/-- The record is held as long as no frame notices anything. -/
theorem heldAt_eq_of_not_noticed (hle : m ≤ n)
    (h : ∀ k, m ≤ k → k < n → ¬NoticedAt filterMode sys callchain reads k) :
    heldAt filterMode sys callchain reads n = heldAt filterMode sys callchain reads m := by
  induction n, hle using Nat.le_induction with
  | base => rfl
  | succ n hle ih =>
      rw [heldAt_succ_of_not_noticed (h n hle (Nat.lt_succ_self n))]
      exact ih fun k hmk hkn => h k hmk (Nat.lt_succ_of_lt hkn)

theorem NoticedAt.lt (h : NoticedAt filterMode sys callchain reads n) :
    n < (allIps callchain).length := by
  obtain ⟨currentIp, hip, -⟩ := h
  exact (List.getElem?_eq_some_iff.mp hip).1

end

/-! ## Tracking the loop -/

/-- `proc_info` points to the record that is held. -/
def PointsTo (pid : Int) (sys : SystemContext) (procInfo : Option Nat) :
    Option (Nat × Option CString) → Prop
  | none => procInfo = none
  | some record => ∃ addr, procInfo = some addr ∧ sys.processTable.Has (addr, pid, record)

/-- The locals of the loop are those of the record that is held. -/
structure Tracks (pid : Int) (sys : SystemContext) (c : Flame)
    (held : Option (Nat × Option CString)) : Prop where
  points : PointsTo pid sys c.procInfo held
  name : c.processName = recordName held

section

variable {filterMode : FilterMode} {pid : Int} {sys sys' : SystemContext} {c c' : Flame}
  {held : Option (Nat × Option CString)} {currentIp : UInt64} {reads : FrameReads}

/-- What a lookup finds for a pid that has no record. -/
theorem findNew_lookedUp {reads : ProcReads} {found : Option ProcessNode}
    (hnone : findProcess sys.processTable pid = none) (h : sys.findNew pid reads = (sys', found)) :
    (found.map fun node => (node.info.startTime, node.info.processName)) = lookedUp pid reads := by
  unfold SystemContext.findNew findNewProcess at h
  rw [hnone] at h
  dsimp only at h
  unfold lookedUp
  split at h
  · next hcalloc =>
    rw [if_pos (.inl hcalloc), ← (Prod.mk.inj h).2]
    rfl
  split at h
  · next hcalloc halive =>
    rw [if_pos (.inr halive), ← (Prod.mk.inj h).2]
    rfl
  next hcalloc halive =>
  rw [if_neg (by simp [hcalloc, halive])]
  split at h
  · next hmaps =>
    rw [hmaps, ← (Prod.mk.inj h).2]
    rfl
  · next hmaps =>
    rw [hmaps, ← (Prod.mk.inj h).2]
    rfl

/-- The record that is held is the one that the frame reads. -/
theorem Tracks.held_eq (h : Tracks pid sys c held) (hsys : sys.Sound) {addr : Nat}
    {node : ProcessNode} (hinfo : c.procInfo = some addr) (hderef : sys.derefProcess addr = some node) :
    held = some (node.info.startTime, node.info.processName) ∧ node.info.processId = pid := by
  obtain ⟨lost, hbalanced⟩ := hsys.balanced
  obtain ⟨hn, haddr⟩ := hbalanced.derefProcess hderef
  have hpoints := h.points
  cases held with
  | none => exact absurd (hinfo.symm.trans hpoints) (by simp)
  | some record =>
      obtain ⟨addr', hinfo', node', hn', hid⟩ := hpoints
      obtain rfl := Option.some.inj (hinfo.symm.trans hinfo')
      obtain ⟨haddr', hpid, hrecord⟩ : node'.addr = addr ∧ node'.info.processId = pid ∧
          (node'.info.startTime, node'.info.processName) = record := by
        simpa [ProcessNode.identity] using hid
      obtain rfl := hbalanced.table.addr node' hn' node hn (haddr'.trans haddr.symm)
      exact ⟨congrArg some hrecord.symm, hpid⟩

theorem PointsTo.sameRecords {procInfo : Option Nat} (h : PointsTo pid sys procInfo held)
    (hsame : sys.SameRecords sys') : PointsTo pid sys' procInfo held := by
  cases held with
  | none => exact h
  | some record =>
      obtain ⟨addr, hinfo, hhas⟩ := h
      exact ⟨addr, hinfo, (hsame.has _).mpr hhas⟩

/-- A name lookup uses up addresses at most. -/
theorem fresh_le_userFuncName {node : ProcessNode} {reads : ElfReads} {funcName : CString}
    (h : userFuncName sys pid node currentIp reads = some (sys', funcName)) :
    sys.fresh ≤ sys'.fresh := by
  have hsame : ∀ {name : CString}, some (sys, name) = some (sys', funcName) →
      sys.fresh ≤ sys'.fresh := fun heq =>
    le_of_eq (congrArg SystemContext.fresh (Prod.mk.inj (Option.some.inj heq)).1)
  unfold userFuncName at h
  split at h
  · exact hsame h
  split at h
  · exact hsame h
  split at h
  · exact hsame h
  split at h
  · exact hsame h
  next vma _ _ _ _ _ =>
  have helf : sys.fresh ≤ (sys.elfOfVma pid node.addr currentIp vma reads).1.fresh := by
    unfold SystemContext.elfOfVma
    split
    · exact le_rfl
    · exact Nat.le_succ _
  split at h
  · next hcall =>
    rw [hcall] at helf
    exact (Prod.mk.inj (Option.some.inj h)).1 ▸ helf
  · next hcall =>
    rw [hcall] at helf
    obtain ⟨elf, -, heq⟩ := Option.map_eq_some_iff.mp h
    exact (Prod.mk.inj heq).1 ▸ helf

theorem processName_append (c : Flame) (funcName : CString) :
    (c.append funcName).processName = c.processName := by
  unfold Flame.append
  split <;> rfl

/-- What a frame does to the record: it leaves it as it is, or looks up the pid
anew after having removed it. -/
theorem Tracks.frame_cases (h : Tracks pid sys c held) (hsys : sys.Sound)
    (hframe : symbolizeFrame filterMode pid sys c currentIp reads = some (sys', c')) :
    (notices filterMode held currentIp reads = false ∧ c'.procInfo = c.procInfo ∧
        c'.processName = c.processName ∧ sys.SameRecords sys' ∧ sys.fresh ≤ sys'.fresh) ∨
      notices filterMode held currentIp reads = true ∧ ∃ node sys₁ found,
        node.info.processId = pid ∧ sys.recycle node pid reads.process = (sys₁, found) ∧
        c'.procInfo = found.map (·.addr) ∧
        c'.processName = (found.bind (·.info.processName)).getD (cstr "unknown") ∧
        sys₁.SameRecords sys' ∧ sys₁.fresh ≤ sys'.fresh := by
  have hnot : usesProcess filterMode currentIp = true → ∀ {addr : Nat} {node : ProcessNode},
      c.procInfo = some addr → sys.derefProcess addr = some node →
      node.info.processId = pid ∧ notices filterMode held currentIp reads =
        decide (node.info.startTime ≠ reads.startTime) := by
    intro hused addr node hinfo hderef
    obtain ⟨rfl, hpid⟩ := h.held_eq hsys hinfo hderef
    exact ⟨hpid, by simp [notices, hused]⟩
  have hunused : ¬(filteredOut filterMode currentIp = false ∧ isKernelAddr currentIp = false) →
      notices filterMode held currentIp reads = false := fun hunused => by
    rw [notices, Bool.eq_false_iff.mpr (mt usesProcess_iff.mp hunused), Bool.false_and]
  cases symbolizeFrame_cases hframe with
  | filtered hout =>
      exact .inl ⟨hunused (by simp [hout]), rfl, rfl, .refl sys, le_rfl⟩
  | kernel hshown hkernel =>
      exact .inl ⟨hunused (by simp [hkernel]), procInfo_append c _, processName_append c _,
        .refl sys, le_rfl⟩
  | unknown hused hinfo =>
      refine .inl ⟨?_, procInfo_append c _, processName_append c _, .refl sys, le_rfl⟩
      have hpoints := h.points
      cases held with
      | none => simp [notices]
      | some record =>
          obtain ⟨addr, hinfo', -⟩ := hpoints
          exact absurd (hinfo.symm.trans hinfo') (by simp)
  | same hused hinfo hderef hstart hname =>
      exact .inl ⟨by simp [(hnot hused hinfo hderef).2, hstart], procInfo_append c _,
        processName_append c _, (userFuncName_spec hname).2, fresh_le_userFuncName hname⟩
  | gone hused hinfo hderef hstart hfind =>
      obtain ⟨hpid, hnotices⟩ := hnot hused hinfo hderef
      exact .inr ⟨by simpa [hnotices] using hstart, _, _, _, hpid, hfind, rfl, rfl, .refl _, le_rfl⟩
  | replaced hused hinfo hderef hstart hfind hname =>
      obtain ⟨hpid, hnotices⟩ := hnot hused hinfo hderef
      exact .inr ⟨by simpa [hnotices] using hstart, _, _, _, hpid, hfind, procInfo_append _ _,
        processName_append _ _, (userFuncName_spec hname).2, fresh_le_userFuncName hname⟩

/-- A record that is there, under the name in the locals. -/
theorem tracks_found {found : Option ProcessNode} {c : Flame}
    (hfound : ∀ node ∈ found, Present sys.processTable node ∧ node.info.processId = pid)
    (hinfo : c.procInfo = found.map (·.addr))
    (hname : c.processName = (found.bind (·.info.processName)).getD (cstr "unknown")) :
    Tracks pid sys c (found.map fun node => (node.info.startTime, node.info.processName)) := by
  cases found with
  | none => exact ⟨hinfo, hname⟩
  | some node =>
      obtain ⟨hn, rfl⟩ := hfound node rfl
      exact ⟨⟨node.addr, hinfo, node, hn, rfl⟩, hname⟩

/-- **One frame.**  The locals are those of the record held after it. -/
theorem Tracks.frame (h : Tracks pid sys c held) (hsys : sys.Sound) (hlo : -2 ^ 31 ≤ pid)
    (hhi : pid < 2 ^ 31) (hparsed : reads.process.Parsed)
    (hframe : symbolizeFrame filterMode pid sys c currentIp reads = some (sys', c')) :
    Tracks pid sys' c' (heldStep filterMode pid held currentIp reads) := by
  obtain ⟨lost, hbalanced⟩ := hsys.balanced
  obtain ⟨hnotices, hinfo, hname, hsame, -⟩ |
    ⟨hnotices, node, sys₁, found, hpid, hfind, hinfo, hname, hsame, -⟩ := h.frame_cases hsys hframe
  · rw [heldStep, hnotices, if_neg Bool.false_ne_true]
    exact ⟨by rw [hinfo]; exact h.points.sameRecords hsame, hname.trans h.name⟩
  · subst hpid
    have hlookup := findNew_lookedUp
      (findProcess_removeProcess hbalanced.table node.info.processId) hfind
    rw [heldStep, hnotices, if_pos rfl, ← hlookup]
    have htracks := tracks_found ((hsys.remove _).findNew hlo hhi hparsed hfind).2 hinfo hname
    exact ⟨htracks.points.sameRecords hsame, htracks.name⟩

/-- A record with an address that is not fresh stays until a frame notices
another start time, and does not come back. -/
theorem Tracks.has_frame (h : Tracks pid sys c held) (hsys : sys.Sound)
    (hframe : symbolizeFrame filterMode pid sys c currentIp reads = some (sys', c'))
    (identity : Nat × Int × Nat × Option CString) (hfresh : identity.1 < sys.fresh)
    (hid : identity.2.1 = pid) :
    identity.1 < sys'.fresh ∧ (sys'.processTable.Has identity ↔
      sys.processTable.Has identity ∧ notices filterMode held currentIp reads = false) := by
  obtain ⟨lost, hbalanced⟩ := hsys.balanced
  obtain ⟨hnotices, -, -, hsame, hle⟩ |
    ⟨hnotices, node, sys₁, found, hpid, hfind, -, -, hsame, hle⟩ := h.frame_cases hsys hframe
  · exact ⟨by omega, by simp [hsame.has, hnotices]⟩
  · have hfresh₁ : sys₁.fresh = sys.fresh + 1 := (congrArg (·.1.fresh) hfind).symm
    refine ⟨by omega, ?_⟩
    rw [hsame.has, hnotices]
    obtain ⟨-, ⟨-, hhas⟩ | ⟨-, -, -, hhas⟩⟩ := recycle_cases hbalanced.table hpid hfind
    · simp [hhas, hid]
    · have hne : identity ≠ newIdentity sys pid reads.process := fun heq => by
        rw [heq] at hfresh
        exact absurd hfresh (lt_irrefl sys.fresh)
      simp [hhas, hid, hne]

end

section

variable {filterMode : FilterMode} {sys : SystemContext} {callchain : CallchainResult}
  {reads : SampleReads} {n : Nat}

theorem tracks_enterSample (filterMode : FilterMode) (hsys : sys.Sound)
    (callchain : CallchainResult) (hparsed : reads.Parsed) :
    let start := enterSample sys callchain reads.process
    Tracks callchain.intPid start.1 start.2 (heldAt filterMode sys callchain reads 0) := by
  obtain ⟨hlo, hhi⟩ := intPid_range callchain
  cases hfind : sys.findNew callchain.intPid reads.process with
  | mk sys' found =>
    have hheld : heldAt filterMode sys callchain reads 0 =
        found.map fun node => (node.info.startTime, node.info.processName) := by
      rw [heldAt]
      split
      · next node hnode =>
        rw [SystemContext.findNew, findNewProcess, hnode] at hfind
        rw [← (Prod.mk.inj hfind).2]
        rfl
      · next hnone => exact (findNew_lookedUp hnone hfind).symm
    rw [hheld]
    simp only [enterSample, hfind]
    exact tracks_found (hsys.findNew hlo hhi hparsed.process hfind).2 rfl rfl

/-- **The loop.**  After any number of frames the locals are those of the record
that is held. -/
theorem tracks_afterFrames (hsys : sys.Sound) (hparsed : reads.Parsed)
    (hn : n ≤ (allIps callchain).length) {sys' : SystemContext} {c' : Flame}
    (h : afterFrames filterMode sys callchain reads n = some (sys', c')) :
    Tracks callchain.intPid sys' c' (heldAt filterMode sys callchain reads n) := by
  obtain ⟨hlo, hhi⟩ := intPid_range callchain
  induction n generalizing sys' c' with
  | zero =>
      obtain ⟨rfl, rfl⟩ := Prod.mk.inj (Option.some.inj (afterFrames_zero.symm.trans h))
      exact tracks_enterSample filterMode hsys callchain hparsed
  | succ n ih =>
      obtain ⟨sys₁, c₁, hafter, hinv⟩ :=
        afterFrames_inv hsys callchain hparsed filterMode (n := n) (by omega)
      rw [afterFrames_succ (by omega), hafter, Option.bind_some] at h
      have hstep := (ih (by omega) hafter).frame hinv.sound hlo hhi (hparsed.frame n) h
      rw [heldAt, List.getElem?_eq_getElem (by omega)]
      exact hstep

/-- Appending to the stack leaves what is there. -/
theorem symbolizeFrame_flameBuffer {pid : Int} {sys' : SystemContext} {c c' : Flame}
    {currentIp : UInt64} {reads : FrameReads}
    (hframe : symbolizeFrame filterMode pid sys c currentIp reads = some (sys', c')) :
    c.flameBuffer <+: c'.flameBuffer := by
  have happend : ∀ (c : Flame) (name : CString), c.flameBuffer <+: (c.append name).flameBuffer := by
    intro c name
    unfold Flame.append
    split
    · exact List.prefix_append _ _
    · exact List.prefix_rfl
  cases symbolizeFrame_cases hframe with
  | filtered => exact List.prefix_rfl
  | kernel => exact happend c _
  | unknown => exact happend c _
  | same => exact happend c _
  | gone => exact List.prefix_append _ _
  | replaced _ _ _ _ hfind => exact happend (c.enter _) _

theorem stackHeader_prefix (hsys : sys.Sound) (hparsed : reads.Parsed)
    (hn : n ≤ (allIps callchain).length) {sys' : SystemContext} {c' : Flame}
    (h : afterFrames filterMode sys callchain reads n = some (sys', c')) :
    stackHeader sys callchain reads.process <+: c'.flameBuffer := by
  induction n generalizing sys' c' with
  | zero =>
      obtain rfl := congrArg Prod.snd (Option.some.inj (afterFrames_zero.symm.trans h))
      rw [(enterSample_spec hsys callchain hparsed.process).2.1]
      exact List.prefix_rfl
  | succ n ih =>
      rw [afterFrames_succ (by omega)] at h
      obtain ⟨⟨sys₁, c₁⟩, hafter, hframe⟩ := Option.bind_eq_some_iff.mp h
      exact (ih (by omega) hafter).trans (symbolizeFrame_flameBuffer hframe)

end

/-! ## The name in the row and the name in the stack -/

/-- `process_name` and `full_stack` of the row. -/
def rowFields (filterMode : FilterMode) (sys : SystemContext) (callchain : CallchainResult)
    (reads : SampleReads) : Option (CString × CString) :=
  (afterFrames filterMode sys callchain reads (allIps callchain).length).map fun next =>
    (next.2.processName, next.2.flameBuffer)

section

variable {filterMode : FilterMode} {sys : SystemContext} {callchain : CallchainResult}
  {reads : SampleReads}

/-- The row is made of these two. -/
theorem symbolizeSample_row :
    (symbolizeSample filterMode sys callchain reads).map (·.2.2) =
      (rowFields filterMode sys callchain reads).map fun fields =>
        dbStackStr callchain.intPid fields.1 fields.2 := by
  rw [symbolizeSample_eq, rowFields]
  cases afterFrames filterMode sys callchain reads (allIps callchain).length with
  | none => rfl
  | some next => simp only [Option.map_some]

/-- The row has the name of the record held at the end, and the stack begins with
the name of the record held at the start. -/
theorem rowFields_eq (filterMode : FilterMode) (hsys : sys.Sound) (callchain : CallchainResult)
    (hparsed : reads.Parsed) :
    ∃ rest, rowFields filterMode sys callchain reads =
      some (recordName (heldAt filterMode sys callchain reads (allIps callchain).length),
        stackHeader sys callchain reads.process ++ rest) := by
  obtain ⟨sys', c', hafter, -⟩ := afterFrames_inv hsys callchain hparsed filterMode le_rfl
  obtain ⟨rest, hrest⟩ := stackHeader_prefix hsys hparsed le_rfl hafter
  refine ⟨rest, ?_⟩
  rw [rowFields, hafter, Option.map_some, hrest,
    (tracks_afterFrames hsys hparsed le_rfl hafter).name]

/-- There is a last frame that notices another start time, or there is none. -/
theorem noticed_last (filterMode : FilterMode) (sys : SystemContext) (callchain : CallchainResult)
    (reads : SampleReads) :
    (∀ n, ¬NoticedAt filterMode sys callchain reads n) ∨
      ∃ n, NoticedAt filterMode sys callchain reads n ∧
        ∀ m, n < m → ¬NoticedAt filterMode sys callchain reads m := by
  classical
  by_cases hnone : ∃ n, NoticedAt filterMode sys callchain reads n
  · obtain ⟨n, hn⟩ := hnone
    right
    have hlast := Nat.findGreatest_spec (P := NoticedAt filterMode sys callchain reads)
      hn.lt.le hn
    refine ⟨_, hlast, fun m hlt hm => ?_⟩
    exact absurd (Nat.le_findGreatest hm.lt.le hm) (Nat.not_le.mpr hlt)
  · exact .inl fun n hn => hnone ⟨n, hn⟩

end

/-- **When the row names the process of the stack.**  If and only if the last
frame that notices another start time, if there is one, finds a record with the
name that the header has. -/
theorem process_name_agrees_iff {filterMode : FilterMode} {sys : SystemContext}
    {callchain : CallchainResult} {reads : SampleReads} (hsys : sys.Sound)
    (hparsed : reads.Parsed) :
    (∃ rest, rowFields filterMode sys callchain reads =
        some ((enterSample sys callchain reads.process).2.processName,
          stackHeader sys callchain reads.process ++ rest)) ↔
      ∀ n, NoticedAt filterMode sys callchain reads n →
        (∀ m, n < m → ¬NoticedAt filterMode sys callchain reads m) →
        recordName (lookedUp callchain.intPid (reads.frame n).process) =
          recordName (heldAt filterMode sys callchain reads 0) := by
  obtain ⟨rest, hrow⟩ := rowFields_eq filterMode hsys callchain hparsed
  have hname := (tracks_enterSample filterMode hsys callchain hparsed).name
  have hiff : (∃ rest, rowFields filterMode sys callchain reads =
        some ((enterSample sys callchain reads.process).2.processName,
          stackHeader sys callchain reads.process ++ rest)) ↔
      recordName (heldAt filterMode sys callchain reads (allIps callchain).length) =
        recordName (heldAt filterMode sys callchain reads 0) := by
    rw [hrow, hname]
    constructor
    · rintro ⟨rest', heq⟩
      exact (Prod.mk.inj (Option.some.inj heq)).1
    · exact fun heq => ⟨rest, by rw [heq]⟩
  rw [hiff]
  have hbehind : ∀ n, NoticedAt filterMode sys callchain reads n →
      (∀ m, n < m → ¬NoticedAt filterMode sys callchain reads m) →
      heldAt filterMode sys callchain reads (allIps callchain).length =
        lookedUp callchain.intPid (reads.frame n).process := fun n hn hlast => by
    rw [heldAt_eq_of_not_noticed (Nat.succ_le_of_lt hn.lt) fun m hm _ => hlast m hm]
    exact heldAt_succ_of_noticed hn
  constructor
  · intro heq n hn hlast
    rw [← hbehind n hn hlast, heq]
  · intro h
    rcases noticed_last filterMode sys callchain reads with hnone | ⟨n, hn, hlast⟩
    · rw [heldAt_eq_of_not_noticed (Nat.zero_le _) fun m _ _ => hnone m]
    · rw [hbehind n hn hlast, h n hn hlast]

/-- What is answered when a process with this name has taken the place of `a`. -/
def replacedBy (comm : CString) : SampleReads where
  process := leavingProcess.process
  frame _ := ⟨9, ⟨true, true, true, 9, some comm, none, true, some .nil⟩,
    ⟨fun _ => none, false, false⟩⟩

theorem parsed_replacedBy (comm : CString) : (replacedBy comm).Parsed :=
  ⟨parsed_leavingProcess.process, fun _ => by simp [ProcReads.Parsed, replacedBy, RbTree.toList]⟩

theorem process_name_agrees_iff_replaced :
    ∃ rest, rowFields .all (withSymbols .nil) (chainSample 0x401136 []) (replacedBy (cstr "a")) =
      some ((enterSample (withSymbols .nil) (chainSample 0x401136 [])
          (replacedBy (cstr "a")).process).2.processName,
        stackHeader (withSymbols .nil) (chainSample 0x401136 [])
          (replacedBy (cstr "a")).process ++ rest) :=
  (process_name_agrees_iff (sound_withSymbols .nil) (parsed_replacedBy _)).mpr fun n _ _ =>
    (by decide : recordName (lookedUp (chainSample 0x401136 []).intPid
        ((replacedBy (cstr "a")).frame 0).process) =
      recordName (heldAt .all (withSymbols .nil) (chainSample 0x401136 [])
        (replacedBy (cstr "a")) 0))

/-- The process `a` is replaced by `b`. -/
theorem row_names_another_process :
    (∃ rest, rowFields .all (withSymbols .nil) (chainSample 0x401136 []) (replacedBy (cstr "b")) =
      some (cstr "b", cstr "a[7]" ++ rest)) ∧
    ¬∀ filterMode sys callchain reads, sys.Sound → reads.Parsed →
      ∃ rest, rowFields filterMode sys callchain reads =
        some ((enterSample sys callchain reads.process).2.processName,
          stackHeader sys callchain reads.process ++ rest) := by
  have hheld : heldAt .all (withSymbols .nil) (chainSample 0x401136 []) (replacedBy (cstr "b"))
      (allIps (chainSample 0x401136 [])).length = some (9, some (cstr "b")) := by decide
  have hheader : stackHeader (withSymbols .nil) (chainSample 0x401136 [])
      (replacedBy (cstr "b")).process = cstr "a[7]" := by decide
  have hentered : (enterSample (withSymbols .nil) (chainSample 0x401136 [])
      (replacedBy (cstr "b")).process).2.processName = cstr "a" := by decide
  obtain ⟨rest, hrow⟩ := rowFields_eq .all (sound_withSymbols .nil) (chainSample 0x401136 [])
    (parsed_replacedBy (cstr "b"))
  rw [hheld, hheader] at hrow
  refine ⟨⟨rest, hrow⟩, fun hall => ?_⟩
  obtain ⟨rest', hrow'⟩ := hall .all _ (chainSample 0x401136 []) _ (sound_withSymbols .nil)
    (parsed_replacedBy (cstr "b"))
  rw [hrow, hentered] at hrow'
  exact absurd (Prod.mk.inj (Option.some.inj hrow')).1 (by decide)

/-! ## Giving up a record -/

/-- The call discards the record. -/
def Discards (filterMode : FilterMode) (sys : SystemContext) (callchain : CallchainResult)
    (reads : SampleReads) (node : ProcessNode) : Prop :=
  ∃ sys' c', afterFrames filterMode sys callchain reads (allIps callchain).length =
    some (sys', c') ∧ ¬sys'.processTable.Has node.identity

/-- The `n`-th address is looked up in the process. -/
def UsedAt (filterMode : FilterMode) (callchain : CallchainResult) (n : Nat) : Prop :=
  ∃ currentIp ∈ (allIps callchain)[n]?, usesProcess filterMode currentIp = true

/-- At some frame another process than the record's holds the pid. -/
def Reused (filterMode : FilterMode) (callchain : CallchainResult) (holder : Nat → Option Nat)
    (node : ProcessNode) : Prop :=
  ∃ n, UsedAt filterMode callchain n ∧ ∃ startTime ∈ holder n, startTime ≠ node.info.startTime

section

variable {filterMode : FilterMode} {sys : SystemContext} {callchain : CallchainResult}
  {reads : SampleReads} {node : ProcessNode} {n : Nat}

/-- A record stays as long as no frame notices another start time. -/
theorem has_afterFrames (hsys : sys.Sound) (hparsed : reads.Parsed)
    (hcached : findProcess sys.processTable callchain.intPid = some node)
    (hn : n ≤ (allIps callchain).length) {sys' : SystemContext} {c' : Flame}
    (h : afterFrames filterMode sys callchain reads n = some (sys', c')) :
    node.addr < sys'.fresh ∧ (sys'.processTable.Has node.identity ↔
      ∀ m < n, ¬NoticedAt filterMode sys callchain reads m) := by
  obtain ⟨lost, hbalanced⟩ := hsys.balanced
  obtain ⟨hpid, hpresent⟩ := findProcess_eq_some hcached
  induction n generalizing sys' c' with
  | zero =>
      have hstart : (enterSample sys callchain reads.process).1 =
          { sys with fresh := sys.fresh + 1 } := by
        simp only [enterSample, SystemContext.findNew, findNewProcess, hcached]
      obtain rfl := congrArg Prod.fst (Option.some.inj (afterFrames_zero.symm.trans h))
      rw [hstart]
      refine ⟨Nat.lt_succ_of_lt (hbalanced.addr_lt node hpresent), ?_⟩
      exact iff_of_true ⟨node, hpresent, rfl⟩ (by simp)
  | succ n ih =>
      obtain ⟨sys₁, c₁, hafter, hinv⟩ := afterFrames_inv hsys callchain hparsed filterMode
        (n := n) (by omega)
      obtain ⟨hfresh, hhas⟩ := ih (by omega) hafter
      rw [afterFrames_succ (by omega), hafter, Option.bind_some] at h
      obtain ⟨hfresh', hhas'⟩ := (tracks_afterFrames hsys hparsed (by omega) hafter).has_frame
        hinv.sound h node.identity hfresh hpid
      have hnotices : notices filterMode (heldAt filterMode sys callchain reads n)
          (allIps callchain)[n] (reads.frame n) = false ↔
          ¬NoticedAt filterMode sys callchain reads n := by
        simp [NoticedAt, List.getElem?_eq_getElem (show n < (allIps callchain).length by omega)]
      refine ⟨hfresh', ?_⟩
      rw [hhas', hhas, hnotices, Nat.forall_lt_succ_right]

/-- The call discards the record if some frame that looks at it reads another
start time. -/
theorem discards_iff (hsys : sys.Sound) (hparsed : reads.Parsed)
    (hcached : findProcess sys.processTable callchain.intPid = some node) :
    Discards filterMode sys callchain reads node ↔
      ∃ n, UsedAt filterMode callchain n ∧ (reads.frame n).startTime ≠ node.info.startTime := by
  have hheld : heldAt filterMode sys callchain reads 0 =
      some (node.info.startTime, node.info.processName) := by
    rw [heldAt, hcached]
  have hnoticed : ∀ n, heldAt filterMode sys callchain reads n =
      some (node.info.startTime, node.info.processName) →
      (NoticedAt filterMode sys callchain reads n ↔
        UsedAt filterMode callchain n ∧ (reads.frame n).startTime ≠ node.info.startTime) := by
    intro n hn
    simp only [NoticedAt, UsedAt, notices, hn, Bool.and_eq_true, Option.any_some, decide_eq_true_eq]
    constructor
    · rintro ⟨currentIp, hip, hused, hne⟩
      exact ⟨⟨currentIp, hip, hused⟩, hne.symm⟩
    · rintro ⟨⟨currentIp, hip, hused⟩, hne⟩
      exact ⟨currentIp, hip, hused, hne.symm⟩
  obtain ⟨sys', c', hafter, -⟩ := afterFrames_inv hsys callchain hparsed filterMode le_rfl
  have hhas := (has_afterFrames hsys hparsed hcached le_rfl hafter).2
  have hdiscards : Discards filterMode sys callchain reads node ↔
      ∃ n, NoticedAt filterMode sys callchain reads n := by
    simp only [Discards, hafter, Option.some.injEq, Prod.mk.injEq]
    constructor
    · rintro ⟨sys₁, c₁, ⟨rfl, rfl⟩, hgone⟩
      by_contra hnone
      exact hgone (hhas.mpr fun m _ hm => hnone ⟨m, hm⟩)
    · rintro ⟨n, hn⟩
      exact ⟨sys', c', ⟨rfl, rfl⟩, fun hstays => hhas.mp hstays n hn.lt hn⟩
  rw [hdiscards]
  constructor
  · -- the first frame that notices something still holds the record
    rintro ⟨n, hn⟩
    classical
    have hfirst := Nat.find_spec ⟨n, hn⟩
    have hkept := heldAt_eq_of_not_noticed (Nat.zero_le _) fun m _ hm => Nat.find_min ⟨n, hn⟩ hm
    exact ⟨_, (hnoticed _ (hkept.trans hheld)).mp hfirst⟩
  · rintro ⟨n, hn⟩
    by_contra hnone
    have hkept := heldAt_eq_of_not_noticed (Nat.zero_le n) fun m _ _ hm => hnone ⟨m, hm⟩
    exact hnone ⟨n, (hnoticed n (hkept.trans hheld)).mpr hn⟩

end

/-- **When a record is discarded just for a process that is replaced.**  Where the
frames read the start time of the process that holds the pid, and 0 if there is
none: if the record's start time is 0, or no frame finds the pid free, or
another frame finds it reused. -/
theorem discards_iff_reused_iff {filterMode : FilterMode} {sys : SystemContext}
    {callchain : CallchainResult} {reads : SampleReads} {node : ProcessNode}
    {holder : Nat → Option Nat} (hsys : sys.Sound) (hparsed : reads.Parsed)
    (hcached : findProcess sys.processTable callchain.intPid = some node)
    (hholder : ∀ n, (reads.frame n).startTime = (holder n).getD 0) :
    (Discards filterMode sys callchain reads node ↔ Reused filterMode callchain holder node) ↔
      (node.info.startTime = 0 ∨ (∀ n, UsedAt filterMode callchain n → holder n ≠ none) ∨
        Reused filterMode callchain holder node) := by
  rw [discards_iff hsys hparsed hcached]
  have hreused : Reused filterMode callchain holder node →
      ∃ n, UsedAt filterMode callchain n ∧ (reads.frame n).startTime ≠ node.info.startTime := by
    rintro ⟨n, hused, startTime, hmem, hne⟩
    refine ⟨n, hused, ?_⟩
    rwa [hholder, hmem]
  constructor
  · intro hiff
    by_contra hfree
    push Not at hfree
    obtain ⟨hstart, ⟨n, hused, hnone⟩, hnot⟩ := hfree
    refine hnot (hiff.mp ⟨n, hused, ?_⟩)
    rw [hholder, hnone]
    exact hstart.symm
  · intro hcond
    refine ⟨?_, hreused⟩
    rintro ⟨n, hused, hne⟩
    rw [hholder] at hne
    cases hn : holder n with
    | some startTime =>
        rw [hn] at hne
        exact ⟨n, hused, startTime, hn, hne⟩
    | none =>
        rw [hn] at hne
        rcases hcond with hstart | hheld | hreused
        · exact absurd hstart.symm hne
        · exact absurd hn (hheld n hused)
        · exact hreused

theorem sound_withLeaving (kernelSymbols : RbTree KernelSymbol) :
    (withLeaving kernelSymbols).Sound := by
  have hfind : (withSymbols kernelSymbols).findNew 7 leavingProcess.process =
      (withLeaving kernelSymbols, some leavingNode) := rfl
  exact ((sound_withSymbols kernelSymbols).findNew (by decide) (by decide)
    parsed_leavingProcess.process hfind).1

theorem findProcess_withLeaving (kernelSymbols : RbTree KernelSymbol) :
    findProcess (withLeaving kernelSymbols).processTable (chainSample 0x401136 []).intPid =
      some leavingNode := by
  have hpid : (chainSample 0x401136 []).intPid = 7 := by decide
  rw [hpid]
  simp [findProcess, withLeaving, leavingNode]

theorem discards_iff_reused_iff_replaced :
    Discards .all (withLeaving .nil) (chainSample 0x401136 []) (replacedBy (cstr "b"))
        leavingNode ↔
      Reused .all (chainSample 0x401136 []) (fun _ => some 9) leavingNode :=
  (discards_iff_reused_iff (sound_withLeaving .nil) (parsed_replacedBy _)
    (findProcess_withLeaving .nil) fun _ => rfl).mpr (.inr (.inl fun _ _ => by simp))

/-- The process has exited, and nothing has taken its place. -/
theorem exited_record_discarded :
    (Discards .all (withLeaving .nil) (chainSample 0x401136 []) leavingProcess leavingNode ∧
      ¬Reused .all (chainSample 0x401136 []) (fun _ => none) leavingNode) ∧
    ¬∀ filterMode sys callchain reads node holder, sys.Sound → reads.Parsed →
      findProcess sys.processTable callchain.intPid = some node →
      (∀ n, (reads.frame n).startTime = (holder n).getD 0) →
      (∃ n, UsedAt filterMode callchain n) →
      (Discards filterMode sys callchain reads node ↔ Reused filterMode callchain holder node) := by
  have hsound := sound_withLeaving .nil
  have hcached := findProcess_withLeaving .nil
  have hused : UsedAt .all (chainSample 0x401136 []) 0 := ⟨0x401136, by decide, by decide⟩
  have hdiscards : Discards .all (withLeaving .nil) (chainSample 0x401136 []) leavingProcess
      leavingNode :=
    (discards_iff hsound parsed_leavingProcess hcached).mpr
      ⟨0, hused, (by decide : (0 : Nat) ≠ 5)⟩
  have hnot : ¬Reused .all (chainSample 0x401136 []) (fun _ => none) leavingNode := by
    simp [Reused]
  exact ⟨⟨hdiscards, hnot⟩, fun hall => hnot ((hall _ _ _ _ _ _ hsound parsed_leavingProcess
    hcached (fun _ => rfl) ⟨0, hused⟩).mp hdiscards)⟩

end Profiling
