import Profiling.Memory
import Profiling.Perf.Ring

/-!
# Profiling.Sample

`parse_sample_data` of `src/core/handler.c`, and the sample records it is
meant for.

The decoder follows the source field by field, each read behind its bounds
check.  `encodeSample` is the other side: the record that the kernel writes
for a `sample_type`, its fields in the order `perf_event_open(2)` documents.
-/

namespace Profiling

/-- `MAX_STACK_DEPTH_COPY` -/
def maxStackDepthCopy : Nat := 128

/-- `struct callchain_result`, with the buffer `ips` points to. -/
structure CallchainResult where
  timestampNs : UInt64
  pid : UInt32
  tid : UInt32
  ip : UInt64
  nr : Nat
  ips : Nat → UInt64

namespace CallchainResult

/-- The entries a result holds: the first `nr` of its buffer. -/
def entries (r : CallchainResult) : List UInt64 := slice r.ips 0 r.nr

/-- `result->ips[result->nr++] = branches[i].from`, for a non-zero source. -/
def pushBranch (r : CallchainResult) (source : UInt64) : CallchainResult :=
  if source = 0 then r
  else { r with ips := Function.update r.ips r.nr source, nr := r.nr + 1 }

end CallchainResult

/-- `sizeof(struct perf_branch_entry)`: `u64 from; u64 to; u64 flags` -/
def sizeofBranchEntry : Nat := 24

/-- `count_to_copy`: how many of the declared entries of `width` bytes fit
both the rest of the record and the caller's buffer. -/
def countToCopy (nrFromData remainingBytes width maxIps : Nat) : Nat :=
  let nrFromSize := remainingBytes / width
  let nr := if nrFromData < nrFromSize then nrFromData else nrFromSize
  if nr < maxIps then nr else maxIps

/-- The LBR branch of `parse_sample_data`, from `ptr` on. -/
def parseBranchStack (header : Mem) (endPtr ptr : Nat) (result : CallchainResult) (maxIps : Nat) :
    CallchainResult :=
  if ptr + 8 > endPtr then result
  else
    let nrFromData := (loadU64 header ptr).toNat
    let ptr := ptr + 8
    let count := countToCopy nrFromData (endPtr - ptr) sizeofBranchEntry maxIps
    let source (i : Nat) := loadU64 header (ptr + sizeofBranchEntry * i)
    (List.range count).foldl (fun r i => r.pushBranch (source i)) { result with nr := 0 }

/-- The call-chain branch of `parse_sample_data`, from `ptr` on. -/
def parseCallchain (header : Mem) (endPtr ptr : Nat) (result : CallchainResult) (maxIps : Nat) :
    CallchainResult :=
  if ptr + 8 > endPtr then result
  else
    let nrFromData := (loadU64 header ptr).toNat
    let ptr := ptr + 8
    let count := countToCopy nrFromData (endPtr - ptr) 8 maxIps
    { result with
      nr := count
      ips := fun i => if i < count then loadU64 header (ptr + 8 * i) else result.ips i }

/-- `parse_sample_data`; `useLbr` is `global_config.use_lbr`, and `result` is
the structure as the caller passes it. -/
def parseSampleData (useLbr : Bool) (header : Mem) (result : CallchainResult) (maxIps : Nat) :
    CallchainResult :=
  let result := { result with pid := 0, tid := 0, ip := 0, nr := 0 }
  let endPtr := headerSize header
  let ptr := sizeofHeader
  if ptr + 8 > endPtr then result
  else
    let result := { result with ip := loadU64 header ptr }
    let ptr := ptr + 8
    if ptr + 8 > endPtr then result
    else
      let result := { result with pid := loadU32 header ptr, tid := loadU32 header (ptr + 4) }
      let ptr := ptr + 8
      if ptr + 8 > endPtr then result
      else
        let result := { result with timestampNs := loadU64 header ptr }
        let ptr := ptr + 8
        if useLbr then parseBranchStack header endPtr ptr result maxIps
        else parseCallchain header endPtr ptr result maxIps

/-! ## The entries a result holds -/

/-- No more entries than the caller's buffer takes. -/
theorem countToCopy_le (d r w m : Nat) : countToCopy d r w m ≤ m := by
  simp only [countToCopy]
  split <;> split <;> omega

/-- Of `nr` declared entries of `w` bytes there are `m` in a record, and `rest`
bytes behind them: they are all there, or no further one is complete. -/
def EntriesFit (w nr m rest : Nat) : Prop := m = nr ∨ m ≤ nr ∧ rest < w

/-- Of the entries that are in the record, all are copied that fit the buffer. -/
theorem countToCopy_of_entriesFit {nr w n rest : Nat} (m : Nat) (hw : 0 < w)
    (h : EntriesFit w nr n rest) : countToCopy nr (w * n + rest) w m = min n m := by
  have hdiv : (w * n + rest) / w = n + rest / w := Nat.mul_add_div hw n rest
  have hrest : rest < w → rest / w = 0 := Nat.div_eq_of_lt
  simp only [countToCopy, hdiv]
  generalize rest / w = more at hrest
  rcases h with rfl | ⟨hle, hlt⟩
  · split <;> split <;> omega
  · rw [hrest hlt, Nat.add_zero]
    split <;> split <;> omega

namespace CallchainResult

/-- Pushing branch sources appends the non-zero ones and touches no other field. -/
theorem foldl_pushBranch (xs : List UInt64) (r : CallchainResult) :
    ∃ ips nr, xs.foldl pushBranch r = { r with ips, nr } ∧
      slice ips 0 nr = r.entries ++ xs.filter (· ≠ 0) ∧ nr ≤ r.nr + xs.length := by
  induction xs generalizing r with
  | nil => exact ⟨r.ips, r.nr, rfl, by simp [entries], Nat.le_refl _⟩
  | cons x xs ih =>
      obtain ⟨ips, nr, hfold, hslice, hle⟩ := ih (r.pushBranch x)
      by_cases hx : x = 0
      · simp only [pushBranch, hx, if_true] at hfold hslice hle
        refine ⟨ips, nr, by simp [pushBranch, hx, hfold], by simp [hslice, hx], ?_⟩
        rw [List.length_cons]; omega
      · simp only [pushBranch, if_neg hx] at hfold hslice hle
        have hkeep : slice (Function.update r.ips r.nr x) 0 r.nr = slice r.ips 0 r.nr :=
          slice_congr fun i hi => Function.update_of_ne (by omega) _ _
        refine ⟨ips, nr, by simp [pushBranch, hx, hfold], ?_, by rw [List.length_cons]; omega⟩
        simp [hslice, entries, slice_succ, hkeep, hx]

end CallchainResult

/-- A decoded result never holds more entries than the caller's buffer takes. -/
theorem parseSampleData_nr_le (useLbr : Bool) (header : Mem) (result : CallchainResult)
    (maxIps : Nat) : (parseSampleData useLbr header result maxIps).nr ≤ maxIps := by
  have hbranch : ∀ endPtr ptr (r : CallchainResult), r.nr = 0 →
      (parseBranchStack header endPtr ptr r maxIps).nr ≤ maxIps := by
    intro endPtr ptr r hr
    rw [parseBranchStack]
    split
    · omega
    · dsimp only
      rw [← List.foldl_map]
      obtain ⟨ips, nr, hfold, -, hle⟩ := CallchainResult.foldl_pushBranch _ _
      rw [hfold]
      rw [List.length_map, List.length_range, Nat.zero_add] at hle
      exact Nat.le_trans hle (countToCopy_le _ _ _ _)
  have hchain : ∀ endPtr ptr (r : CallchainResult), r.nr = 0 →
      (parseCallchain header endPtr ptr r maxIps).nr ≤ maxIps := by
    intro endPtr ptr r hr
    rw [parseCallchain]
    split
    · omega
    · exact countToCopy_le _ _ _ _
  simp only [parseSampleData]
  split
  · exact Nat.zero_le _
  split
  · exact Nat.zero_le _
  split
  · exact Nat.zero_le _
  split
  · exact hbranch _ _ _ rfl
  · exact hchain _ _ _ rfl

/-! ## What the kernel writes -/

/-- `PERF_SAMPLE_*`, the bits of `sample_type` -/
def perfSampleIp : UInt64 := (1 : UInt64) <<< 0
def perfSampleTid : UInt64 := (1 : UInt64) <<< 1
def perfSampleTime : UInt64 := (1 : UInt64) <<< 2
def perfSampleCallchain : UInt64 := (1 : UInt64) <<< 5
def perfSampleBranchStack : UInt64 := (1 : UInt64) <<< 11
def perfSampleRegsUser : UInt64 := (1 : UInt64) <<< 12

/-- `PERF_RECORD_SAMPLE` -/
def perfRecordSample : Nat := 9

/-- `struct perf_branch_entry` -/
structure PerfBranchEntry where
  source : UInt64
  target : UInt64
  flags : UInt64

/-- The bytes of a branch entry. -/
def PerfBranchEntry.bytes (b : PerfBranchEntry) : List UInt8 :=
  u64Bytes b.source ++ u64Bytes b.target ++ u64Bytes b.flags

@[simp] theorem PerfBranchEntry.length_bytes (b : PerfBranchEntry) : b.bytes.length = 24 := by
  simp [bytes]

/-- What the kernel knows when it takes a sample.  `userRegs` is `none` where
there is no user context, and otherwise holds the registers asked for. -/
structure KernelSample where
  misc : UInt16
  ip : UInt64
  pid : UInt32
  tid : UInt32
  time : UInt64
  callchain : List UInt64
  branches : List PerfBranchEntry
  userRegs : Option (List UInt64)

namespace KernelSample

/-- The `PERF_SAMPLE_REGS_USER` field: the ABI, and the registers if there is one. -/
def regsUserBytes (s : KernelSample) : List UInt8 :=
  match s.userRegs with
  | none => u64Bytes 0
  | some regs => u64Bytes 2 ++ regs.flatMap u64Bytes

/-- The body of a `PERF_RECORD_SAMPLE`: the fields that `sampleType` selects,
in the kernel's order. -/
def body (s : KernelSample) (sampleType : UInt64) : List UInt8 :=
  let field (bit : UInt64) (bytes : List UInt8) := if sampleType &&& bit ≠ 0 then bytes else []
  field perfSampleIp (u64Bytes s.ip)
    ++ (field perfSampleTid (u32Bytes s.pid ++ u32Bytes s.tid)
    ++ (field perfSampleTime (u64Bytes s.time)
    ++ (field perfSampleCallchain
          (leBytes 8 s.callchain.length ++ s.callchain.flatMap u64Bytes)
    ++ (field perfSampleBranchStack
          (leBytes 8 s.branches.length ++ s.branches.flatMap PerfBranchEntry.bytes)
    ++ field perfSampleRegsUser s.regsUserBytes))))

/-- A whole record: the header, with the record's length as its `size`. -/
def encodeSample (s : KernelSample) (sampleType : UInt64) : List UInt8 :=
  leBytes 4 perfRecordSample ++ (leBytes 2 s.misc.toNat ++
    (leBytes 2 (sizeofHeader + (s.body sampleType).length) ++ s.body sampleType))

end KernelSample

/-! ## Decoding a record -/

/-- The bytes in front of the entries: header, ip, pid and tid, time, and the
number of entries. -/
def samplePrefix (misc : UInt16) (size : Nat) (ip : UInt64) (pid tid : UInt32) (time : UInt64)
    (nr : Nat) : List UInt8 :=
  leBytes 4 perfRecordSample ++ (leBytes 2 misc.toNat ++ (leBytes 2 size ++ (u64Bytes ip ++
    (u32Bytes pid ++ (u32Bytes tid ++ (u64Bytes time ++ leBytes 8 nr))))))

@[simp] theorem length_samplePrefix (misc : UInt16) (size : Nat) (ip : UInt64) (pid tid : UInt32)
    (time : UInt64) (nr : Nat) : (samplePrefix misc size ip pid tid time nr).length = 40 := by
  simp [samplePrefix]

section

variable {header : Mem} {misc : UInt16} {size nr : Nat} {ip time : UInt64} {pid tid : UInt32}

/-- What `parse_sample_data` does on a record that starts with these fields:
it fills them in and goes on to the entries. -/
theorem parseSampleData_fields (useLbr : Bool) (result : CallchainResult) (maxIps : Nat)
    (h : header.Shows 0 (samplePrefix misc size ip pid tid time nr))
    (hsize : size < 65536) (h40 : 40 ≤ size) :
    parseSampleData useLbr header result maxIps =
      let result := { result with pid := pid, tid := tid, ip := ip, timestampNs := time, nr := 0 }
      if useLbr then parseBranchStack header size 32 result maxIps
      else parseCallchain header size 32 result maxIps := by
  simp only [samplePrefix, Mem.shows_append, length_leBytes, length_u64Bytes, length_u32Bytes,
    Nat.zero_add, Nat.reduceAdd] at h
  obtain ⟨-, -, hsz, hip, hpid, htid, htime, -⟩ := h
  have hend : headerSize header = size := hsz.load hsize
  simp only [parseSampleData, hend, sizeofHeader, Nat.reduceAdd, hip.loadU64, hpid.loadU32,
    htid.loadU32, htime.loadU64]
  rw [if_neg (by omega), if_neg (by omega), if_neg (by omega)]

/-- The declared number of entries. -/
theorem loadU64_nr (h : header.Shows 0 (samplePrefix misc size ip pid tid time nr))
    (hnr : nr < 2 ^ 64) : (loadU64 header 32).toNat = nr := by
  simp only [samplePrefix, Mem.shows_append, length_leBytes, length_u64Bytes, length_u32Bytes,
    Nat.zero_add, Nat.reduceAdd] at h
  obtain ⟨-, -, -, -, -, -, -, h⟩ := h
  rw [loadU64, h.load hnr, UInt64.toNat_ofNat_of_lt' hnr]

/-- **Call-chain records decode.**  A record with `addrs` behind the fixed
fields, which are those declared or as many as are complete, gives its fields
and as many of the addresses, in order, as the buffer takes. -/
theorem parseSampleData_callchain (result : CallchainResult) (maxIps : Nat)
    {addrs : List UInt64} {trailing : List UInt8}
    (h : header.Shows 0 (samplePrefix misc size ip pid tid time nr ++
      (addrs.flatMap u64Bytes ++ trailing)))
    (hlen : size = 40 + (8 * addrs.length + trailing.length)) (hsize : size < 65536)
    (hnr : nr < 2 ^ 64) (hfit : EntriesFit 8 nr addrs.length trailing.length) :
    ∃ ips, parseSampleData false header result maxIps =
        ⟨time, pid, tid, ip, min addrs.length maxIps, ips⟩ ∧
      slice ips 0 (min addrs.length maxIps) = addrs.take maxIps := by
  rw [Mem.shows_append, Mem.shows_append, length_samplePrefix] at h
  obtain ⟨hpre, haddrs, -⟩ := h
  have hremaining : size - (32 + 8) = 8 * addrs.length + trailing.length := by omega
  rw [parseSampleData_fields false result maxIps hpre hsize (by omega)]
  simp only [Bool.false_eq_true, if_false, parseCallchain, loadU64_nr hpre hnr]
  rw [if_neg (by omega), hremaining, countToCopy_of_entriesFit maxIps (by decide) hfit]
  refine ⟨_, rfl, ?_⟩
  refine List.ext_getElem (by simp [Nat.min_comm]) fun i h₁ h₂ => ?_
  rw [length_slice] at h₁
  have hi : i < addrs.length := by omega
  rw [getElem_slice, Nat.zero_add, if_pos h₁, List.getElem_take]
  exact (haddrs.entry length_u64Bytes hi).loadU64

/-- **Branch records decode.**  A record with `branches` behind the fixed
fields, which are those declared or as many as are complete, gives its fields
and the non-zero sources of as many of the branches as the buffer takes, in
order. -/
theorem parseSampleData_branches (result : CallchainResult) (maxIps : Nat)
    {branches : List PerfBranchEntry} {trailing : List UInt8}
    (h : header.Shows 0 (samplePrefix misc size ip pid tid time nr ++
      (branches.flatMap PerfBranchEntry.bytes ++ trailing)))
    (hlen : size = 40 + (24 * branches.length + trailing.length)) (hsize : size < 65536)
    (hnr : nr < 2 ^ 64) (hfit : EntriesFit 24 nr branches.length trailing.length) :
    ∃ ips n, parseSampleData true header result maxIps = ⟨time, pid, tid, ip, n, ips⟩ ∧
      slice ips 0 n = ((branches.take maxIps).map (·.source)).filter (· ≠ 0) := by
  rw [Mem.shows_append, Mem.shows_append, length_samplePrefix] at h
  obtain ⟨hpre, hbr, -⟩ := h
  have hremaining : size - (32 + 8) = 24 * branches.length + trailing.length := by omega
  rw [parseSampleData_fields true result maxIps hpre hsize (by omega)]
  simp only [if_true, parseBranchStack, loadU64_nr hpre hnr]
  rw [if_neg (by omega), hremaining, sizeofBranchEntry,
    countToCopy_of_entriesFit maxIps (by decide) hfit, ← List.foldl_map]
  obtain ⟨ips, n, hfold, hslice, -⟩ := CallchainResult.foldl_pushBranch
    ((List.range (min branches.length maxIps)).map fun i => loadU64 header (32 + 8 + 24 * i))
    { result with pid := pid, tid := tid, ip := ip, timestampNs := time, nr := 0 }
  refine ⟨ips, n, hfold, hslice.trans ?_⟩
  have hsources : (List.range (min branches.length maxIps)).map
      (fun i => loadU64 header (32 + 8 + 24 * i)) =
        (branches.take maxIps).map (·.source) := by
    refine List.ext_getElem (by simp [Nat.min_comm]) fun i h₁ h₂ => ?_
    have hi : i < branches.length := by simp at h₁; omega
    have hentry := hbr.entry PerfBranchEntry.length_bytes hi
    rw [PerfBranchEntry.bytes, List.append_assoc, Mem.shows_append] at hentry
    simpa using hentry.1.loadU64
  rw [hsources]
  simp [CallchainResult.entries]

end

/-! ## The two layouts -/

/-- `sampleType` selects the layout that `parse_sample_data` decodes under
this `use_lbr`. -/
structure LayoutAgrees (useLbr : Bool) (sampleType : UInt64) : Prop where
  ip : sampleType &&& perfSampleIp ≠ 0
  tid : sampleType &&& perfSampleTid ≠ 0
  time : sampleType &&& perfSampleTime ≠ 0
  callchain : sampleType &&& perfSampleCallchain ≠ 0 ↔ useLbr = false
  branchStack : sampleType &&& perfSampleBranchStack ≠ 0 ↔ useLbr = true

namespace KernelSample

/-- The stack a record of this `sampleType` holds, as far as the tool's buffer
takes it: the call chain's entries, or the branches' non-zero sources. -/
def recordedIps (s : KernelSample) (sampleType : UInt64) : List UInt64 :=
  if sampleType &&& perfSampleCallchain ≠ 0 then s.callchain.take maxStackDepthCopy
  else ((s.branches.take maxStackDepthCopy).map (·.source)).filter (· ≠ 0)

/-- `parse_sample_data` recovers the sample from `header`. -/
structure DecodesTo (s : KernelSample) (sampleType : UInt64) (r : CallchainResult) : Prop where
  ip : r.ip = s.ip
  pid : r.pid = s.pid
  tid : r.tid = s.tid
  time : r.timestampNs = s.time
  ips : r.entries = s.recordedIps sampleType

theorem length_encodeSample (s : KernelSample) (sampleType : UInt64) :
    (s.encodeSample sampleType).length = sizeofHeader + (s.body sampleType).length := by
  simp only [encodeSample, List.length_append, length_leBytes, sizeofHeader]
  omega

/-- A call-chain record: the fixed fields, the call chain, the registers. -/
theorem encodeSample_callchain {sampleType : UInt64} (h : LayoutAgrees false sampleType)
    (s : KernelSample) : ∃ trailing, s.encodeSample sampleType =
      samplePrefix s.misc (s.encodeSample sampleType).length s.ip s.pid s.tid s.time
        s.callchain.length ++ (s.callchain.flatMap u64Bytes ++ trailing) := by
  have hc := h.callchain.mpr rfl
  have hb : ¬(sampleType &&& perfSampleBranchStack ≠ 0) := fun hb =>
    Bool.false_ne_true (h.branchStack.mp hb)
  refine ⟨if sampleType &&& perfSampleRegsUser ≠ 0 then s.regsUserBytes else [], ?_⟩
  rw [length_encodeSample, encodeSample]
  generalize hbody : s.body sampleType = bytes
  simp only [body, if_pos h.ip, if_pos h.tid, if_pos h.time, if_pos hc, if_neg hb,
    List.nil_append] at hbody
  simp only [← hbody, samplePrefix, List.append_assoc]

/-- A branch record: the fixed fields, the branches, the registers. -/
theorem encodeSample_branches {sampleType : UInt64} (h : LayoutAgrees true sampleType)
    (s : KernelSample) : ∃ trailing, s.encodeSample sampleType =
      samplePrefix s.misc (s.encodeSample sampleType).length s.ip s.pid s.tid s.time
        s.branches.length ++ (s.branches.flatMap PerfBranchEntry.bytes ++ trailing) := by
  have hb := h.branchStack.mpr rfl
  have hc : ¬(sampleType &&& perfSampleCallchain ≠ 0) := fun hc =>
    Bool.false_ne_true (h.callchain.mp hc).symm
  refine ⟨if sampleType &&& perfSampleRegsUser ≠ 0 then s.regsUserBytes else [], ?_⟩
  rw [length_encodeSample, encodeSample]
  generalize hbody : s.body sampleType = bytes
  simp only [body, if_pos h.ip, if_pos h.tid, if_pos h.time, if_pos hb, if_neg hc,
    List.nil_append] at hbody
  simp only [← hbody, samplePrefix, List.append_assoc]

/-- **The decoder fits the layout.**  When layout and `use_lbr` agree, every
record the kernel can write decodes to its sample. -/
theorem decodesTo_of_layoutAgrees {useLbr : Bool} {sampleType : UInt64}
    (hlay : LayoutAgrees useLbr sampleType) {s : KernelSample} {header : Mem}
    (hfits : (s.encodeSample sampleType).length < 65536)
    (h : header.Shows 0 (s.encodeSample sampleType)) (result : CallchainResult) :
    s.DecodesTo sampleType (parseSampleData useLbr header result maxStackDepthCopy) := by
  cases useLbr with
  | false =>
      obtain ⟨trailing, henc⟩ := encodeSample_callchain hlay s
      have hlen := congrArg List.length henc
      simp only [List.length_append, length_samplePrefix, length_flatMap_const length_u64Bytes]
        at hlen
      rw [henc] at h
      obtain ⟨ips, hparse, hips⟩ :=
        parseSampleData_callchain result maxStackDepthCopy h hlen hfits (by omega) (.inl rfl)
      rw [hparse]
      refine ⟨rfl, rfl, rfl, rfl, ?_⟩
      rw [CallchainResult.entries, hips, recordedIps, if_pos (hlay.callchain.mpr rfl)]
  | true =>
      obtain ⟨trailing, henc⟩ := encodeSample_branches hlay s
      have hlen := congrArg List.length henc
      simp only [List.length_append, length_samplePrefix,
        length_flatMap_const PerfBranchEntry.length_bytes] at hlen
      rw [henc] at h
      obtain ⟨ips, nr, hparse, hips⟩ :=
        parseSampleData_branches result maxStackDepthCopy h hlen hfits (by omega) (.inl rfl)
      rw [hparse]
      refine ⟨rfl, rfl, rfl, rfl, ?_⟩
      rw [CallchainResult.entries, hips, recordedIps,
        if_neg fun hc => Bool.false_ne_true (hlay.callchain.mp hc).symm]

end KernelSample

end Profiling
