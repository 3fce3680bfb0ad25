import Profiling.Sample

/-!
# Profiling.Sample.Bounds

The memory that `parse_sample_data` touches.

`parseSampleDataTraced` is the decoder again, with a log of its accesses to
the record and to the caller's `ips`; the log is checked for every record,
well formed or not (`parseSampleDataTraced_spec`).  `SampleRecord` is a record
that declares any number of entries, of which it holds those that are there.
-/

namespace Profiling

/-! ## The accesses -/

/-- An access to memory that is not `parse_sample_data`'s own. -/
inductive Access where
  /-- `width` bytes of the record, from `offset` on -/
  | read (offset width : Nat)
  /-- `result->ips[index]` -/
  | write (index : Nat)
  deriving DecidableEq, Repr

/-- The indices that a log writes, in its order. -/
def writtenIndices (log : List Access) : List Nat :=
  log.filterMap fun
    | .read _ _ => none
    | .write index => some index

@[simp] theorem writtenIndices_nil : writtenIndices [] = [] := rfl

@[simp] theorem writtenIndices_read (offset width : Nat) (log : List Access) :
    writtenIndices (.read offset width :: log) = writtenIndices log := rfl

@[simp] theorem writtenIndices_write (index : Nat) (log : List Access) :
    writtenIndices (.write index :: log) = index :: writtenIndices log := rfl

@[simp] theorem writtenIndices_append (log log' : List Access) :
    writtenIndices (log ++ log') = writtenIndices log ++ writtenIndices log' :=
  List.filterMap_append

@[simp] theorem writtenIndices_map_write (indices : List Nat) :
    writtenIndices (indices.map .write) = indices := by
  induction indices with
  | nil => rfl
  | cons i indices ih => rw [List.map_cons, writtenIndices_write, ih]

/-- The body of the loop over the branches. -/
def pushBranchTraced (header : Mem) (branches : Nat) (traced : CallchainResult × List Access)
    (i : Nat) : CallchainResult × List Access :=
  let offset := branches + sizeofBranchEntry * i
  let source := loadU64 header offset
  if source = 0 then (traced.1, traced.2 ++ [.read offset 8])
  else
    -- the source is read for the test and again for the copy
    (traced.1.pushBranch source, traced.2 ++ [.read offset 8, .read offset 8, .write traced.1.nr])

/-- The LBR branch of `parse_sample_data`, with its accesses. -/
def parseBranchStackTraced (header : Mem) (endPtr ptr : Nat) (result : CallchainResult)
    (maxIps : Nat) : CallchainResult × List Access :=
  if ptr + 8 > endPtr then (result, [])
  else
    let nrFromData := (loadU64 header ptr).toNat
    let branches := ptr + 8
    let count := countToCopy nrFromData (endPtr - branches) sizeofBranchEntry maxIps
    (List.range count).foldl (pushBranchTraced header branches)
      ({ result with nr := 0 }, [.read ptr 8])

/-- The call-chain branch of `parse_sample_data`, with its accesses. -/
def parseCallchainTraced (header : Mem) (endPtr ptr : Nat) (result : CallchainResult)
    (maxIps : Nat) : CallchainResult × List Access :=
  if ptr + 8 > endPtr then (result, [])
  else
    let nrFromData := (loadU64 header ptr).toNat
    let addrs := ptr + 8
    let count := countToCopy nrFromData (endPtr - addrs) 8 maxIps
    ({ result with
        nr := count
        ips := fun i => if i < count then loadU64 header (addrs + 8 * i) else result.ips i },
      .read ptr 8 ::
        if count > 0 then .read addrs (8 * count) :: (List.range count).map .write else [])

/-- `parse_sample_data`, with its accesses; the first one is that to `header->size`. -/
def parseSampleDataTraced (useLbr : Bool) (header : Mem) (result : CallchainResult)
    (maxIps : Nat) : CallchainResult × List Access :=
  let result := { result with pid := 0, tid := 0, ip := 0, nr := 0 }
  let endPtr := headerSize header
  let log := [Access.read 6 2]
  let ptr := sizeofHeader
  if ptr + 8 > endPtr then (result, log)
  else
    let result := { result with ip := loadU64 header ptr }
    let log := log ++ [Access.read ptr 8]
    let ptr := ptr + 8
    if ptr + 8 > endPtr then (result, log)
    else
      let result := { result with pid := loadU32 header ptr, tid := loadU32 header (ptr + 4) }
      let log := log ++ [Access.read ptr 4, Access.read (ptr + 4) 4]
      let ptr := ptr + 8
      if ptr + 8 > endPtr then (result, log)
      else
        let result := { result with timestampNs := loadU64 header ptr }
        let log := log ++ [Access.read ptr 8]
        let ptr := ptr + 8
        let (result, entries) :=
          if useLbr then parseBranchStackTraced header endPtr ptr result maxIps
          else parseCallchainTraced header endPtr ptr result maxIps
        (result, log ++ entries)

/-! ## The bounds -/

/-- The reads of `ip`, `pid`, `tid` and `time`. -/
def fixedReads : List Access :=
  [.read sizeofHeader 8, .read (sizeofHeader + 8) 4, .read (sizeofHeader + 8 + 4) 4,
    .read (sizeofHeader + 8 + 8) 8]

/-- All reads are below `size`, and the entries up to `nr`, which the buffer
has room for, are what is written. -/
structure Within (size maxIps : Nat) (traced : CallchainResult × List Access) : Prop where
  reads : ∀ offset width, Access.read offset width ∈ traced.2 → offset + width ≤ size
  writes : writtenIndices traced.2 = List.range traced.1.nr
  nr_le : traced.1.nr ≤ maxIps

/-- The entries that are copied are in the record. -/
theorem countToCopy_mul_le (d r w m : Nat) : w * countToCopy d r w m ≤ r := by
  have hle : countToCopy d r w m ≤ r / w := by
    simp only [countToCopy]
    split <;> split <;> omega
  exact Nat.le_trans (Nat.mul_le_mul_left w hle) (Nat.mul_div_le r w)

section

variable {header : Mem} {size ptr maxIps : Nat} {result : CallchainResult}

theorem Within.mono {m : Nat} {traced : CallchainResult × List Access}
    (h : Within size m traced) (hm : m ≤ maxIps) : Within size maxIps traced :=
  ⟨h.reads, h.writes, Nat.le_trans h.nr_le hm⟩

/-- One branch reads its source, and fills the next entry if that is not zero. -/
theorem Within.pushBranch {traced : CallchainResult × List Access} {branches i m : Nat}
    (h : Within size m traced) (hfits : branches + sizeofBranchEntry * i + 8 ≤ size) :
    Within size (m + 1) (pushBranchTraced header branches traced i) := by
  rw [pushBranchTraced]
  split
  · refine ⟨fun offset width hread => ?_, by simp [h.writes], ?_⟩
    · obtain hread | hread := List.mem_append.mp hread
      · exact h.reads offset width hread
      · simp only [List.mem_singleton, Access.read.injEq] at hread
        obtain ⟨rfl, rfl⟩ := hread
        exact hfits
    · exact Nat.le_succ_of_le h.nr_le
  · next hsource =>
    refine ⟨fun offset width hread => ?_, ?_, ?_⟩
    · obtain hread | hread := List.mem_append.mp hread
      · exact h.reads offset width hread
      · simp only [List.mem_cons, Access.read.injEq, reduceCtorEq, List.not_mem_nil, or_false,
          or_self] at hread
        obtain ⟨rfl, rfl⟩ := hread
        exact hfits
    · simp [h.writes, CallchainResult.pushBranch, hsource, List.range_succ]
    · have := h.nr_le
      simp only [CallchainResult.pushBranch, if_neg hsource]
      omega

/-- It is `pushBranch` on the result. -/
theorem pushBranchTraced_fst (header : Mem) (branches : Nat)
    (traced : CallchainResult × List Access) (i : Nat) :
    (pushBranchTraced header branches traced i).1 =
      traced.1.pushBranch (loadU64 header (branches + sizeofBranchEntry * i)) := by
  simp only [pushBranchTraced]
  split
  · next hzero => simp only [CallchainResult.pushBranch, if_pos hzero]
  · dsimp only

/-- The loop over the branches. -/
theorem foldl_pushBranchTraced (header : Mem) (branches : Nat)
    {traced : CallchainResult × List Access} (h : Within size 0 traced) (count : Nat)
    (hfits : branches + sizeofBranchEntry * count ≤ size) :
    Within size count ((List.range count).foldl (pushBranchTraced header branches) traced) ∧
      ((List.range count).foldl (pushBranchTraced header branches) traced).1 =
        (List.range count).foldl
          (fun r i => r.pushBranch (loadU64 header (branches + sizeofBranchEntry * i)))
          traced.1 := by
  induction count with
  | zero => exact ⟨h, rfl⟩
  | succ count ih =>
      rw [sizeofBranchEntry] at hfits
      obtain ⟨hwithin, hfold⟩ := ih (by rw [sizeofBranchEntry]; omega)
      have hread : branches + sizeofBranchEntry * count + 8 ≤ size := by
        rw [sizeofBranchEntry]
        omega
      rw [List.range_succ, List.foldl_concat, List.foldl_concat, ← hfold]
      refine ⟨hwithin.pushBranch hread, ?_⟩
      exact pushBranchTraced_fst _ _ _ _

/-- The fixed fields are read in front of the entries. -/
theorem Within.fixedReads {traced : CallchainResult × List Access}
    (h : Within size maxIps traced) (hsize : sizeofHeader + 8 + 8 + 8 ≤ size) :
    Within size maxIps (traced.1, Profiling.fixedReads ++ traced.2) := by
  refine ⟨?_, by simp [h.writes, Profiling.fixedReads], h.nr_le⟩
  intro offset width hmem
  simp only [Profiling.fixedReads, List.cons_append, List.nil_append, List.mem_cons,
    Access.read.injEq] at hmem
  rcases hmem with hmem | hmem | hmem | hmem | hmem
  · omega
  · omega
  · omega
  · omega
  · exact h.reads offset width hmem

theorem parseBranchStackTraced_spec (header : Mem) (endPtr ptr : Nat) (hnr : result.nr = 0) :
    Within endPtr maxIps (parseBranchStackTraced header endPtr ptr result maxIps) ∧
      (parseBranchStackTraced header endPtr ptr result maxIps).1 =
        parseBranchStack header endPtr ptr result maxIps := by
  rw [parseBranchStackTraced, parseBranchStack]
  split
  · exact ⟨⟨by simp, by simp [hnr], by simp [hnr]⟩, rfl⟩
  · next hptr =>
    have hstart : Within endPtr 0 ({ result with nr := 0 }, [.read ptr 8]) := by
      refine ⟨fun offset width hread => ?_, rfl, Nat.le_refl 0⟩
      simp only [List.mem_singleton, Access.read.injEq] at hread
      omega
    have hfits := countToCopy_mul_le (loadU64 header ptr).toNat (endPtr - (ptr + 8))
      sizeofBranchEntry maxIps
    obtain ⟨hwithin, hfold⟩ := foldl_pushBranchTraced header (ptr + 8) hstart
      (countToCopy (loadU64 header ptr).toNat (endPtr - (ptr + 8)) sizeofBranchEntry maxIps)
      (by omega)
    exact ⟨hwithin.mono (countToCopy_le _ _ _ _), hfold⟩

theorem parseCallchainTraced_spec (header : Mem) (endPtr ptr : Nat) (hnr : result.nr = 0) :
    Within endPtr maxIps (parseCallchainTraced header endPtr ptr result maxIps) ∧
      (parseCallchainTraced header endPtr ptr result maxIps).1 =
        parseCallchain header endPtr ptr result maxIps := by
  rw [parseCallchainTraced, parseCallchain]
  split
  · exact ⟨⟨by simp, by simp [hnr], by simp [hnr]⟩, rfl⟩
  · next hptr =>
    have hfits := countToCopy_mul_le (loadU64 header ptr).toNat (endPtr - (ptr + 8)) 8 maxIps
    have hle := countToCopy_le (loadU64 header ptr).toNat (endPtr - (ptr + 8)) 8 maxIps
    dsimp only
    generalize countToCopy (loadU64 header ptr).toNat (endPtr - (ptr + 8)) 8 maxIps = count
      at hfits hle
    refine ⟨⟨fun offset width hread => ?_, ?_, hle⟩, rfl⟩
    · obtain hread | hread := List.mem_cons.mp hread
      · simp only [Access.read.injEq] at hread
        omega
      · split at hread
        · simp only [List.mem_cons, Access.read.injEq, List.mem_map, reduceCtorEq, and_false,
            exists_false, or_false] at hread
          omega
        · simp at hread
    · by_cases hcount : count > 0
      · simp [hcount]
      · obtain rfl : count = 0 := by omega
        rfl

end

/-- **Every record is decoded in bounds.**  The trace is one of
`parse_sample_data`; apart from `header->size` itself, nothing at or behind the
end of the record is read, and the entries that are written are those up to
`nr`, at most `max_ips`. -/
theorem parseSampleDataTraced_spec (useLbr : Bool) (header : Mem) (result : CallchainResult)
    (maxIps : Nat) :
    ∃ log, parseSampleDataTraced useLbr header result maxIps =
        (parseSampleData useLbr header result maxIps, .read 6 2 :: log) ∧
      Within (headerSize header) maxIps (parseSampleData useLbr header result maxIps, log) := by
  have hnil : ∀ (r : CallchainResult) (log : List Access), r.nr = 0 → writtenIndices log = [] →
      (∀ offset width, Access.read offset width ∈ log → offset + width ≤ headerSize header) →
      Within (headerSize header) maxIps (r, log) := fun r log hnr hlog hreads =>
    ⟨hreads, by rw [hnr, hlog, List.range_zero], by rw [hnr]; exact Nat.zero_le _⟩
  have hread : ∀ {log : List Access} {n : Nat}, n ≤ headerSize header →
      (∀ offset width, Access.read offset width ∈ log → offset + width ≤ n) →
      ∀ offset width, Access.read offset width ∈ log → offset + width ≤ headerSize header :=
    fun hn hlog offset width hmem => Nat.le_trans (hlog offset width hmem) hn
  unfold parseSampleDataTraced parseSampleData
  by_cases hip : sizeofHeader + 8 > headerSize header
  · simp only [if_pos hip]
    exact ⟨[], rfl, hnil _ _ rfl rfl (by simp)⟩
  by_cases hpid : sizeofHeader + 8 + 8 > headerSize header
  · simp only [if_neg hip, if_pos hpid]
    exact ⟨_, rfl, hnil _ _ rfl rfl (hread (Nat.le_of_not_lt hip) (by simp))⟩
  by_cases htime : sizeofHeader + 8 + 8 + 8 > headerSize header
  · simp only [if_neg hip, if_neg hpid, if_pos htime]
    exact ⟨_, rfl, hnil _ _ rfl rfl (hread (Nat.le_of_not_lt hpid) (by simp; omega))⟩
  simp only [if_neg hip, if_neg hpid, if_neg htime]
  have hlog : ∀ log : List Access, [Access.read 6 2] ++ [Access.read sizeofHeader 8] ++
      [Access.read (sizeofHeader + 8) 4, Access.read (sizeofHeader + 8 + 4) 4] ++
      [Access.read (sizeofHeader + 8 + 8) 8] ++ log = .read 6 2 :: (fixedReads ++ log) :=
    fun log => by simp only [fixedReads, List.cons_append, List.nil_append]
  have hentries : ∀ {traced : CallchainResult × List Access} {r : CallchainResult},
      Within (headerSize header) maxIps traced ∧ traced.1 = r →
      ∃ log, (traced.1, Access.read 6 2 :: (fixedReads ++ traced.2)) = (r, .read 6 2 :: log) ∧
        Within (headerSize header) maxIps (r, log) := by
    rintro traced r ⟨hwithin, rfl⟩
    exact ⟨_, rfl, hwithin.fixedReads (Nat.le_of_not_lt htime)⟩
  simp only [hlog]
  cases useLbr with
  | false => exact hentries (parseCallchainTraced_spec header _ _ rfl)
  | true => exact hentries (parseBranchStackTraced_spec header _ _ rfl)

/-! ## The records -/

/-- A sample record: the fixed fields, the number of entries that it declares,
the entries that it holds, and the bytes behind them. -/
structure SampleRecord (α : Type) where
  misc : UInt16
  ip : UInt64
  pid : UInt32
  tid : UInt32
  time : UInt64
  nr : UInt64
  entries : List α
  trailing : List UInt8

namespace SampleRecord

variable {α : Type}

/-- `header->size` -/
def size (w : Nat) (r : SampleRecord α) : Nat := 40 + (w * r.entries.length + r.trailing.length)

/-- The record in memory, with entries of `w` bytes. -/
def bytes (w : Nat) (encode : α → List UInt8) (r : SampleRecord α) : List UInt8 :=
  samplePrefix r.misc (r.size w) r.ip r.pid r.tid r.time r.nr.toNat ++
    (r.entries.flatMap encode ++ r.trailing)

/-- `header` points to the record, whose entries are those declared or as many
of them as are complete. -/
structure Shown (w : Nat) (encode : α → List UInt8) (header : Mem) (r : SampleRecord α) :
    Prop where
  shows : header.Shows 0 (r.bytes w encode)
  size_lt : r.size w < 65536
  fit : EntriesFit w r.nr.toNat r.entries.length r.trailing.length

/-- The result has the record's fields, and these entries. -/
structure Decoded (r : SampleRecord α) (ips : List UInt64) (result : CallchainResult) : Prop where
  ip : result.ip = r.ip
  pid : result.pid = r.pid
  tid : result.tid = r.tid
  time : result.timestampNs = r.time
  entries : result.entries = ips

end SampleRecord

/-- **`parse_sample_data` is sound.**  On every record it stays in bounds and
writes the entries up to `nr`, and it inverts the encoding of those that hold a
call chain or branches. -/
theorem parse_sample_data_sound (useLbr : Bool) (header : Mem) (result : CallchainResult)
    (maxIps : Nat) :
    (∃ log, parseSampleDataTraced useLbr header result maxIps =
        (parseSampleData useLbr header result maxIps, .read 6 2 :: log) ∧
      Within (headerSize header) maxIps (parseSampleData useLbr header result maxIps, log)) ∧
    (useLbr = false → ∀ r : SampleRecord UInt64, r.Shown 8 u64Bytes header →
      r.Decoded (r.entries.take maxIps) (parseSampleData useLbr header result maxIps)) ∧
    (useLbr = true → ∀ r : SampleRecord PerfBranchEntry, r.Shown 24 PerfBranchEntry.bytes header →
      r.Decoded (((r.entries.take maxIps).map (·.source)).filter (· ≠ 0))
        (parseSampleData useLbr header result maxIps)) := by
  refine ⟨parseSampleDataTraced_spec useLbr header result maxIps, ?_, ?_⟩
  · rintro rfl r hr
    obtain ⟨ips, hparse, hips⟩ := parseSampleData_callchain result maxIps hr.shows rfl hr.size_lt
      r.nr.toNat_lt hr.fit
    rw [hparse]
    exact ⟨rfl, rfl, rfl, rfl, hips⟩
  · rintro rfl r hr
    obtain ⟨ips, n, hparse, hips⟩ := parseSampleData_branches result maxIps hr.shows rfl hr.size_lt
      r.nr.toNat_lt hr.fit
    rw [hparse]
    exact ⟨rfl, rfl, rfl, rfl, hips⟩

/-- Two branches that fit, of three declared, and half of the third. -/
def cutBranches : SampleRecord PerfBranchEntry where
  misc := 2
  ip := 0x401136
  pid := 42
  tid := 42
  time := 1000
  nr := 3
  entries := [⟨0x401130, 0x401200, 0⟩, ⟨0, 0x401300, 0⟩]
  trailing := u64Bytes 0x401140

theorem parse_sample_data_sound_cutBranches :
    (parseSampleData true (memOf (cutBranches.bytes 24 PerfBranchEntry.bytes))
      ⟨0, 0, 0, 0, 0, fun _ => 0⟩ maxStackDepthCopy).entries = [0x401130] :=
  ((parse_sample_data_sound true (memOf (cutBranches.bytes 24 PerfBranchEntry.bytes))
    ⟨0, 0, 0, 0, 0, fun _ => 0⟩ maxStackDepthCopy).2.2 rfl cutBranches
      ⟨by decide, by decide, .inr (by decide)⟩).entries

end Profiling
