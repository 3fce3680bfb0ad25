import Profiling.Dispatch
import Profiling.Sample.Bounds

/-!
# Profiling.Sample.Leftover

What `parse_sample_data` leaves of the structure that it is given.

It clears `pid`, `tid`, `ip` and `nr` first, but not `timestamp_ns`, which is
only written if the record reaches up to the time.  So the sample that
`dispatch_sample_event` queues is the record's just for the records that do
(`parseSampleData_determined_iff`).
-/

namespace Profiling

/-! ## Records -/

/-- The bytes of the record at `header`: its header, and what `header->size` says. -/
def recordBytes (header : Mem) : List UInt8 :=
  slice header 0 (max sizeofHeader (headerSize header))

/-- The sample that `dispatch_sample_event` queues: its locals are `stack`, and
`chunk` is what `mempool_alloc` gives it. -/
def queuedSample (useLbr : Bool) (header : Mem) (stack : CallchainResult) (chunk : RawSample) :
    Sample :=
  (fillSample (parseSampleData useLbr header stack maxStackDepthCopy) chunk).sample

/-- The results have the same `timestamp_ns`, `pid`, `tid`, `ip`, `nr` and first
`nr` entries. -/
def CallchainResult.Agrees (r r' : CallchainResult) : Prop := r.nr = r'.nr ∧ r.sample = r'.sample

/-- Two calls on the same bytes have results that agree, and the same sample is
queued. -/
structure Determined (useLbr : Bool) (header : Mem) (maxIps : Nat) : Prop where
  result : ∀ header' stack stack', recordBytes header' = recordBytes header →
    (parseSampleData useLbr header' stack' maxIps).Agrees
      (parseSampleData useLbr header stack maxIps)
  queued : ∀ header' stack stack' chunk chunk', recordBytes header' = recordBytes header →
    queuedSample useLbr header' stack' chunk' = queuedSample useLbr header stack chunk

/-- The record reaches up to the end of the time. -/
def HasTime (header : Mem) : Prop := sizeofHeader + 8 + 8 + 8 ≤ headerSize header

instance (header : Mem) : Decidable (HasTime header) := inferInstanceAs (Decidable (_ ≤ _))

/-- The entries that are taken out of a record, from `ptr` on. -/
def recordIps (useLbr : Bool) (header : Mem) (ptr maxIps : Nat) : List UInt64 :=
  if ptr + 8 > headerSize header then []
  else
    let nrFromData := (loadU64 header ptr).toNat
    let remaining := headerSize header - (ptr + 8)
    if useLbr then
      ((List.range (countToCopy nrFromData remaining sizeofBranchEntry maxIps)).map
        fun i => loadU64 header (ptr + 8 + sizeofBranchEntry * i)).filter (· ≠ 0)
    else
      (List.range (countToCopy nrFromData remaining 8 maxIps)).map
        fun i => loadU64 header (ptr + 8 + 8 * i)

section

variable {header header' : Mem} {useLbr : Bool} {ptr maxIps : Nat}

/-- The number of entries is that of the sample. -/
theorem agrees_iff {r r' : CallchainResult} : r.Agrees r' ↔ r.sample = r'.sample := by
  have hnr : ∀ r : CallchainResult, r.sample.ips.length = r.nr := fun r => length_slice r.ips 0 r.nr
  refine ⟨And.right, fun h => ⟨?_, h⟩⟩
  rw [← hnr r, ← hnr r', h]

/-- Equal bytes are loaded alike. -/
theorem load_congr {m m' : Mem} {n p k : Nat} (h : slice m 0 n = slice m' 0 n) (hk : p + k ≤ n) :
    load m p k = load m' p k := by
  rw [load_eq_of_slice rfl hk, load_eq_of_slice rfl hk, h]

/-- The bytes of a record say how long it is. -/
theorem headerSize_congr (h : recordBytes header' = recordBytes header) :
    headerSize header' = headerSize header := by
  have hlen := congrArg List.length h
  simp only [recordBytes, length_slice] at hlen
  rw [recordBytes, recordBytes, hlen] at h
  have hheader : sizeofHeader ≤ max sizeofHeader (headerSize header) := le_max_left _ _
  exact load_congr h hheader

/-- What is loaded out of a record. -/
theorem load_record_congr (h : recordBytes header' = recordBytes header) {p k : Nat}
    (hk : p + k ≤ headerSize header) : load header' p k = load header p k := by
  have hsize := headerSize_congr h
  rw [recordBytes, recordBytes, hsize] at h
  exact load_congr h (hk.trans (le_max_right _ _))

theorem loadU64_record_congr (h : recordBytes header' = recordBytes header) {p : Nat}
    (hk : p + 8 ≤ headerSize header) : loadU64 header' p = loadU64 header p :=
  congrArg UInt64.ofNat (load_record_congr h hk)

theorem recordIps_congr (h : recordBytes header' = recordBytes header) :
    recordIps useLbr header' ptr maxIps = recordIps useLbr header ptr maxIps := by
  rw [recordIps, recordIps, headerSize_congr h]
  split
  · rfl
  · next hsize =>
    rw [loadU64_record_congr h (Nat.le_of_not_lt hsize)]
    dsimp only
    have hentries : ∀ {w count : Nat}, 8 ≤ w → w * count ≤ headerSize header - (ptr + 8) →
        (List.range count).map (fun i => loadU64 header' (ptr + 8 + w * i)) =
          (List.range count).map fun i => loadU64 header (ptr + 8 + w * i) := by
      intro w count hw hcount
      refine List.map_congr_left fun i hi => loadU64_record_congr h ?_
      have hnext : w * (i + 1) ≤ w * count :=
        Nat.mul_le_mul_left w (Nat.succ_le_of_lt (List.mem_range.mp hi))
      rw [Nat.mul_succ] at hnext
      omega
    cases useLbr with
    | true =>
        rw [if_pos rfl, if_pos rfl, hentries (by decide) (countToCopy_mul_le _ _ _ _)]
    | false =>
        rw [if_neg Bool.false_ne_true, if_neg Bool.false_ne_true,
          hentries (by decide) (countToCopy_mul_le _ _ _ _)]

/-! ## What is parsed -/

/-- What is copied to the front of an array, and read from there. -/
theorem slice_copied {α : Type} (src old : Nat → α) (count : Nat) :
    slice (fun i => if i < count then src i else old i) 0 count = (List.range count).map src := by
  refine List.ext_getElem (by simp) fun i h₁ h₂ => ?_
  rw [length_slice] at h₁
  rw [getElem_slice, Nat.zero_add, if_pos h₁, List.getElem_map, List.getElem_range]

/-- The entries of a record are all that is left of `result.ips`. -/
theorem sample_parseEntries {result : CallchainResult} (hnr : result.nr = 0) :
    (if useLbr then parseBranchStack header (headerSize header) ptr result maxIps
      else parseCallchain header (headerSize header) ptr result maxIps).sample =
      ⟨result.timestampNs, result.pid, result.tid, result.ip,
        recordIps useLbr header ptr maxIps⟩ := by
  have hentries : result.entries = [] := by rw [CallchainResult.entries, hnr]; rfl
  cases useLbr with
  | true =>
      simp only [if_true, parseBranchStack, recordIps]
      split
      · rw [CallchainResult.sample, hentries]
      · rw [← List.foldl_map]
        obtain ⟨ips, nr, hfold, hslice, -⟩ := CallchainResult.foldl_pushBranch
          ((List.range (countToCopy (loadU64 header ptr).toNat (headerSize header - (ptr + 8))
            sizeofBranchEntry maxIps)).map
              fun i => loadU64 header (ptr + 8 + sizeofBranchEntry * i)) { result with nr := 0 }
        have hnone : CallchainResult.entries { result with nr := 0 } = [] := rfl
        rw [hfold, CallchainResult.sample, CallchainResult.entries, hslice, hnone, List.nil_append]
  | false =>
      simp only [Bool.false_eq_true, if_false, parseCallchain, recordIps]
      split
      · rw [CallchainResult.sample, hentries]
      · rw [CallchainResult.sample, CallchainResult.entries]
        dsimp only
        rw [slice_copied]

/-- Of a record with a time, everything is taken out of the record. -/
theorem sample_parseSampleData (htime : HasTime header) (stack : CallchainResult) :
    (parseSampleData useLbr header stack maxIps).sample =
      ⟨loadU64 header 24, loadU32 header 16, loadU32 header 20, loadU64 header 8,
        recordIps useLbr header 32 maxIps⟩ := by
  rw [HasTime] at htime
  have hip : ¬sizeofHeader + 8 > headerSize header := by omega
  have hpid : ¬sizeofHeader + 8 + 8 > headerSize header := by omega
  have hsize : ¬sizeofHeader + 8 + 8 + 8 > headerSize header := by omega
  simp only [parseSampleData, if_neg hip, if_neg hpid, if_neg hsize]
  exact sample_parseEntries rfl

/-- Of a record without one, the time is what was there. -/
theorem timestampNs_parseSampleData (htime : ¬HasTime header) (stack : CallchainResult) :
    (parseSampleData useLbr header stack maxIps).timestampNs = stack.timestampNs := by
  rw [HasTime] at htime
  simp only [parseSampleData]
  split
  · rfl
  split
  · rfl
  rw [if_pos (by omega)]

/-- The sample in a chunk is the one that was parsed. -/
theorem queuedSample_eq (stack : CallchainResult) (chunk : RawSample) :
    queuedSample useLbr header stack chunk =
      (parseSampleData useLbr header stack maxStackDepthCopy).sample :=
  sample_fillSample (parseSampleData_nr_le useLbr header stack maxStackDepthCopy) chunk

end

/-- Locals that hold this time and else zeros. -/
def leftover (timestampNs : UInt64) : CallchainResult := ⟨timestampNs, 0, 0, 0, 0, fun _ => 0⟩

/-- **Nothing is left over** of what was in the structure, and of the locals in the
sample that is queued, if and only if the record reaches up to its time. -/
theorem parseSampleData_determined_iff (useLbr : Bool) (header : Mem) (maxIps : Nat) :
    Determined useLbr header maxIps ↔ HasTime header := by
  constructor
  · intro h
    by_contra htime
    have hsame := congrArg Sample.timestampNs (h.result header (leftover 0) (leftover 1) rfl).2
    simp only [CallchainResult.sample, timestampNs_parseSampleData htime] at hsame
    exact absurd hsame (by decide)
  · intro htime
    have hresult : ∀ maxIps header' stack stack', recordBytes header' = recordBytes header →
        (parseSampleData useLbr header' stack' maxIps).sample =
          (parseSampleData useLbr header stack maxIps).sample := by
      intro maxIps header' stack stack' hsame
      have htime' : HasTime header' := by rwa [HasTime, headerSize_congr hsame]
      have hload : ∀ {p k : Nat}, p + k ≤ 32 → load header' p k = load header p k :=
        fun hk => load_record_congr hsame (hk.trans htime)
      rw [sample_parseSampleData htime, sample_parseSampleData htime', recordIps_congr hsame]
      simp only [loadU64, loadU32, hload (show 24 + 8 ≤ 32 by decide),
        hload (show 16 + 4 ≤ 32 by decide), hload (show 20 + 4 ≤ 32 by decide),
        hload (show 8 + 8 ≤ 32 by decide)]
    constructor
    · intro header' stack stack' hsame
      exact agrees_iff.mpr (hresult maxIps header' stack stack' hsame)
    · intro header' stack stack' chunk chunk' hsame
      rw [queuedSample_eq, queuedSample_eq]
      exact hresult maxStackDepthCopy header' stack stack' hsame

/-- A record that ends behind the address: `size` is 16. -/
def cutRecord : Mem := memOf [9, 0, 0, 0, 0, 0, 16, 0, 1, 0, 0, 0, 0, 0, 0, 0]

/-- The time of the sample that is queued for it is what was on the stack. -/
theorem not_determined_cutRecord :
    ¬Determined false cutRecord maxStackDepthCopy ∧
      ∀ timestampNs chunk,
        (queuedSample false cutRecord (leftover timestampNs) chunk).timestampNs = timestampNs :=
  ⟨fun h => absurd
      (congrArg Sample.timestampNs (h.result cutRecord (leftover 0) (leftover 1) rfl).2) (by decide),
    fun _ _ => rfl⟩

end Profiling
