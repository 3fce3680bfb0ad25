import Profiling.Perf.Ring

/-!
# Profiling.Perf.Termination

When the main loop of `perf_event_consume_ring_buffer` ends, whatever is in the
data area.

An iteration goes from a position of the ring to the one that the size field
there leads to (`consumeStep_eq`); what is in `temp_buf` makes no difference.
The loop stops where `data_head` points and at a size of zero only, so it ends
if one of these is met before the positions repeat, and at most that many
iterations go by (`consume_ring_buffer_ends_iff`).
-/

namespace Profiling

/-! ## Iterating on finitely many points -/

/-- A map on `N` points that ever comes to a point with `P` does so in less than
`N` iterations. -/
theorem exists_iterate_lt {f : Nat → Nat} {N p : Nat} {P : Nat → Prop} (hf : ∀ x < N, f x < N)
    (hp : p < N) (h : ∃ k, P (f^[k] p)) : ∃ k < N, P (f^[k] p) := by
  classical
  have hin : ∀ k, f^[k] p < N := by
    intro k
    induction k with
    | zero => exact hp
    | succ k ih =>
        rw [Function.iterate_succ_apply']
        exact hf _ ih
  -- the first such iteration does not come behind a repetition
  refine ⟨Nat.find h, Nat.not_le.mp fun hlate => ?_, Nat.find_spec h⟩
  have hmaps : ∀ k ∈ Finset.range (N + 1), f^[k] p ∈ Finset.range N :=
    fun k _ => Finset.mem_range.mpr (hin k)
  obtain ⟨i, hi, j, hj, hne, heq⟩ :=
    Finset.exists_ne_map_eq_of_card_lt_of_maps_to (by simp) hmaps
  rw [Finset.mem_range] at hi hj
  have hshift : ∀ a b, a < b → b < N + 1 → f^[a] p = f^[b] p → False := by
    intro a b hab hb hsame
    have hback : f^[Nat.find h] p = f^[Nat.find h - (b - a)] p := by
      have hsplit : Nat.find h = (Nat.find h - b) + b := by omega
      have hless : Nat.find h - (b - a) = (Nat.find h - b) + a := by omega
      rw [hless, Function.iterate_add_apply, hsame, ← Function.iterate_add_apply, ← hsplit]
    refine Nat.find_min h (m := Nat.find h - (b - a)) (by omega) ?_
    rw [← hback]
    exact Nat.find_spec h
  rcases Nat.lt_or_gt_of_ne hne with hlt | hlt
  · exact hshift i j hlt hj heq
  · exact hshift j i hlt hi heq.symm

/-! ## Positions -/

/-- The size field of a header at a position of the ring. -/
def ringSize (base : Mem) (bufSize p : Nat) : Nat := leNat (cyclic base bufSize (p + 6) 2)

/-- Where the size at a position leads to. -/
def nextRecord (base : Mem) (bufSize p : Nat) : Nat :=
  (p + ringSize base bufSize p) % bufSize

/-- Of the positions that the sizes lead to from `p` on, one after another, one of
the first `bufSize` is `stop` or has a size of zero. -/
def Halts (base : Mem) (bufSize p stop : Nat) : Prop :=
  ∃ k < bufSize, (nextRecord base bufSize)^[k] p = stop ∨
    ringSize base bufSize ((nextRecord base bufSize)^[k] p) = 0

instance (base : Mem) (bufSize p stop : Nat) : Decidable (Halts base bufSize p stop) :=
  inferInstanceAs (Decidable (∃ k < bufSize, _))

section

variable {base : Mem} {N : Nat} (handler : List UInt8 → σ → σ)

theorem leNat_two_lt {bs : List UInt8} (h : bs.length = 2) : leNat bs < 65536 := by
  obtain ⟨a, b, rfl⟩ := List.length_eq_two.mp h
  have ha := a.toNat_lt
  have hb := b.toNat_lt
  simp only [leNat, List.foldr_cons, List.foldr_nil]
  omega

theorem ringSize_lt (base : Mem) (N p : Nat) : ringSize base N p < 65536 :=
  leNat_two_lt (length_cyclic _ _ _ _)

/-- Whatever shows the header of the ring shows its size. -/
theorem headerSize_eq_ringSize {m : Mem} {p : Nat}
    (h : slice m 0 sizeofHeader = cyclic base N p sizeofHeader) :
    headerSize m = ringSize base N p := by
  have hsplit : cyclic base N p sizeofHeader = cyclic base N p 6 ++ cyclic base N (p + 6) 2 :=
    cyclic_add base N p 6 2
  rw [headerSize, load_eq_of_slice h (by decide), hsplit, ringSize,
    List.drop_left' (length_cyclic _ _ _ _), List.take_of_length_le (by simp)]

/-- `hdr->size`, as long as `temp_buf` has the header in it if `hdr` points there. -/
theorem headerSize_hdr_ring {cur : Nat} {t : Mem}
    (ht : cur + sizeofHeader > N → slice t 0 sizeofHeader = cyclic base N cur sizeofHeader) :
    headerSize (hdr base N cur t) = ringSize base N cur := by
  refine headerSize_eq_ringSize ?_
  rw [hdr]
  split
  · next hstr => exact ht hstr
  · next hstr => rw [slice_at, Nat.add_zero, cyclic_eq_slice base (by omega)]

/-- The second piece of a record that wraps is copied over what is there already. -/
theorem slice_copied_again {cur n : Nat} {t : Mem} (hcur : cur < N) (hN : sizeofHeader ≤ N)
    (ht : slice t 0 sizeofHeader = cyclic base N cur sizeofHeader) :
    slice (memcpy t (N - cur) base 0 n) 0 sizeofHeader = cyclic base N cur sizeofHeader := by
  rw [← ht]
  refine slice_congr fun i hi => ?_
  rw [Nat.zero_add, memcpy]
  split
  · next hin =>
    have hring : t i = base ((cur + i) % N) := by
      have := List.map_inj_left.mp ht i (List.mem_range.mpr hi)
      rwa [Nat.zero_add] at this
    have hwrap : (cur + i) % N = 0 + (i - (N - cur)) := by
      rw [Nat.mod_eq_sub_mod (by omega), Nat.mod_eq_of_lt (by omega)]
      omega
    rw [hring, hwrap]
  · rfl

/-- **One iteration.**  At a size of zero it is the last one; else `cur` goes where
the size leads. -/
theorem consumeStep_eq {st : ConsumeState σ} (hcur : st.cur < N) (hN : 65536 ≤ N) :
    (ringSize base N st.cur = 0 → consumeStep base N handler st = none) ∧
      (ringSize base N st.cur ≠ 0 → ∃ st', consumeStep base N handler st = some st' ∧
        st'.cur = nextRecord base N st.cur) := by
  have h8 : sizeofHeader ≤ N := Nat.le_trans (by decide) hN
  have hsize := ringSize_lt base N st.cur
  have hfetch : headerSize (hdr base N st.cur (fetchHeader base N st.cur st.tempBuf)) =
      ringSize base N st.cur := headerSize_hdr_ring (slice_fetchHeader _ hcur h8)
  simp only [consumeStep, hfetch]
  refine ⟨fun hzero => if_pos hzero, fun hzero => ?_⟩
  rw [if_neg hzero]
  by_cases hover : st.cur + ringSize base N st.cur > N
  · rw [if_pos hover]
    have hnext : ringSize base N st.cur - (N - st.cur) = nextRecord base N st.cur := by
      rw [nextRecord, Nat.mod_eq_sub_mod (by omega), Nat.mod_eq_of_lt (by omega)]
      omega
    split
    · -- `temp_buf` has the header in it after each of the two copies
      have hre := headerSize_hdr_ring (slice_refetch base st.tempBuf hcur h8)
      rw [hre]
      have hagain := headerSize_hdr_ring fun hstr =>
        slice_copied_again (n := ringSize base N st.cur - (N - st.cur)) hcur h8
          (slice_refetch base st.tempBuf hcur h8 hstr)
      refine ⟨_, rfl, ?_⟩
      dsimp only
      rw [hagain, hnext]
    · exact ⟨_, rfl, hnext⟩
  · rw [if_neg hover]
    refine ⟨_, rfl, ?_⟩
    dsimp only
    rw [nextRecord]
    split
    · next hend => rw [hend, Nat.mod_self]
    · rw [Nat.mod_eq_of_lt (by omega)]

theorem nextRecord_lt {p : Nat} (hp : p < N) : nextRecord base N p < N :=
  Nat.mod_lt _ (Nat.zero_lt_of_lt hp)

/-- **The loop.**  With enough fuel it ends if and only if it comes to `stop` or a
size of zero. -/
theorem consumeLoop_isSome_iff {st : ConsumeState σ} (hcur : st.cur < N) (hN : 65536 ≤ N)
    (stop fuel : Nat) :
    (consumeLoop base N handler stop fuel st).isSome ↔
      ∃ k < fuel, (nextRecord base N)^[k] st.cur = stop ∨
        ringSize base N ((nextRecord base N)^[k] st.cur) = 0 := by
  induction fuel generalizing st with
  | zero => simp [consumeLoop]
  | succ fuel ih =>
      obtain ⟨hlast, hnext⟩ := @consumeStep_eq _ base N handler st hcur hN
      rw [Nat.exists_lt_succ_left, consumeLoop]
      by_cases hstop : st.cur = stop
      · simp [hstop]
      rw [if_neg hstop]
      by_cases hzero : ringSize base N st.cur = 0
      · simp [hlast hzero, hzero]
      obtain ⟨st', hstep, hcur'⟩ := hnext hzero
      rw [hstep]
      dsimp only
      rw [ih (hcur' ▸ nextRecord_lt hcur), hcur']
      simp [hstop, hzero]

/-- The loop ends in as many iterations as there are positions, or never. -/
theorem consumeLoop_ends_iff {st : ConsumeState σ} (hcur : st.cur < N) (hN : 65536 ≤ N)
    (stop : Nat) :
    (∃ fuel, (consumeLoop base N handler stop fuel st).isSome) ↔ Halts base N st.cur stop := by
  simp only [consumeLoop_isSome_iff handler hcur hN]
  constructor
  · rintro ⟨fuel, k, -, hk⟩
    exact exists_iterate_lt (P := fun p => p = stop ∨ ringSize base N p = 0)
      (fun p hp => nextRecord_lt hp) hcur ⟨k, hk⟩
  · exact fun h => ⟨N, h⟩

/-- Sizes that are all multiples of `m` lead to nothing else than multiples. -/
theorem not_halts_of_dvd {m p stop : Nat} (hm : m ∣ N)
    (hsize : ∀ q, q % m = p % m → ringSize base N q ≠ 0 ∧ m ∣ ringSize base N q)
    (hstop : stop % m ≠ p % m) : ¬Halts base N p stop := by
  have hsame : ∀ k, (nextRecord base N)^[k] p % m = p % m := by
    intro k
    induction k with
    | zero => rfl
    | succ k ih =>
        rw [Function.iterate_succ_apply', nextRecord, Nat.mod_mod_of_dvd _ hm, Nat.add_mod,
          Nat.mod_eq_zero_of_dvd (hsize _ ih).2, Nat.add_zero, Nat.mod_mod, ih]
  rintro ⟨k, -, hk | hk⟩
  · exact hstop (hk ▸ hsame k)
  · exact (hsize _ (hsame k)).1 hk

end

/-- A call with an event of the program returns if there is nothing to read, or its
loop ends. -/
theorem isSome_perfEventConsumeRingBuffer {event : PerfEventFd} (handler : List UInt8 → σ → σ)
    (context : σ) (tempBuf : Mem) (hpage : 0 < event.pagesize.toInt64)
    (hsize : (event.mmapSize - event.pagesize).toNat = dataAreaSize) (fuel : Nat) :
    (perfEventConsumeRingBuffer event handler context tempBuf fuel).isSome ↔
      event.mmapPage.dataTail = event.mmapPage.dataHead ∨
        (consumeLoop (perfGetMmapBuf event.mmapPage event.pagesize) dataAreaSize handler
          (event.mmapPage.dataHead.toNat % dataAreaSize) fuel
          ⟨event.mmapPage.dataTail.toNat % dataAreaSize, tempBuf, context, 0⟩).isSome := by
  have hpage' : ¬event.pagesize.toInt64 ≤ 0 := Int64.not_le.mpr hpage
  simp only [perfEventConsumeRingBuffer, if_neg hpage', hsize]
  by_cases hempty : event.mmapPage.dataTail = event.mmapPage.dataHead
  · simp [hempty]
  · simp [hempty]

/-- **When the call returns.**  If and only if the sizes in the data area lead from
`data_tail` to `data_head`, or to a size of zero. -/
theorem consume_ring_buffer_ends_iff {event : PerfEventFd} (handler : List UInt8 → σ → σ)
    (context : σ) (tempBuf : Mem) (hpage : 0 < event.pagesize.toInt64)
    (hsize : (event.mmapSize - event.pagesize).toNat = dataAreaSize) :
    (∃ fuel, (perfEventConsumeRingBuffer event handler context tempBuf fuel).isSome) ↔
      Halts (perfGetMmapBuf event.mmapPage event.pagesize) dataAreaSize
        (event.mmapPage.dataTail.toNat % dataAreaSize)
        (event.mmapPage.dataHead.toNat % dataAreaSize) := by
  have hpos : 0 < dataAreaSize := by decide
  simp only [isSome_perfEventConsumeRingBuffer handler context tempBuf hpage hsize]
  by_cases hempty : event.mmapPage.dataTail = event.mmapPage.dataHead
  · simp only [hempty, true_or, exists_const, true_iff]
    exact ⟨0, hpos, .inl rfl⟩
  · simp only [hempty, false_or]
    refine consumeLoop_ends_iff handler ?_ (by decide) _
    exact Nat.mod_lt _ hpos

theorem consume_ring_buffer_ends_wrapping :
    ∃ fuel, (perfEventConsumeRingBuffer wrappingEvent (fun r seen => seen ++ [r]) []
      (fun _ => 0) fuel).isSome :=
  (consume_ring_buffer_ends_iff _ _ _ (by decide) (by decide)).mpr
    ⟨2, by decide, .inl (by decide)⟩

/-- A data area that is full of records of 16 bytes, and a `data_head` in the
middle of the first one. -/
def tiledEvent : PerfEventFd where
  mmapPage :=
    { dataTail := 0
      dataHead := 8
      mem := fun i => if i % 16 = 6 then 16 else 0 }
  mmapSize := 1052672
  pagesize := 4096

theorem ringSize_tiledEvent {p : Nat} (hp : p % 16 = 0) :
    ringSize (perfGetMmapBuf tiledEvent.mmapPage tiledEvent.pagesize) dataAreaSize p = 16 := by
  have hbyte : ∀ i, perfGetMmapBuf tiledEvent.mmapPage tiledEvent.pagesize ((p + i) % dataAreaSize) =
      if i % 16 = 6 then 16 else 0 := by
    intro i
    have hpage : tiledEvent.pagesize.toNat = 4096 := rfl
    have hoffset : (4096 + (p + i) % dataAreaSize) % 16 = i % 16 := by
      rw [dataAreaSize]
      omega
    rw [perfGetMmapBuf, Mem.at, hpage]
    simp only [tiledEvent, hoffset]
  have hlow := hbyte 6
  have hhigh := hbyte 7
  rw [Nat.add_comm p 7, Nat.add_comm 7] at hhigh
  simp [ringSize, cyclic_cons, leNat, hlow, hhigh, Nat.add_assoc]

/-- The loop goes from record to record for ever. -/
theorem consume_ring_buffer_tiled_never_ends :
    (0 < tiledEvent.pagesize.toInt64 ∧
      (tiledEvent.mmapSize - tiledEvent.pagesize).toNat = dataAreaSize) ∧
    ∀ (handler : List UInt8 → Nat → Nat) context tempBuf,
      ¬∃ fuel, (perfEventConsumeRingBuffer tiledEvent handler context tempBuf fuel).isSome := by
  have hpage : 0 < tiledEvent.pagesize.toInt64 := by decide
  have hsize : (tiledEvent.mmapSize - tiledEvent.pagesize).toNat = dataAreaSize := by decide
  refine ⟨⟨hpage, hsize⟩, fun handler context tempBuf => ?_⟩
  have hpast : ¬Halts (perfGetMmapBuf tiledEvent.mmapPage tiledEvent.pagesize) dataAreaSize 0 8 :=
    not_halts_of_dvd (show 16 ∣ dataAreaSize by decide)
      (fun q hq => by simp [ringSize_tiledEvent hq]) (by decide)
  have hsome : ∀ fuel, _ := isSome_perfEventConsumeRingBuffer handler context tempBuf hpage hsize
  rintro ⟨fuel, hfuel⟩
  rcases (hsome fuel).mp hfuel with hempty | hloop
  · exact absurd hempty (by decide)
  · exact hpast ((consumeLoop_ends_iff handler (Nat.mod_lt _ (by decide)) (by decide) _).mp
      ⟨fuel, hloop⟩)

end Profiling
