import Profiling.Memory

/-!
# Profiling.Perf.Ring

`perf_event_consume_ring_buffer` of `src/perf/perf.c`: reading the records
that the kernel left between `data_tail` and `data_head` of the mapped ring.

Pointers into the data area are offsets from `base`.  The `while` loop takes
fuel and is `none` when the fuel runs out; `consumeStep` is its body, with the
three cases of the source.  When the header straddles the end of the data
area `hdr` points into `temp_buf`, which the body's own `memcpy` overwrites,
so every later `hdr->size` is read again from where `hdr` points.
-/

namespace Profiling

/-- `struct perf_event_mmap_page` and the data pages mapped behind it. -/
structure PerfEventMmapPage where
  dataTail : UInt64
  dataHead : UInt64
  mem : Mem

/-- What `perf_event_consume_ring_buffer` uses of `struct perf_event_fd`. -/
structure PerfEventFd where
  mmapPage : PerfEventMmapPage
  mmapSize : UInt64
  pagesize : UInt64

/-- `perf_get_mmap_buf` -/
def perfGetMmapBuf (page : PerfEventMmapPage) (pagesize : UInt64) : Mem :=
  page.mem.at pagesize.toNat

/-- `sizeof(struct perf_event_header)`: `u32 type; u16 misc; u16 size` -/
def sizeofHeader : Nat := 8

/-- `hdr->size` -/
def headerSize (hdr : Mem) : Nat := load hdr 6 2

/-- `sizeof(temp_buf)` -/
def sizeofTempBuf : Nat := 4096

/-- The local variables of the loop; `context` is what the handler has made
of the caller's context so far. -/
structure ConsumeState (σ : Type) where
  cur : Nat
  tempBuf : Mem
  context : σ
  processedCount : Nat

/-- `temp_buf` after the first part of an iteration: when the header straddles
the end of the data area its two pieces are copied together. -/
def fetchHeader (base : Mem) (bufSize cur : Nat) (tempBuf : Mem) : Mem :=
  if cur + sizeofHeader > bufSize then
    let firstPart := bufSize - cur
    memcpy (memcpy tempBuf 0 base cur firstPart) firstPart base 0 (sizeofHeader - firstPart)
  else tempBuf

/-- What `hdr` points to: `temp_buf` when the header straddles the end, else
the ring at `cur`. -/
def hdr (base : Mem) (bufSize cur : Nat) (tempBuf : Mem) : Mem :=
  if cur + sizeofHeader > bufSize then tempBuf else base.at cur

/-- One iteration; `none` is the `break` on a size of zero.  The handler is
given the `hdr->size` bytes its argument points to. -/
def consumeStep (base : Mem) (bufSize : Nat) (handler : List UInt8 → σ → σ)
    (st : ConsumeState σ) : Option (ConsumeState σ) :=
  let hdr := hdr base bufSize st.cur
  let tempBuf := fetchHeader base bufSize st.cur st.tempBuf
  if headerSize (hdr tempBuf) = 0 then none
  else if st.cur + headerSize (hdr tempBuf) > bufSize then
    let firstPart := bufSize - st.cur
    if headerSize (hdr tempBuf) ≤ sizeofTempBuf then
      -- `hdr` may point into the buffer that is being filled
      let tempBuf₁ := memcpy tempBuf 0 base st.cur firstPart
      let tempBuf₂ := memcpy tempBuf₁ firstPart base 0 (headerSize (hdr tempBuf₁) - firstPart)
      some
        { cur := headerSize (hdr tempBuf₂) - firstPart
          tempBuf := tempBuf₂
          context := handler (slice tempBuf₂ 0 (headerSize tempBuf₂)) st.context
          processedCount := st.processedCount + 1 }
    else
      some { st with cur := headerSize (hdr tempBuf) - firstPart, tempBuf := tempBuf }
  else
    let next := st.cur + headerSize (hdr tempBuf)
    some
      { cur := if next = bufSize then 0 else next
        tempBuf := tempBuf
        context := handler (slice (hdr tempBuf) 0 (headerSize (hdr tempBuf))) st.context
        processedCount := st.processedCount + 1 }

/-- `while (cur != end)` -/
def consumeLoop (base : Mem) (bufSize : Nat) (handler : List UInt8 → σ → σ) (stop : Nat) :
    Nat → ConsumeState σ → Option (ConsumeState σ)
  | 0, _ => none
  | fuel + 1, st =>
      if st.cur = stop then some st
      else
        match consumeStep base bufSize handler st with
        | none => some st
        | some st' => consumeLoop base bufSize handler stop fuel st'

/-- What a call leaves behind: the mapped page, the context, and the returned
number of events. -/
structure Consumed (σ : Type) where
  mmapPage : PerfEventMmapPage
  context : σ
  processedCount : Nat

/-- `perf_event_consume_ring_buffer`; `tempBuf` is the uninitialised local. -/
def perfEventConsumeRingBuffer (event : PerfEventFd) (handler : List UInt8 → σ → σ) (context : σ)
    (tempBuf : Mem) (fuel : Nat) : Option (Consumed σ) :=
  if event.pagesize.toInt64 ≤ 0 then some ⟨event.mmapPage, context, 0⟩
  else
    let base := perfGetMmapBuf event.mmapPage event.pagesize
    let bufSize := (event.mmapSize - event.pagesize).toNat
    let tail := event.mmapPage.dataTail
    let head := event.mmapPage.dataHead
    if tail = head then some ⟨event.mmapPage, context, 0⟩
    else
      let begin : ConsumeState σ := ⟨tail.toNat % bufSize, tempBuf, context, 0⟩
      (consumeLoop base bufSize handler (head.toNat % bufSize) fuel begin).map fun st =>
        ⟨{ event.mmapPage with dataTail := head }, st.context, st.processedCount⟩

/-! ## Records in the ring -/

/-- A record as the kernel writes it: a header whose `size` field is the
record's length. -/
structure IsRecord (r : List UInt8) : Prop where
  sizeofHeader_le : sizeofHeader ≤ r.length
  size_eq : leNat ((r.drop 6).take 2) = r.length

/-- A record at offset `p` that the loop can only step over: it crosses the
end of the data area and is longer than `temp_buf`. -/
def Oversized (N p : Nat) (r : List UInt8) : Prop := N < p + r.length ∧ sizeofTempBuf < r.length

instance (N p : Nat) (r : List UInt8) : Decidable (Oversized N p r) :=
  inferInstanceAs (Decidable (_ ∧ _))

/-- The records that reach the handler, of those that start at offset `p`. -/
def deliverable (N : Nat) : Nat → List (List UInt8) → List (List UInt8)
  | _, [] => []
  | p, r :: rs =>
      let rest := deliverable N ((p + r.length) % N) rs
      if Oversized N p r then rest else r :: rest

/-- Whatever shows a record's first eight bytes shows its size. -/
theorem IsRecord.headerSize_eq {r : List UInt8} (h : IsRecord r) {hdr : Mem}
    (hb : slice hdr 0 sizeofHeader = r.take sizeofHeader) : headerSize hdr = r.length := by
  rw [headerSize, load_eq_of_slice hb (by decide), List.drop_take, List.take_take, ← h.size_eq]
  rfl

/-- Whatever shows a record shows its header. -/
theorem IsRecord.slice_header {r : List UInt8} (h : IsRecord r) {m : Mem}
    (hb : slice m 0 r.length = r) : slice m 0 sizeofHeader = r.take sizeofHeader := by
  obtain ⟨k, hk⟩ : ∃ k, r.length = sizeofHeader + k :=
    ⟨r.length - sizeofHeader, by have := h.sizeofHeader_le; omega⟩
  rw [hk, slice_add] at hb
  rw [← hb, List.take_left' (length_slice _ _ _)]

/-- Whatever shows a record shows its size. -/
theorem IsRecord.headerSize_eq_of_slice {r : List UInt8} (h : IsRecord r) {m : Mem}
    (hb : slice m 0 r.length = r) : headerSize m = r.length :=
  h.headerSize_eq (h.slice_header hb)

/-- A window that shows a record shows its header. -/
theorem IsRecord.cyclic_header {r : List UInt8} (h : IsRecord r) {ring : Mem} {N p : Nat}
    (hr : cyclic ring N p r.length = r) :
    cyclic ring N p sizeofHeader = r.take sizeofHeader := by
  obtain ⟨k, hk⟩ : ∃ k, r.length = sizeofHeader + k :=
    ⟨r.length - sizeofHeader, by have := h.sizeofHeader_le; omega⟩
  rw [hk, cyclic_add] at hr
  rw [← hr, List.take_left' (length_cyclic _ _ _ _)]

/-! ## One iteration -/

section

variable {base : Mem} {N : Nat} (handler : List UInt8 → σ → σ)

/-- A header that straddles the end is put together from its two pieces. -/
theorem slice_fetchHeader {cur : Nat} (tempBuf : Mem) (hcur : cur < N) (hN : sizeofHeader ≤ N)
    (hstr : cur + sizeofHeader > N) :
    slice (fetchHeader base N cur tempBuf) 0 sizeofHeader = cyclic base N cur sizeofHeader := by
  rw [fetchHeader, if_pos hstr]
  exact slice_memcpy_wrapped _ _ (by omega) (by omega) hN

/-- `hdr->size` of a record at `cur`, wherever `hdr` points. -/
theorem headerSize_hdr {cur : Nat} {r : List UInt8} {t : Mem} (hrec : IsRecord r)
    (hr : cyclic base N cur r.length = r)
    (ht : cur + sizeofHeader > N → slice t 0 sizeofHeader = cyclic base N cur sizeofHeader) :
    headerSize (hdr base N cur t) = r.length := by
  refine hrec.headerSize_eq ?_
  rw [← hrec.cyclic_header hr, hdr]
  split
  · next hstr => exact ht hstr
  · next hstr => rw [slice_at, Nat.add_zero, cyclic_eq_slice base (by omega)]

/-- Copying the first piece again changes nothing in a fetched header. -/
theorem slice_refetch (base : Mem) {cur : Nat} (tempBuf : Mem) (hcur : cur < N)
    (hN : sizeofHeader ≤ N) (hstr : cur + sizeofHeader > N) :
    slice (memcpy (fetchHeader base N cur tempBuf) 0 base cur (N - cur)) 0 sizeofHeader =
      cyclic base N cur sizeofHeader := by
  rw [memcpy_eq_self, slice_fetchHeader tempBuf hcur hN hstr]
  rw [fetchHeader, if_pos hstr, slice_memcpy_below _ _ (by omega), slice_memcpy_self]

/-- One iteration on a record: `cur` moves past it, around the ring, and the
handler sees exactly the record unless it is oversized. -/
theorem consumeStep_record {st : ConsumeState σ} {r : List UInt8} (hrec : IsRecord r)
    (hcur : st.cur < N) (hlt : r.length < N) (hr : cyclic base N st.cur r.length = r) :
    ∃ t, consumeStep base N handler st = some
      { cur := (st.cur + r.length) % N
        tempBuf := t
        context := if Oversized N st.cur r then st.context else handler r st.context
        processedCount := st.processedCount + if Oversized N st.cur r then 0 else 1 } := by
  have h8 := hrec.sizeofHeader_le
  have hpos : r.length ≠ 0 := by rw [sizeofHeader] at h8; omega
  have hN8 : sizeofHeader ≤ N := by omega
  have hfetch : headerSize (hdr base N st.cur (fetchHeader base N st.cur st.tempBuf)) = r.length :=
    headerSize_hdr hrec hr (slice_fetchHeader _ hcur hN8)
  simp only [consumeStep, hfetch, if_neg hpos]
  by_cases hover : st.cur + r.length > N
  · -- the body crosses the end
    rw [if_pos hover]
    have hnext : r.length - (N - st.cur) = (st.cur + r.length) % N := by
      rw [Nat.mod_eq_sub_mod (by omega), Nat.mod_eq_of_lt (by omega)]
      omega
    by_cases hfit : r.length ≤ sizeofTempBuf
    · have hno : ¬Oversized N st.cur r := fun h => Nat.not_le_of_lt h.2 hfit
      rw [if_pos hfit, if_neg hno, if_neg hno]
      have hre := headerSize_hdr hrec hr (slice_refetch base st.tempBuf hcur hN8)
      rw [hre]
      -- now `temp_buf` holds the whole record
      have hbody := slice_memcpy_wrapped (fetchHeader base N st.cur st.tempBuf) base
        (N := N) (p := st.cur) (n := r.length) (by omega) (by omega) (by omega)
      rw [hr] at hbody
      have hsz := hrec.headerSize_eq_of_slice hbody
      rw [hsz, hbody, headerSize_hdr hrec hr, hnext]
      · exact ⟨_, rfl⟩
      · intro _
        rw [hrec.cyclic_header hr]
        exact hrec.slice_header hbody
    · have hyes : Oversized N st.cur r := ⟨hover, Nat.lt_of_not_le hfit⟩
      rw [if_neg hfit, if_pos hyes, if_pos hyes, hnext]
      exact ⟨_, rfl⟩
  · -- the record lies in one piece
    have hno : ¬Oversized N st.cur r := fun h => hover h.1
    rw [if_neg hover, if_neg hno, if_neg hno]
    have hdirect : ¬(st.cur + sizeofHeader > N) := by omega
    have hbytes : slice (hdr base N st.cur (fetchHeader base N st.cur st.tempBuf)) 0 r.length =
        r := by
      have hflat := cyclic_eq_slice base (N := N) (s := st.cur) (n := r.length) (by omega)
      rw [hdr, if_neg hdirect, slice_at, Nat.add_zero, ← hflat, hr]
    have hnext : (if st.cur + r.length = N then 0 else st.cur + r.length) =
        (st.cur + r.length) % N := by
      split
      · next he => rw [he, Nat.mod_self]
      · rw [Nat.mod_eq_of_lt (by omega)]
    rw [hbytes, hnext]
    exact ⟨_, rfl⟩

/-! ## The loop -/

/-- The loop over a ring that holds `records` from `cur` to `stop`. -/
theorem consumeLoop_records {records : List (List UInt8)} (st : ConsumeState σ) {len fuel : Nat}
    (hrec : ∀ r ∈ records, IsRecord r) (hcur : st.cur < N) (hlen : len < N)
    (hflat : records.flatten = cyclic base N st.cur len) (hfuel : records.length < fuel) :
    ∃ t, consumeLoop base N handler ((st.cur + len) % N) fuel st = some
      { cur := (st.cur + len) % N
        tempBuf := t
        context := (deliverable N st.cur records).foldl (fun c r => handler r c) st.context
        processedCount := st.processedCount + (deliverable N st.cur records).length } := by
  induction records generalizing st len fuel with
  | nil =>
      obtain rfl : len = 0 := by
        have := congrArg List.length hflat
        simpa using this.symm
      obtain ⟨fuel, rfl⟩ : ∃ f, fuel = f + 1 := ⟨fuel - 1, by simp at hfuel; omega⟩
      have hstop : st.cur = (st.cur + 0) % N := (Nat.mod_eq_of_lt hcur).symm
      rw [consumeLoop, if_pos hstop, ← hstop]
      exact ⟨st.tempBuf, rfl⟩
  | cons r rs ih =>
      have hr : IsRecord r := hrec r List.mem_cons_self
      have h8 := hr.sizeofHeader_le
      rw [sizeofHeader] at h8
      -- the first record is the first part of the window
      obtain ⟨rest, hsum⟩ : ∃ rest, len = r.length + rest := by
        have := congrArg List.length hflat
        simp only [List.flatten_cons, List.length_append, length_cyclic] at this
        exact ⟨_, this.symm⟩
      subst hsum
      rw [List.flatten_cons, cyclic_add] at hflat
      obtain ⟨hfst, hsnd⟩ := List.append_inj hflat (length_cyclic _ _ _ _).symm
      obtain ⟨fuel, rfl⟩ : ∃ f, fuel = f + 1 := ⟨fuel - 1, by omega⟩
      rw [List.length_cons] at hfuel
      -- fewer than `N` bytes are left, so `cur` has not met `end`
      have hne : st.cur ≠ (st.cur + (r.length + rest)) % N := by
        rcases Nat.lt_or_ge (st.cur + (r.length + rest)) N with h | h
        · rw [Nat.mod_eq_of_lt h]; omega
        · rw [Nat.mod_eq_sub_mod h, Nat.mod_eq_of_lt (by omega)]; omega
      obtain ⟨t, hstep⟩ := consumeStep_record handler hr hcur (by omega) hfst.symm
      have hcur' : (st.cur + r.length) % N < N := Nat.mod_lt _ (by omega)
      rw [consumeLoop, if_neg hne, hstep]
      dsimp only
      have hstop : (st.cur + (r.length + rest)) % N = ((st.cur + r.length) % N + rest) % N := by
        rw [Nat.mod_add_mod, Nat.add_assoc]
      rw [hstop]
      rw [← cyclic_mod] at hsnd
      obtain ⟨t', hrest⟩ := ih
        ⟨(st.cur + r.length) % N, t,
          if Oversized N st.cur r then st.context else handler r st.context,
          st.processedCount + if Oversized N st.cur r then 0 else 1⟩
        (fun x hx => hrec x (List.mem_cons_of_mem _ hx)) hcur' (by omega) hsnd
        (Nat.lt_of_succ_lt_succ hfuel)
      refine ⟨t', hrest.trans ?_⟩
      rw [deliverable]
      by_cases hover : Oversized N st.cur r
      · simp only [if_pos hover, Nat.add_zero]
      · simp only [if_neg hover, List.foldl_cons, List.length_cons, Nat.add_assoc, Nat.add_comm 1]

end

/-! ## The call -/

/-- The size of the data area: `perf_add_sample_event_mmap` maps one page more. -/
def dataAreaSize : Nat := 1 * 1024 * 1024

/-- **A call delivers every record.**  When the ring holds `records` between
`data_tail` and `data_head`, the call terminates, the handler is run once on
each of them, in order and on exactly its bytes, except on the oversized ones;
the result counts the handler's runs and `data_tail` has caught up. -/
theorem consume_ring_buffer_records {event : PerfEventFd} {handler : List UInt8 → σ → σ}
    {context : σ} {tempBuf : Mem} (records : List (List UInt8)) {fuel : Nat}
    (hpage : 0 < event.pagesize.toInt64)
    (hsize : (event.mmapSize - event.pagesize).toNat = dataAreaSize)
    (hpos : 0 < (event.mmapPage.dataHead - event.mmapPage.dataTail).toNat)
    (hlt : (event.mmapPage.dataHead - event.mmapPage.dataTail).toNat < dataAreaSize)
    (hrec : ∀ r ∈ records, IsRecord r)
    (hflat : records.flatten = cyclic (perfGetMmapBuf event.mmapPage event.pagesize) dataAreaSize
      event.mmapPage.dataTail.toNat (event.mmapPage.dataHead - event.mmapPage.dataTail).toNat)
    (hfuel : records.length < fuel) :
    perfEventConsumeRingBuffer event handler context tempBuf fuel = some
      { mmapPage := { event.mmapPage with dataTail := event.mmapPage.dataHead }
        context :=
          (deliverable dataAreaSize (event.mmapPage.dataTail.toNat % dataAreaSize) records).foldl
            (fun c r => handler r c) context
        processedCount :=
          (deliverable dataAreaSize (event.mmapPage.dataTail.toNat % dataAreaSize)
            records).length } := by
  obtain ⟨⟨tail, head, mem⟩, mmapSize, pagesize⟩ := event
  dsimp only at *
  obtain ⟨len, hlen⟩ : ∃ n, n = (head - tail).toNat := ⟨_, rfl⟩
  rw [← hlen] at hpos hlt hflat
  have hne : tail ≠ head := by
    rintro rfl
    simp at hlen
    omega
  -- the counters wrap at a multiple of the data area's size
  have hstop : (tail.toNat % dataAreaSize + len) % dataAreaSize = head.toNat % dataAreaSize := by
    rw [hlen, UInt64.toNat_sub, Nat.mod_add_mod, dataAreaSize]
    have := tail.toNat_lt
    have := head.toNat_lt
    omega
  have hcur : tail.toNat % dataAreaSize < dataAreaSize := Nat.mod_lt _ (by decide)
  rw [← cyclic_mod] at hflat
  obtain ⟨t, hloop⟩ := consumeLoop_records handler
    ⟨tail.toNat % dataAreaSize, tempBuf, context, 0⟩ hrec hcur hlt hflat hfuel
  have hpage' : ¬pagesize.toInt64 ≤ 0 := Int64.not_le.mpr hpage
  dsimp only at hloop
  rw [hstop] at hloop
  rw [perfEventConsumeRingBuffer, if_neg hpage']
  dsimp only
  rw [if_neg hne, hsize, hloop, Option.map_some, Nat.zero_add]

/-- A 16-byte record: header, then eight bytes of `b`. -/
def smallRecord (b : UInt8) : List UInt8 :=
  [9, 0, 0, 0, 0, 0, 16, 0] ++ List.replicate 8 b

/-- Two small records, the first 20 bytes before the counters and the ring
wrap, so that the second one's header straddles the end. -/
def wrappingEvent : PerfEventFd where
  mmapPage :=
    { dataTail := 0 - 20
      dataHead := 12
      mem := fun i => (smallRecord 1 ++ smallRecord 2).getD ((i - 4096 + 20) % dataAreaSize) 0 }
  mmapSize := 1052672
  pagesize := 4096

theorem consume_ring_buffer_records_wraps :
    perfEventConsumeRingBuffer wrappingEvent (fun r seen => seen ++ [r]) [] (fun _ => 0) 3 = some
      { mmapPage := { wrappingEvent.mmapPage with dataTail := 12 }
        context := [smallRecord 1, smallRecord 2]
        processedCount := 2 } :=
  (consume_ring_buffer_records [smallRecord 1, smallRecord 2]
    (by decide) (by decide) (by decide) (by decide)
    (fun r hr => by
      simp only [List.mem_cons, List.not_mem_nil, or_false] at hr
      rcases hr with rfl | rfl <;> exact ⟨by decide, by decide⟩)
    (by decide) (by decide)).trans rfl

end Profiling
