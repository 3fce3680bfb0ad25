import Profiling.Machine
import Profiling.Perf.Ring

/-!
# Profiling.Perf.MainLoop

`main_loop` of `src/core/main_loop.c` over the rings of all CPUs, while the
kernel writes to them.

The kernel writes a record, and then moves `data_head`, at any time at which
there is room for it and one byte more.  A step of the program is what it does
between two such writes: reading the counters of the next ring, or one
iteration of the loop in `perf_event_consume_ring_buffer`, whose last one
stores `data_tail`.

* `RingIdle`, `RingBusy` — what is in a ring before and during a call;
* `main_loop_delivers` — every record that is written gets to the handler once,
  in the order of its ring, but for the oversized ones;
* `main_loop_call_ends` — a call takes one step for each record that was there
  when it began, however many the kernel adds.
-/

namespace Profiling

/-! ## The machine -/

instance (r : List UInt8) : Decidable (IsRecord r) :=
  decidable_of_iff (sizeofHeader ≤ r.length ∧ leNat ((r.drop 6).take 2) = r.length)
    ⟨fun ⟨h₁, h₂⟩ => ⟨h₁, h₂⟩, fun ⟨h₁, h₂⟩ => ⟨h₁, h₂⟩⟩

/-- `event->mmap_size - pagesize` -/
def PerfEventFd.bufSize (event : PerfEventFd) : Nat := (event.mmapSize - event.pagesize).toNat

/-- The bytes between `data_tail` and `data_head`. -/
def PerfEventFd.unread (event : PerfEventFd) : Nat :=
  (event.mmapPage.dataHead - event.mmapPage.dataTail).toNat

/-- The kernel's write of a record, once it has found room for it. -/
def PerfEventFd.write (event : PerfEventFd) (r : List UInt8) : PerfEventFd :=
  let page := event.mmapPage
  let p := event.pagesize.toNat
  let data := cyclicWrite (page.mem.at p) event.bufSize page.dataHead.toNat r
  { event with
    mmapPage :=
      { page with
        mem := fun i => if i < p then page.mem i else data (i - p)
        dataHead := page.dataHead + UInt64.ofNat r.length } }

/-- The rings, the program, and the history: the records that the kernel wrote to each ring,
and those that the handler was run on, with the rings they came from. -/
structure MainLoop (σ : Type) where
  events : Nat → PerfEventFd
  /-- `i` -/
  next : Nat
  /-- in a call: the `data_head` that it has read, and its local variables -/
  call : Option (UInt64 × ConsumeState (σ × List (Nat × List UInt8)))
  /-- `system_info`, and the history of the handler -/
  context : σ × List (Nat × List UInt8)
  /-- `total_events_processed` -/
  totalEventsProcessed : Nat
  written : Nat → List (List UInt8)

/-- The steps of the kernel, then those of the program. -/
inductive MainLoopAction where
  | write (i : Nat) (r : List UInt8)
  /-- the next ring is looked at; `tempBuf` is the uninitialised local -/
  | read (tempBuf : Mem)
  | iterate
  /-- behind the last ring, with the sleep if there was nothing -/
  | nextRound

section

variable {σ : Type} (handler : List UInt8 → σ → σ)

/-- The handler, and the history of its runs on the records of a ring. -/
def recorded (i : Nat) (r : List UInt8) (c : σ × List (Nat × List UInt8)) :
    σ × List (Nat × List UInt8) := (handler r c.1, c.2 ++ [(i, r)])

/-- The end of a call. -/
def MainLoop.leave (s : MainLoop σ) (head : UInt64)
    (st : ConsumeState (σ × List (Nat × List UInt8))) : MainLoop σ :=
  let event := s.events s.next
  { s with
    events := Function.update s.events s.next
      { event with mmapPage := { event.mmapPage with dataTail := head } }
    next := s.next + 1
    call := none
    context := st.context
    totalEventsProcessed := s.totalEventsProcessed + st.processedCount }

def MainLoop.step (numEvents : Nat) (s : MainLoop σ) : MainLoopAction → Option (MainLoop σ)
  | .write i r =>
      let event := s.events i
      if i < numEvents ∧ IsRecord r ∧ event.unread + r.length < event.bufSize then
        some { s with
          events := Function.update s.events i (event.write r)
          written := Function.update s.written i (s.written i ++ [r]) }
      else none
  | .read tempBuf =>
      if s.call = none ∧ s.next < numEvents then
        let event := s.events s.next
        let tail := event.mmapPage.dataTail
        let head := event.mmapPage.dataHead
        if event.pagesize.toInt64 ≤ 0 ∨ tail = head then some { s with next := s.next + 1 }
        else
          some { s with call := some (head, ⟨tail.toNat % event.bufSize, tempBuf, s.context, 0⟩) }
      else none
  | .iterate =>
      match s.call with
      | none => none
      | some (head, st) =>
          let event := s.events s.next
          let base := perfGetMmapBuf event.mmapPage event.pagesize
          if st.cur = head.toNat % event.bufSize then some (s.leave head st)
          else
            match consumeStep base event.bufSize (recorded handler s.next) st with
            | none => some (s.leave head st)
            | some st => some { s with call := some (head, st) }
  | .nextRound =>
      if s.call = none ∧ s.next = numEvents then
        some { s with next := 0, totalEventsProcessed := 0 }
      else none

/-- The rings as `perf_event_init_with_config` leaves them, with both counters at `start`. -/
def mainLoopMachine (numEvents : Nat) (start : Nat → UInt64) (context : σ) :
    Machine (MainLoop σ) MainLoopAction where
  init s :=
    (∀ i < numEvents, 0 < (s.events i).pagesize.toInt64 ∧ (s.events i).bufSize = dataAreaSize ∧
      (s.events i).mmapPage.dataTail = start i ∧ (s.events i).mmapPage.dataHead = start i) ∧
    s.next = 0 ∧ s.call = none ∧ s.context = (context, []) ∧ s.written = fun _ => []
  step := MainLoop.step handler numEvents

end

/-! ## What is in a ring -/

/-- Behind the records that are settled, the ring holds those of `window`. -/
structure RingHolds (start : UInt64) (e : PerfEventFd) (settled window : List (List UInt8)) :
    Prop where
  pagesize : 0 < e.pagesize.toInt64
  size : e.bufSize = dataAreaSize
  records : ∀ r ∈ window, IsRecord r
  position : e.mmapPage.dataTail.toNat % dataAreaSize =
    (start.toNat + settled.flatten.length) % dataAreaSize
  bytes : window.flatten = cyclic (perfGetMmapBuf e.mmapPage e.pagesize) dataAreaSize
    e.mmapPage.dataTail.toNat e.unread
  room : e.unread < dataAreaSize

/-- Between two calls: the handler has had what is settled. -/
def RingIdle (start : UInt64) (e : PerfEventFd) (written handled : List (List UInt8)) : Prop :=
  ∃ settled window, written = settled ++ window ∧
    handled = deliverable dataAreaSize (start.toNat % dataAreaSize) settled ∧
    RingHolds start e settled window

/-- In a call: it has been through the last ones of `consumed`, `todo` was there when it began,
and the rest has come since. -/
def RingBusy (start : UInt64) (e : PerfEventFd) (head : UInt64) (cur : Nat)
    (consumed todo written handled : List (List UInt8)) : Prop :=
  ∃ settled past later, consumed = settled ++ past ∧
    written = settled ++ (past ++ (todo ++ later)) ∧
    handled = deliverable dataAreaSize (start.toNat % dataAreaSize) consumed ∧
    RingHolds start e settled (past ++ (todo ++ later)) ∧
    (head - e.mmapPage.dataTail).toNat = past.flatten.length + todo.flatten.length ∧
    cur = (e.mmapPage.dataTail.toNat + past.flatten.length) % dataAreaSize

/-- What is delivered of more records depends on where the first ones end. -/
theorem deliverable_append {N p : Nat} (hp : p < N) (as bs : List (List UInt8)) :
    deliverable N p (as ++ bs) =
      deliverable N p as ++ deliverable N ((p + as.flatten.length) % N) bs := by
  induction as generalizing p with
  | nil => simp [deliverable, Nat.mod_eq_of_lt hp]
  | cons a as ih =>
      have hnext : (p + a.length) % N < N := Nat.mod_lt _ (by omega)
      have hend : ((p + a.length) % N + as.flatten.length) % N =
          (p + (a :: as).flatten.length) % N := by
        rw [Nat.mod_add_mod, List.flatten_cons, List.length_append, Nat.add_assoc]
      rw [List.cons_append, deliverable, deliverable, ih hnext, hend]
      split
      · rfl
      · rfl

section

variable {start : UInt64} {e : PerfEventFd} {settled window written handled : List (List UInt8)}
  {r : List UInt8} {head : UInt64} {cur : Nat} {consumed todo : List (List UInt8)}

/-- The kernel's record comes behind the others. -/
theorem RingHolds.write (h : RingHolds start e settled window) (hr : IsRecord r)
    (hroom : e.unread + r.length < e.bufSize) :
    RingHolds start (e.write r) settled (window ++ [r]) := by
  rw [h.size] at hroom
  have hunread : (e.write r).unread = e.unread + r.length := by
    simp only [PerfEventFd.unread, PerfEventFd.write, dataAreaSize] at hroom ⊢
    rw [UInt64.toNat_sub, UInt64.toNat_add, UInt64.toNat_ofNat']
    rw [UInt64.toNat_sub] at hroom ⊢
    have := e.mmapPage.dataTail.toNat_lt
    have := e.mmapPage.dataHead.toNat_lt
    omega
  have hhead : e.mmapPage.dataHead.toNat % dataAreaSize =
      (e.mmapPage.dataTail.toNat + e.unread) % dataAreaSize := by
    simp only [PerfEventFd.unread, dataAreaSize]
    rw [UInt64.toNat_sub]
    have := e.mmapPage.dataTail.toNat_lt
    have := e.mmapPage.dataHead.toNat_lt
    omega
  have hdata : perfGetMmapBuf (e.write r).mmapPage (e.write r).pagesize =
      cyclicWrite (perfGetMmapBuf e.mmapPage e.pagesize) dataAreaSize
        (e.mmapPage.dataTail.toNat + e.unread) r := by
    rw [← cyclicWrite_mod _ hhead, ← h.size]
    funext i
    have hnot : ¬e.pagesize.toNat + i < e.pagesize.toNat := by omega
    simp [perfGetMmapBuf, PerfEventFd.write, Mem.at, hnot]
  refine ⟨h.pagesize, h.size, ?_, h.position, ?_, hunread ▸ hroom⟩
  · simpa [or_imp, forall_and] using ⟨h.records, hr⟩
  · rw [hdata, hunread]
    change _ = cyclic _ _ e.mmapPage.dataTail.toNat _
    rw [cyclic_cyclicWrite_append _ _ (by omega), ← h.bytes]
    simp

/-- The counters differ by the bytes of the records between them. -/
theorem RingHolds.unread_eq (h : RingHolds start e settled window) :
    e.unread = window.flatten.length := by
  rw [h.bytes, length_cyclic]

/-- A call begins with what is in the ring. -/
theorem RingIdle.read (h : RingIdle start e written handled) :
    ∃ consumed todo, RingBusy start e e.mmapPage.dataHead
      (e.mmapPage.dataTail.toNat % dataAreaSize) consumed todo written handled := by
  obtain ⟨settled, window, rfl, rfl, h⟩ := h
  refine ⟨settled, window, settled, [], [], ?_, ?_, rfl, ?_, ?_, ?_⟩
  · simp
  · simp
  · simpa using h
  · rw [List.flatten_nil, List.length_nil, Nat.zero_add]
    exact h.unread_eq
  · simp

theorem RingBusy.write (h : RingBusy start e head cur consumed todo written handled)
    (hr : IsRecord r) (hroom : e.unread + r.length < e.bufSize) :
    RingBusy start (e.write r) head cur consumed todo (written ++ [r]) handled := by
  obtain ⟨settled, past, later, rfl, rfl, rfl, h, hhead, hcur⟩ := h
  refine ⟨settled, past, later ++ [r], rfl, by simp, rfl, ?_, hhead, hcur⟩
  simpa using h.write hr hroom

theorem RingIdle.write (h : RingIdle start e written handled) (hr : IsRecord r)
    (hroom : e.unread + r.length < e.bufSize) :
    RingIdle start (e.write r) (written ++ [r]) handled := by
  obtain ⟨settled, window, rfl, rfl, h⟩ := h
  exact ⟨settled, window ++ [r], by simp, rfl, h.write hr hroom⟩

/-- Where the call has come to is where it stops exactly if nothing is left to do. -/
theorem RingBusy.stop_iff (h : RingBusy start e head cur consumed todo written handled) :
    cur = head.toNat % dataAreaSize ↔ todo = [] := by
  obtain ⟨settled, past, later, rfl, rfl, rfl, h, hhead, rfl⟩ := h
  have hunread := h.unread_eq
  have hroom := h.room
  simp only [List.flatten_append, List.length_append] at hunread
  rw [hunread] at hroom
  have hmod : head.toNat % dataAreaSize = (e.mmapPage.dataTail.toNat +
      (past.flatten.length + todo.flatten.length)) % dataAreaSize := by
    rw [← hhead, UInt64.toNat_sub]
    have := e.mmapPage.dataTail.toNat_lt
    have := head.toNat_lt
    simp only [dataAreaSize]
    omega
  rw [hmod]
  constructor
  · intro heq
    -- less than one revolution lies between
    have hzero : todo.flatten.length = 0 := by
      simp only [dataAreaSize] at heq hroom
      omega
    cases todo with
    | nil => rfl
    | cons r todo =>
        have hr := (h.records r (by simp)).sizeofHeader_le
        rw [List.flatten_cons, List.length_append, sizeofHeader] at *
        omega
  · rintro rfl
    rfl

theorem RingBusy.size (h : RingBusy start e head cur consumed todo written handled) :
    e.bufSize = dataAreaSize := by
  obtain ⟨settled, past, later, -, -, -, hholds, -⟩ := h
  exact hholds.size

/-- The last step of a call makes way for the kernel. -/
theorem RingBusy.leave (h : RingBusy start e head cur consumed [] written handled) :
    RingIdle start { e with mmapPage := { e.mmapPage with dataTail := head } } written handled := by
  obtain ⟨settled, past, later, rfl, rfl, rfl, h, hhead, -⟩ := h
  simp only [List.nil_append, List.flatten_nil, List.length_nil, Nat.add_zero] at h hhead ⊢
  have hunread := h.unread_eq
  have hroom := h.room
  rw [List.flatten_append, List.length_append] at hunread
  have htail := e.mmapPage.dataTail.toNat_lt
  have hhead' := head.toNat_lt
  have hmod : head.toNat % dataAreaSize =
      (e.mmapPage.dataTail.toNat + past.flatten.length) % dataAreaSize := by
    rw [← hhead, UInt64.toNat_sub]
    simp only [dataAreaSize]
    omega
  have hrest : (e.mmapPage.dataHead - head).toNat = later.flatten.length := by
    simp only [PerfEventFd.unread, UInt64.toNat_sub, dataAreaSize] at hunread hhead hroom ⊢
    have := e.mmapPage.dataHead.toNat_lt
    omega
  refine ⟨settled ++ past, later, by simp, rfl, h.pagesize, h.size,
    fun r hr => h.records r (List.mem_append_right _ hr), ?_, ?_, ?_⟩
  · change head.toNat % _ = _
    rw [hmod, Nat.add_mod, h.position, ← Nat.add_mod]
    simp [Nat.add_assoc]
  · change _ = cyclic (perfGetMmapBuf e.mmapPage e.pagesize) _ head.toNat
      (e.mmapPage.dataHead - head).toNat
    have hbytes := h.bytes
    rw [List.flatten_append, hunread, cyclic_add] at hbytes
    have hlater := List.append_inj_right hbytes (length_cyclic _ _ _ _).symm
    rw [hrest, ← cyclic_mod, hmod, cyclic_mod]
    exact hlater
  · change (e.mmapPage.dataHead - head).toNat < _
    omega

/-- One iteration goes past one record. -/
theorem RingBusy.iterate {σ : Type} (handler : List UInt8 → σ → σ) {i : Nat}
    {st : ConsumeState (σ × List (Nat × List UInt8))}
    (h : RingBusy start e head st.cur consumed (r :: todo) written handled) :
    ∃ st', consumeStep (perfGetMmapBuf e.mmapPage e.pagesize) e.bufSize (recorded handler i) st =
        some st' ∧
      ((st'.context = st.context ∧
          RingBusy start e head st'.cur (consumed ++ [r]) todo written handled) ∨
        (st'.context = recorded handler i r st.context ∧
          RingBusy start e head st'.cur (consumed ++ [r]) todo written (handled ++ [r]))) := by
  obtain ⟨settled, past, later, rfl, rfl, rfl, h, hhead, hcur⟩ := h
  have hr : IsRecord r := h.records r (by simp)
  have hroom := h.room
  have hbytes := h.bytes
  rw [h.unread_eq] at hroom hbytes
  have hN : st.cur < dataAreaSize := hcur ▸ Nat.mod_lt _ (by decide)
  -- the record is a part of what the ring shows
  have hshown : cyclic (perfGetMmapBuf e.mmapPage e.pagesize) dataAreaSize st.cur r.length = r := by
    simp only [List.flatten_append, List.flatten_cons, List.length_append] at hbytes
    rw [List.append_assoc, Nat.add_assoc, cyclic_add, cyclic_add] at hbytes
    have hrest := List.append_inj_right hbytes (length_cyclic _ _ _ _).symm
    rw [hcur, cyclic_mod]
    exact (List.append_inj_left hrest (length_cyclic _ _ _ _).symm).symm
  have hlt : r.length < dataAreaSize := by
    simp only [List.flatten_append, List.flatten_cons, List.length_append] at hroom
    omega
  obtain ⟨t, hstep⟩ := consumeStep_record (recorded handler i) hr hN hlt hshown
  rw [h.size]
  refine ⟨_, hstep, ?_⟩
  have hcur' : (st.cur + r.length) % dataAreaSize =
      (e.mmapPage.dataTail.toNat + (past ++ [r]).flatten.length) % dataAreaSize := by
    rw [hcur, Nat.mod_add_mod]
    simp [Nat.add_assoc]
  have hhead' : (head - e.mmapPage.dataTail).toNat =
      (past ++ [r]).flatten.length + todo.flatten.length := by
    rw [hhead, List.flatten_cons, List.length_append, List.flatten_append, List.length_append,
      List.flatten_singleton, Nat.add_assoc]
  have hsplit : past ++ (r :: todo ++ later) = past ++ [r] ++ (todo ++ later) := by simp
  -- the position of the record, from where the counters started
  have hdeliver : deliverable dataAreaSize (start.toNat % dataAreaSize)
      (settled ++ past ++ [r]) = deliverable dataAreaSize (start.toNat % dataAreaSize)
        (settled ++ past) ++ if Oversized dataAreaSize st.cur r then [] else [r] := by
    have hpos : (start.toNat % dataAreaSize + (settled ++ past).flatten.length) % dataAreaSize =
        st.cur := by
      rw [hcur, Nat.mod_add_mod, Nat.add_mod e.mmapPage.dataTail.toNat, h.position, ← Nat.add_mod]
      simp [Nat.add_assoc]
    rw [deliverable_append (Nat.mod_lt _ (by decide)), hpos, deliverable,
      deliverable]
  by_cases hover : Oversized dataAreaSize st.cur r
  · rw [if_pos hover] at hdeliver
    refine .inl ⟨if_pos hover, settled, past ++ [r], later, List.append_assoc .., by rw [hsplit],
      ?_, hsplit ▸ h, hhead', hcur'⟩
    rw [hdeliver, List.append_nil]
  · rw [if_neg hover] at hdeliver
    exact .inr ⟨if_neg hover, settled, past ++ [r], later, List.append_assoc .., by rw [hsplit],
      hdeliver.symm, hsplit ▸ h, hhead', hcur'⟩

end

/-! ## The invariant -/

namespace MainLoop

variable {σ : Type} {handler : List UInt8 → σ → σ} {numEvents : Nat} {start : Nat → UInt64}
  {context : σ} {s t : MainLoop σ}

/-- The context as it is now, with the history of the handler. -/
def current (s : MainLoop σ) : σ × List (Nat × List UInt8) :=
  match s.call with
  | none => s.context
  | some (_, st) => st.context

/-- The records of a ring that the handler was run on. -/
def handled (s : MainLoop σ) (i : Nat) : List (List UInt8) :=
  (s.current.2.filter fun x => x.1 = i).map Prod.snd

/-- Each ring but that of a call is idle, and the context is that of the history. -/
structure Inv (handler : List UInt8 → σ → σ) (numEvents : Nat) (start : Nat → UInt64) (context : σ)
    (s : MainLoop σ) : Prop where
  idle : ∀ i < numEvents, (s.call.isSome → i ≠ s.next) →
    RingIdle (start i) (s.events i) (s.written i) (s.handled i)
  busy : ∀ head st, s.call = some (head, st) → s.next < numEvents ∧ ∃ consumed todo,
    RingBusy (start s.next) (s.events s.next) head st.cur consumed todo (s.written s.next)
      (s.handled s.next)
  context : s.current.1 = s.current.2.foldl (fun c x => handler x.2 c) context

theorem inv_init (h : (mainLoopMachine handler numEvents start context).init s) :
    s.Inv handler numEvents start context := by
  obtain ⟨hrings, -, hcall, hcontext, hwritten⟩ := h
  have hcurrent : s.current = (context, []) := by rw [current, hcall, hcontext]
  refine ⟨fun i hi _ => ?_, fun head st h => by simp [hcall] at h, by rw [hcurrent]; rfl⟩
  obtain ⟨hpage, hsize, htail, hhead⟩ := hrings i hi
  have hzero : (s.events i).unread = 0 := by simp [PerfEventFd.unread, htail, hhead]
  refine ⟨[], [], by simp [hwritten], by simp [handled, hcurrent, deliverable], hpage, hsize,
    nofun, by simp [htail], by simp [hzero], by rw [hzero]; decide⟩

theorem inv_write {i : Nat} {r : List UInt8} (hi : s.Inv handler numEvents start context)
    (h : s.step handler numEvents (.write i r) = some t) :
    t.Inv handler numEvents start context := by
  simp only [step, Option.ite_none_right_eq_some, Option.some.injEq] at h
  obtain ⟨⟨hlt, hr, hroom⟩, rfl⟩ := h
  refine ⟨fun j hj hcall => ?_, fun head st hcall => ?_, hi.context⟩
  · have hidle := hi.idle j hj hcall
    by_cases hji : j = i
    · subst hji
      simpa [handled, current] using hidle.write hr hroom
    · simpa [handled, current, hji] using hidle
  · obtain ⟨hnext, consumed, todo, hbusy⟩ := hi.busy head st hcall
    refine ⟨hnext, consumed, todo, ?_⟩
    by_cases hji : s.next = i
    · subst hji
      simpa [handled, current] using hbusy.write hr hroom
    · simpa [handled, current, hji] using hbusy

theorem inv_read {tempBuf : Mem} (hi : s.Inv handler numEvents start context)
    (h : s.step handler numEvents (.read tempBuf) = some t) :
    t.Inv handler numEvents start context := by
  simp only [step, Option.ite_none_right_eq_some] at h
  obtain ⟨⟨hcall, hnext⟩, h⟩ := h
  split at h
  · obtain rfl := Option.some.inj h
    refine ⟨fun i hlt _ => ?_, fun head st h => ?_, ?_⟩
    · simpa [handled, current] using hi.idle i hlt (by simp [hcall])
    · simp [hcall] at h
    · simpa [current] using hi.context
  · obtain rfl := Option.some.inj h
    have hidle := hi.idle s.next hnext (by simp [hcall])
    have hsize : (s.events s.next).bufSize = dataAreaSize := by
      obtain ⟨settled, window, -, -, hholds⟩ := hidle
      exact hholds.size
    have hcurrent : s.current = s.context := by rw [current, hcall]
    refine ⟨fun i hlt _ => ?_, fun head st h => ⟨hnext, ?_⟩, ?_⟩
    · simpa [handled, current, hcall] using hi.idle i hlt (by simp [hcall])
    · obtain ⟨rfl, rfl⟩ := Prod.mk.inj (Option.some.inj h)
      obtain ⟨consumed, todo, hbusy⟩ := hidle.read
      exact ⟨consumed, todo, by simpa [handled, current, hcall, hsize] using hbusy⟩
    · simpa [current, hcall] using hi.context

/-- What is left of a call to do: it began with these records behind where it is. -/
def Busy (start : Nat → UInt64) (s : MainLoop σ) (consumed todo : List (List UInt8)) : Prop :=
  ∃ head st, s.call = some (head, st) ∧
    RingBusy (start s.next) (s.events s.next) head st.cur consumed todo (s.written s.next)
      (s.handled s.next)

theorem Inv.exists_busy (hi : s.Inv handler numEvents start context) (hcall : s.call.isSome) :
    ∃ consumed todo, s.Busy start consumed todo := by
  obtain ⟨⟨head, st⟩, hst⟩ := Option.isSome_iff_exists.mp hcall
  obtain ⟨-, consumed, todo, hbusy⟩ := hi.busy head st hst
  exact ⟨consumed, todo, head, st, hst, hbusy⟩

section Iterate

variable {head : UInt64} {st : ConsumeState (σ × List (Nat × List UInt8))}
  {consumed rest : List (List UInt8)} {r : List UInt8}

theorem current_eq (hcall : s.call = some (head, st)) : s.current = st.context := by
  rw [current, hcall]

/-- The last iteration of a call. -/
theorem inv_leave (hi : s.Inv handler numEvents start context)
    (hcall : s.call = some (head, st))
    (hring : RingBusy (start s.next) (s.events s.next) head st.cur consumed []
      (s.written s.next) (s.handled s.next))
    (h : s.step handler numEvents .iterate = some t) :
    t.Inv handler numEvents start context ∧ t.call = none ∧
      t.handled s.next = s.handled s.next := by
  have hcurrent := current_eq hcall
  simp only [step, hcall, hring.size] at h
  rw [if_pos (hring.stop_iff.mpr rfl)] at h
  obtain rfl := Option.some.inj h
  have hcontext := hi.context
  rw [hcurrent] at hcontext
  refine ⟨⟨fun i hlt _ => ?_, fun _ _ heq => absurd heq.symm (Option.some_ne_none _), hcontext⟩,
    rfl, ?_⟩
  · change RingIdle (start i) (Function.update s.events s.next _ i) (s.written i)
      ((st.context.2.filter fun x => x.1 = i).map Prod.snd)
    rw [← hcurrent]
    by_cases hnow : i = s.next
    · subst hnow
      rw [Function.update_self]
      exact hring.leave
    · rw [Function.update_of_ne hnow]
      exact hi.idle i hlt fun _ => hnow
  · rw [handled, handled, hcurrent]
    rfl

/-- An iteration with a record before it goes past this record. -/
theorem inv_pass (hi : s.Inv handler numEvents start context)
    (hcall : s.call = some (head, st))
    (hring : RingBusy (start s.next) (s.events s.next) head st.cur consumed (r :: rest)
      (s.written s.next) (s.handled s.next))
    (h : s.step handler numEvents .iterate = some t) :
    t.Inv handler numEvents start context ∧ t.next = s.next ∧
      t.Busy start (consumed ++ [r]) rest := by
  have hnext := (hi.busy head st hcall).1
  have hcurrent := current_eq hcall
  simp only [step, hcall, hring.size] at h
  have hne : st.cur ≠ head.toNat % dataAreaSize := fun heq => by
    simpa using hring.stop_iff.mp heq
  obtain ⟨st', hstep, hcases⟩ := hring.iterate handler (i := s.next)
  rw [hring.size] at hstep
  rw [if_neg hne, hstep] at h
  obtain rfl := Option.some.inj h
  -- the handler may have been run on this ring's record
  have hhandled : ∀ i, i ≠ s.next → (st'.context.2.filter fun x => x.1 = i).map Prod.snd =
      s.handled i := fun i hne => by
    rw [handled, hcurrent]
    rcases hcases with ⟨hctx, -⟩ | ⟨hctx, -⟩
    · rw [hctx]
    · simp [hctx, recorded, List.filter_append, hne.symm]
  have hring' : RingBusy (start s.next) (s.events s.next) head st'.cur (consumed ++ [r]) rest
      (s.written s.next) ((st'.context.2.filter fun x => x.1 = s.next).map Prod.snd) := by
    rcases hcases with ⟨hctx, hring'⟩ | ⟨hctx, hring'⟩
    · rw [hctx, ← hcurrent]
      exact hring'
    · rw [hctx]
      simpa [recorded, List.filter_append, handled, hcurrent] using hring'
  refine ⟨⟨fun i hlt hcalls => ?_, fun head' st'' heq => ⟨hnext, ?_⟩, ?_⟩, rfl, head, st', rfl,
    hring'⟩
  · have hother : i ≠ s.next := hcalls rfl
    change RingIdle (start i) (s.events i) (s.written i)
      ((st'.context.2.filter fun x => x.1 = i).map Prod.snd)
    rw [hhandled i hother]
    exact hi.idle i hlt fun _ => hother
  · obtain ⟨rfl, rfl⟩ := Prod.mk.inj (Option.some.inj heq)
    exact ⟨_, rest, hring'⟩
  · change st'.context.1 = st'.context.2.foldl _ context
    have hcontext := hi.context
    rw [hcurrent] at hcontext
    rcases hcases with ⟨hctx, -⟩ | ⟨hctx, -⟩
    · rw [hctx, hcontext]
    · simp [hctx, recorded, hcontext]

end Iterate

/-- An iteration is the last one, or goes past the next record. -/
theorem inv_iterate {consumed todo : List (List UInt8)}
    (hi : s.Inv handler numEvents start context) (hbusy : s.Busy start consumed todo)
    (h : s.step handler numEvents .iterate = some t) :
    t.Inv handler numEvents start context ∧
      ((todo = [] ∧ t.call = none ∧ t.handled s.next = s.handled s.next) ∨
        ∃ r rest, todo = r :: rest ∧ t.next = s.next ∧ t.Busy start (consumed ++ [r]) rest) := by
  obtain ⟨head, st, hcall, hring⟩ := hbusy
  cases todo with
  | nil =>
      obtain ⟨ht, hnone, hhandled⟩ := inv_leave hi hcall hring h
      exact ⟨ht, .inl ⟨rfl, hnone, hhandled⟩⟩
  | cons r rest =>
      obtain ⟨ht, hnext, hbusy⟩ := inv_pass hi hcall hring h
      exact ⟨ht, .inr ⟨r, rest, rfl, hnext, hbusy⟩⟩

theorem inv_step {a : MainLoopAction} (hi : s.Inv handler numEvents start context)
    (h : s.step handler numEvents a = some t) : t.Inv handler numEvents start context := by
  cases a with
  | write i r => exact inv_write hi h
  | read tempBuf => exact inv_read hi h
  | iterate =>
      have hcall : s.call.isSome := by
        cases hcall : s.call with
        | none => simp [step, hcall] at h
        | some c => rfl
      obtain ⟨consumed, todo, hbusy⟩ := hi.exists_busy hcall
      exact (inv_iterate hi hbusy h).1
  | nextRound =>
      simp only [step, Option.ite_none_right_eq_some, Option.some.injEq] at h
      obtain ⟨⟨hcall, -⟩, rfl⟩ := h
      refine ⟨fun i hlt _ => ?_, fun head st h => by simp [hcall] at h, ?_⟩
      · simpa [handled, current] using hi.idle i hlt (by simp [hcall])
      · simpa [current] using hi.context

theorem inv_of_reachable (h : (mainLoopMachine handler numEvents start context).Reachable s) :
    s.Inv handler numEvents start context :=
  (mainLoopMachine handler numEvents start context).invariant (fun _ => inv_init)
    (fun _ _ _ hi hstep => inv_step hi hstep) h

/-- The handler is run on at most one record in an iteration. -/
theorem consumeStep_context {base : Mem} {bufSize : Nat} {handler : List UInt8 → τ → τ}
    {st st' : ConsumeState τ} (h : consumeStep base bufSize handler st = some st') :
    st'.context = st.context ∨ ∃ r, st'.context = handler r st.context := by
  simp only [consumeStep] at h
  split at h
  · cases h
  split at h
  · split at h <;> obtain rfl := Option.some.inj h
    · exact .inr ⟨_, rfl⟩
    · exact .inl rfl
  · obtain rfl := Option.some.inj h
    exact .inr ⟨_, rfl⟩

/-- Nor does another step run it. -/
theorem current_step {a : MainLoopAction} (h : s.step handler numEvents a = some t) :
    ∃ new : List (Nat × List UInt8), t.current.2 = s.current.2 ++ new ∧ new.length ≤ 1 ∧
      (a ≠ .iterate → new = []) := by
  cases a with
  | write i r =>
      simp only [step, Option.ite_none_right_eq_some, Option.some.injEq] at h
      obtain ⟨-, rfl⟩ := h
      exact ⟨[], by simp [current], by simp, fun _ => rfl⟩
  | read tempBuf =>
      simp only [step, Option.ite_none_right_eq_some] at h
      obtain ⟨⟨hcall, -⟩, h⟩ := h
      split at h <;> obtain rfl := Option.some.inj h <;>
        exact ⟨[], by simp [current, hcall], by simp, fun _ => rfl⟩
  | nextRound =>
      simp only [step, Option.ite_none_right_eq_some, Option.some.injEq] at h
      obtain ⟨-, rfl⟩ := h
      exact ⟨[], by simp [current], by simp, fun _ => rfl⟩
  | iterate =>
      cases hcall : s.call with
      | none => simp [step, hcall] at h
      | some call =>
          obtain ⟨head, st⟩ := call
          simp only [step, hcall] at h
          split at h
          · obtain rfl := Option.some.inj h
            exact ⟨[], by simp [current, leave, hcall], by simp, nofun⟩
          split at h
          · obtain rfl := Option.some.inj h
            exact ⟨[], by simp [current, leave, hcall], by simp, nofun⟩
          · next st' hstep =>
            obtain rfl := Option.some.inj h
            obtain heq | ⟨r, heq⟩ := consumeStep_context hstep
            · exact ⟨[], by simp [current, hcall, heq], by simp, nofun⟩
            · exact ⟨[(s.next, r)], by simp [current, hcall, heq, recorded], by simp, nofun⟩

end MainLoop

/-! ## Delivery -/

section

variable {σ : Type} {handler : List UInt8 → σ → σ} {numEvents : Nat} {start : Nat → UInt64}
  {context : σ} {s : MainLoop σ}

/-- What the handler has had of a ring, and what it has not. -/
theorem MainLoop.Inv.exists_consumed (hi : s.Inv handler numEvents start context) {i : Nat}
    (hlt : i < numEvents) :
    ∃ consumed pending, s.written i = consumed ++ pending ∧
      s.handled i = deliverable dataAreaSize ((start i).toNat % dataAreaSize) consumed ∧
      (s.call = none → (s.events i).mmapPage.dataTail = (s.events i).mmapPage.dataHead →
        pending = []) := by
  by_cases hidle : s.call.isSome → i ≠ s.next
  · obtain ⟨settled, window, hwritten, hhandled, hholds⟩ := hi.idle i hlt hidle
    refine ⟨settled, window, hwritten, hhandled, fun _ heq => ?_⟩
    have hzero : window.flatten.length = 0 := by
      rw [← hholds.unread_eq, PerfEventFd.unread, heq]
      simp
    cases window with
    | nil => rfl
    | cons r window =>
        have hr := (hholds.records r (by simp)).sizeofHeader_le
        rw [List.flatten_cons, List.length_append, sizeofHeader] at *
        omega
  · obtain ⟨hcall, hnow⟩ := Classical.not_imp.mp hidle
    obtain rfl : i = s.next := Classical.not_not.mp hnow
    obtain ⟨_, todo, head, st, hst, settled, past, later, rfl, hwritten, hhandled, -⟩ :=
      hi.exists_busy hcall
    refine ⟨settled ++ past, todo ++ later, by simp [hwritten], hhandled, fun hnone => ?_⟩
    simp [hnone] at hst

/-- **Every record gets to the handler once.**  Whatever the kernel writes in between, the
records that the handler was run on, of each ring, are those that were written first, in
their order and but for the oversized ones; they are all of them when no call is under
way and the counters are equal. -/
theorem main_loop_delivers (h : (mainLoopMachine handler numEvents start context).Reachable s) :
    s.current.1 = s.current.2.foldl (fun c x => handler x.2 c) context ∧
      ∀ i < numEvents, ∃ consumed pending, s.written i = consumed ++ pending ∧
        s.handled i = deliverable dataAreaSize ((start i).toNat % dataAreaSize) consumed ∧
        (s.call = none → (s.events i).mmapPage.dataTail = (s.events i).mmapPage.dataHead →
          pending = []) :=
  have hi := MainLoop.inv_of_reachable h
  ⟨hi.context, fun _ hlt => hi.exists_consumed hlt⟩

/-- One ring, whose counters begin 20 bytes before they and the ring wrap. -/
def startedMainLoop : MainLoop Nat where
  events _ := { wrappingEvent with mmapPage := ⟨0 - 20, 0 - 20, fun _ => 0⟩ }
  next := 0
  call := none
  context := (0, [])
  totalEventsProcessed := 0
  written _ := []

theorem init_startedMainLoop :
    (mainLoopMachine (fun _ n => n + 1) 1 (fun _ => 0 - 20) 0).init startedMainLoop :=
  ⟨fun _ _ => ⟨(by decide : 0 < wrappingEvent.pagesize.toInt64),
    (by decide : wrappingEvent.bufSize = dataAreaSize), rfl, rfl⟩, rfl, rfl, rfl, rfl⟩

/-- The kernel writes a second record while the call is at the first one. -/
theorem main_loop_delivers_second :
    ∃ s, (mainLoopMachine (fun _ n => n + 1) 1 (fun _ => 0 - 20) 0).Reachable s ∧
      s.written 0 = [smallRecord 1, smallRecord 2] ∧ s.handled 0 = [smallRecord 1] ∧
      ∃ consumed pending, s.written 0 = consumed ++ pending ∧
        s.handled 0 = deliverable dataAreaSize ((0 - 20 : UInt64).toNat % dataAreaSize) consumed := by
  have hreach : (mainLoopMachine (fun _ n => n + 1) 1 (fun _ => 0 - 20) 0).Reachable _ :=
    ⟨startedMainLoop, [.write 0 (smallRecord 1), .read (fun _ => 0), .write 0 (smallRecord 2),
      .iterate, .iterate], init_startedMainLoop, rfl⟩
  obtain ⟨consumed, pending, hwritten, hhandled, -⟩ :=
    (main_loop_delivers hreach).2 0 Nat.one_pos
  exact ⟨_, hreach, rfl, rfl, consumed, pending, hwritten, hhandled⟩

def MainLoopAction.isIterate : MainLoopAction → Bool
  | .iterate => true
  | _ => false

/-- The kernel does not give a call more to do. -/
theorem MainLoop.Busy.write {t : MainLoop σ} {consumed todo : List (List UInt8)} {i : Nat}
    {r : List UInt8} (hbusy : s.Busy start consumed todo)
    (h : s.step handler numEvents (.write i r) = some t) :
    t.next = s.next ∧ t.Busy start consumed todo := by
  obtain ⟨head, st, hcall, hring⟩ := hbusy
  simp only [step, Option.ite_none_right_eq_some, Option.some.injEq] at h
  obtain ⟨⟨-, hr, hroom⟩, rfl⟩ := h
  refine ⟨rfl, head, st, hcall, ?_⟩
  by_cases hnow : s.next = i
  · subst hnow
    simpa [MainLoop.handled, MainLoop.current] using hring.write hr hroom
  · simpa [MainLoop.handled, MainLoop.current, hnow] using hring

theorem MainLoop.Busy.handled_eq {consumed todo : List (List UInt8)}
    (h : s.Busy start consumed todo) :
    s.handled s.next = deliverable dataAreaSize ((start s.next).toNat % dataAreaSize) consumed := by
  obtain ⟨head, st, -, settled, past, later, -, -, hhandled, -⟩ := h
  exact hhandled

theorem MainLoop.Busy.ends {t : MainLoop σ} {consumed todo : List (List UInt8)}
    {as : List MainLoopAction} (hi : s.Inv handler numEvents start context)
    (hbusy : s.Busy start consumed todo)
    (hrun : (mainLoopMachine handler numEvents start context).run s as = some t)
    (hcount : todo.length < as.countP MainLoopAction.isIterate) :
    ∃ bs cs u, as = bs ++ cs ∧
      (mainLoopMachine handler numEvents start context).run s bs = some u ∧ u.call = none ∧
      bs.countP MainLoopAction.isIterate = todo.length + 1 ∧
      u.handled s.next =
        deliverable dataAreaSize ((start s.next).toNat % dataAreaSize) (consumed ++ todo) := by
  induction as generalizing s consumed todo with
  | nil => simp at hcount
  | cons a as ih =>
      rw [Machine.run_cons] at hrun
      obtain ⟨s₁, hstep, hrest⟩ := Option.bind_eq_some_iff.mp hrun
      have hi₁ := MainLoop.inv_step hi hstep
      -- the rest of the run, with this step in front of it
      have hcons : ∀ {bs u}, (mainLoopMachine handler numEvents start context).run s₁ bs = some u →
          (mainLoopMachine handler numEvents start context).run s (a :: bs) = some u :=
        fun hbs => by rw [Machine.run_cons, hstep, Option.bind_some, hbs]
      cases a with
      | write i r =>
          have hwrite : s.step handler numEvents (.write i r) = some s₁ := hstep
          obtain ⟨hnext, hbusy₁⟩ := hbusy.write hwrite
          obtain ⟨bs, cs, u, rfl, hbs, hu, hlen, hhandled⟩ := ih hi₁ hbusy₁ hrest hcount
          exact ⟨.write i r :: bs, cs, u, rfl, hcons hbs, hu, hlen, hnext ▸ hhandled⟩
      | iterate =>
          obtain ⟨-, ⟨rfl, hu, hhandled⟩ | ⟨r, rest, rfl, hnext, hbusy₁⟩⟩ :=
            MainLoop.inv_iterate hi hbusy hstep
          · refine ⟨[.iterate], as, s₁, rfl, hcons rfl, hu, rfl, ?_⟩
            rw [hhandled, hbusy.handled_eq, List.append_nil]
          · have hcount₁ : rest.length < as.countP MainLoopAction.isIterate := by
              simpa [List.countP_cons, MainLoopAction.isIterate] using hcount
            obtain ⟨bs, cs, u, rfl, hbs, hu, hlen, hhandled⟩ := ih hi₁ hbusy₁ hrest hcount₁
            refine ⟨.iterate :: bs, cs, u, rfl, hcons hbs, hu, ?_, ?_⟩
            · simp [List.countP_cons, MainLoopAction.isIterate, hlen]
            · simpa [hnext] using hhandled
      | read tempBuf | nextRound =>
          obtain ⟨head, st, hcall, -⟩ := hbusy
          simp [mainLoopMachine, MainLoop.step, hcall] at hstep

/-- The iterations of a call are those of `consumeLoop`. -/
theorem run_iterate {head : UInt64} {fuel : Nat}
    {st st' : ConsumeState (σ × List (Nat × List UInt8))} (hcall : s.call = some (head, st))
    (h : consumeLoop (perfGetMmapBuf (s.events s.next).mmapPage (s.events s.next).pagesize)
      (s.events s.next).bufSize (recorded handler s.next)
      (head.toNat % (s.events s.next).bufSize) fuel st = some st') :
    ∃ k, (mainLoopMachine handler numEvents start context).run s (List.replicate k .iterate) =
      some (s.leave head st') := by
  induction fuel generalizing s st with
  | zero => cases h
  | succ fuel ih =>
      rw [consumeLoop] at h
      split at h
      · next hstop =>
        obtain rfl := Option.some.inj h
        exact ⟨1, by simp [Machine.run_cons, mainLoopMachine, MainLoop.step, hcall, hstop]⟩
      · next hne =>
        split at h
        · next hbreak =>
          obtain rfl := Option.some.inj h
          exact ⟨1, by simp [Machine.run_cons, mainLoopMachine, MainLoop.step, hcall, hne, hbreak]⟩
        · next st₁ hstep =>
          obtain ⟨k, hrun⟩ := ih (s := { s with call := some (head, st₁) }) rfl h
          refine ⟨k + 1, ?_⟩
          rw [List.replicate_succ, Machine.run_cons]
          have hfirst : (mainLoopMachine handler numEvents start context).step s .iterate =
              some { s with call := some (head, st₁) } := by
            simp [mainLoopMachine, MainLoop.step, hcall, hne, hstep]
          rw [hfirst, Option.bind_some]
          exact hrun

/-- **A call without the kernel in between** is `perf_event_consume_ring_buffer`. -/
theorem run_perfEventConsumeRingBuffer {tempBuf : Mem} {fuel : Nat}
    {out : Consumed (σ × List (Nat × List UInt8))} (hcall : s.call = none)
    (hnext : s.next < numEvents)
    (h : perfEventConsumeRingBuffer (s.events s.next) (recorded handler s.next) s.context tempBuf
      fuel = some out) :
    ∃ k, (mainLoopMachine handler numEvents start context).run s
        (.read tempBuf :: List.replicate k .iterate) = some { s with
      events := Function.update s.events s.next { s.events s.next with mmapPage := out.mmapPage }
      next := s.next + 1
      context := out.context
      totalEventsProcessed := s.totalEventsProcessed + out.processedCount } := by
  rw [perfEventConsumeRingBuffer] at h
  split at h
  · next hpage =>
    obtain rfl := Option.some.inj h
    exact ⟨0, by simp [Machine.run_cons, mainLoopMachine, MainLoop.step, hcall, hnext, hpage]⟩
  · next hpage =>
    simp only at h
    split at h
    · next hequal =>
      obtain rfl := Option.some.inj h
      exact ⟨0, by simp [Machine.run_cons, mainLoopMachine, MainLoop.step, hcall, hnext, hequal]⟩
    · next hne =>
      obtain ⟨st', hloop, rfl⟩ := Option.map_eq_some_iff.mp h
      let head := (s.events s.next).mmapPage.dataHead
      let st : ConsumeState (σ × List (Nat × List UInt8)) :=
        ⟨(s.events s.next).mmapPage.dataTail.toNat % (s.events s.next).bufSize, tempBuf,
          s.context, 0⟩
      obtain ⟨k, hrun⟩ : ∃ k, (mainLoopMachine handler numEvents start context).run
          { s with call := some (head, st) } (List.replicate k .iterate) =
            some (MainLoop.leave { s with call := some (head, st) } head st') :=
        run_iterate rfl hloop
      refine ⟨k, ?_⟩
      have hread : (mainLoopMachine handler numEvents start context).step s (.read tempBuf) =
          some { s with call := some (head, st) } := by
        simp [mainLoopMachine, MainLoop.step, hcall, hnext, hpage, hne, head, st]
      rw [Machine.run_cons, hread, Option.bind_some, hrun]
      simp [MainLoop.leave, hcall, head]

end

end Profiling
