import Mathlib
import Profiling.Queue.Fifo

/-!
# Profiling.Queue.Wakeup

The queue's condition variables, made explicit.

A thread inside a queue call is about to take the lock (`entering`), asleep in
`pthread_cond_wait` (`waiting`), or awake again and about to re-test its wait
condition (`notified`).  It leaves `waiting` only when a critical section of
another thread notifies its condition variable: a signal wakes at least one
waiter if there is one (which ones is part of the step's label), a broadcast
all of them.

No wake-up is lost (`no_lost_wakeup`).  The invariant counts: while some
consumer sleeps, the queue holds at most as many items as there are consumers
awake, because every push wakes one more; and while some producer sleeps at an
empty queue, another producer is awake, because the pop that emptied the queue
woke it.
-/

namespace Profiling

open ConcurrentQueue

/-- The two condition variables of a queue. -/
inductive CondVar where
  /-- `cond_full`: producers wait here for room. -/
  | full
  /-- `cond_empty`: consumers wait here for items. -/
  | empty
  deriving DecidableEq, Repr

/-- The condition variable a call waits on, if it ever waits. -/
def QueueCall.waitsOn : QueueCall α → Option CondVar
  | .push _ | .pushBatch _ => some .full
  | .pop | .popBatch _ => some .empty
  | .signalShutdown => none

/-- The calls considered: a batch push of at least one item and at most the
capacity, a batch pop with room for at least one item, and all the others. -/
def QueueCall.Admissible (capacity : Nat) : QueueCall α → Prop
  | .pushBatch xs => 1 ≤ xs.length ∧ xs.length ≤ capacity
  | .popBatch n => 1 ≤ n
  | _ => True

instance (capacity : Nat) (c : QueueCall α) : Decidable (c.Admissible capacity) := by
  cases c <;> unfold QueueCall.Admissible <;> infer_instance

/-- Where a thread is with respect to the queue. -/
inductive ThreadStatus (α : Type) where
  | outside
  | entering (c : QueueCall α)
  | waiting (c : QueueCall α)
  | notified (c : QueueCall α)
  deriving DecidableEq, Repr

namespace ThreadStatus

/-- The call a thread is inside of. -/
def call? : ThreadStatus α → Option (QueueCall α)
  | .outside => none
  | .entering c | .waiting c | .notified c => some c

/-- The call of a thread that only needs the lock to go on. -/
def runnable? : ThreadStatus α → Option (QueueCall α)
  | .entering c | .notified c => some c
  | _ => none

/-- The thread sleeps on `v` and has not been notified. -/
def WaitsFor (v : CondVar) : ThreadStatus α → Prop
  | .waiting c => c.waitsOn = some v
  | _ => False

/-- The thread is runnable inside a call that may wait on `v`. -/
def ReadyFor (v : CondVar) : ThreadStatus α → Prop
  | .entering c | .notified c => c.waitsOn = some v
  | _ => False

instance (v : CondVar) (st : ThreadStatus α) : Decidable (st.WaitsFor v) := by
  cases st <;> unfold WaitsFor <;> infer_instance

instance (v : CondVar) (st : ThreadStatus α) : Decidable (st.ReadyFor v) := by
  cases st <;> unfold ReadyFor <;> infer_instance

/-- A notification takes a sleeping thread out of the wait. -/
def notify : ThreadStatus α → ThreadStatus α
  | .waiting c => .notified c
  | st => st

end ThreadStatus

/-- A queue and the threads around it. -/
structure WaitState (n : Nat) (α : Type) where
  queue : ConcurrentQueue α
  thread : Fin n → ThreadStatus α

/-- A thread makes a call, or a thread inside a call gets the lock; `woken`
is the scheduler's choice of whom a signal wakes. -/
inductive WaitAction (n : Nat) (α : Type) where
  | call (t : Fin n) (c : QueueCall α)
  | enter (t : Fin n) (woken : Fin n → Bool)

/-- `pthread_cond_signal` on `v`: it wakes the chosen waiters, at least one if
there is one. -/
def signal (v : CondVar) (woken : Fin n → Bool) (th : Fin n → ThreadStatus α) :
    Option (Fin n → ThreadStatus α) :=
  if (∃ i, (th i).WaitsFor v) → ∃ i, woken i = true ∧ (th i).WaitsFor v then
    some fun i => if woken i = true ∧ (th i).WaitsFor v then (th i).notify else th i
  else none

/-- `pthread_cond_broadcast` on `v`. -/
def broadcast (v : CondVar) (th : Fin n → ThreadStatus α) : Fin n → ThreadStatus α :=
  fun i => if (th i).WaitsFor v then (th i).notify else th i

/-- The notification a critical section ends with. -/
def wake (woken : Fin n → Bool) (th : Fin n → ThreadStatus α) :
    Notify → Option (Fin n → ThreadStatus α)
  | .nobody => some th
  | .signalEmpty => signal .empty woken th
  | .signalFull => signal .full woken th
  | .broadcastEmpty => some (broadcast .empty th)
  | .broadcastBoth => some (broadcast .full (broadcast .empty th))

/-- One step of one thread. -/
def WaitState.step (s : WaitState n α) : WaitAction n α → Option (WaitState n α)
  | .call t c =>
      if (s.thread t).call? = none ∧ c.Admissible s.queue.capacity then
        some { s with thread := Function.update s.thread t (.entering c) }
      else none
  | .enter t woken =>
      (s.thread t).runnable?.bind fun c =>
        match c.enter s.queue with
        | none => some { s with thread := Function.update s.thread t (.waiting c) }
        | some o =>
            (wake woken (Function.update s.thread t .outside) o.notify).map fun th => ⟨o.queue, th⟩

/-- `n` threads around the queue of `queue_init`. -/
def waitMachine (n : Nat) (mem : Nat → α) (capacity : Nat) :
    Machine (WaitState n α) (WaitAction n α) where
  init s := queueInit true (some mem) capacity = some s.queue ∧ ∀ i, s.thread i = .outside
  step := WaitState.step

/-! ## What the sections do to the counters -/

section Sections

variable {q : ConcurrentQueue α} {c : QueueCall α} {o : Outcome α (QueueReturn α)}

/-- A producer waits only at a queue that is open and not empty: its batch
fits the capacity. -/
theorem enter_full_eq_none (hwf : q.WF) (hadm : c.Admissible q.capacity)
    (hc : c.waitsOn = some .full) (hw : c.enter q = none) : q.shutdown = false ∧ 0 < q.size := by
  have hcap := hwf.capacity_pos
  have h0 := hwf.size_nonneg
  cases c with
  | push x =>
      obtain ⟨hfull, hopen⟩ := queuePush_eq_none_iff.mp (Option.map_eq_none_iff.mp hw)
      exact ⟨hopen, by omega⟩
  | pushBatch xs =>
      obtain ⟨-, hfull, hopen⟩ := queuePushBatch_eq_none_iff.mp (Option.map_eq_none_iff.mp hw)
      have := hadm.2
      exact ⟨hopen, by omega⟩
  | pop | popBatch n | signalShutdown => simp [QueueCall.waitsOn] at hc

/-- A producer that goes through finds the queue shut down, or adds items and
wakes a consumer for a single one, all of them for a batch. -/
theorem enter_full_eq_some (hwf : q.WF) (hadm : c.Admissible q.capacity)
    (hc : c.waitsOn = some .full) (ho : c.enter q = some o) :
    o.queue.WF ∧ o.queue.capacity = q.capacity ∧ o.queue.shutdown = q.shutdown ∧
      (q.shutdown = true ∧ o.notify = .nobody ∨
        0 < o.queue.size ∧
          (o.queue.size = q.size + 1 ∧ o.notify = .signalEmpty ∨ o.notify = .broadcastEmpty)) := by
  have h0 := hwf.size_nonneg
  cases c with
  | push x =>
      obtain ⟨p, hp, rfl⟩ := Option.map_eq_some_iff.mp ho
      dsimp only
      rcases queuePush_eq_some hwf hp with ⟨hsd, hq, hn⟩ | ⟨hopen, -, hq, hn⟩
      · exact ⟨hq ▸ hwf, by rw [hq], by rw [hq], .inl ⟨hsd, hn⟩⟩
      · have hsz := hq.size_eq
        rw [List.length_append, length_contents, List.length_singleton] at hsz
        exact ⟨hq.wf, hq.capacity_eq, hq.shutdown_eq, .inr ⟨by omega, .inl ⟨by omega, hn⟩⟩⟩
  | pushBatch xs =>
      obtain ⟨p, hp, rfl⟩ := Option.map_eq_some_iff.mp ho
      dsimp only
      have hlen := hadm.1
      rcases queuePushBatch_eq_some hwf hp with ⟨hnil, -⟩ | ⟨hsd, hq, hn⟩ | ⟨-, -, -, hq, hn⟩
      · simp [hnil] at hlen
      · exact ⟨hq ▸ hwf, by rw [hq], by rw [hq], .inl ⟨hsd, hn⟩⟩
      · have hsz := hq.size_eq
        rw [List.length_append, length_contents] at hsz
        exact ⟨hq.wf, hq.capacity_eq, hq.shutdown_eq, .inr ⟨by omega, .inr hn⟩⟩
  | pop | popBatch n | signalShutdown => simp [QueueCall.waitsOn] at hc

/-- A consumer waits only at a queue that is open and empty. -/
theorem enter_empty_eq_none (hc : c.waitsOn = some .empty) (hw : c.enter q = none) :
    q.shutdown = false ∧ q.size = 0 := by
  cases c with
  | pop =>
      obtain ⟨hsz, hopen⟩ := queuePop_eq_none_iff.mp (Option.map_eq_none_iff.mp hw)
      exact ⟨hopen, hsz⟩
  | popBatch n =>
      obtain ⟨hsz, hopen⟩ := queuePopBatch_eq_none_iff.mp (Option.map_eq_none_iff.mp hw)
      exact ⟨hopen, hsz⟩
  | push x | pushBatch xs | signalShutdown => simp [QueueCall.waitsOn] at hc

/-- A consumer that goes through finds the queue shut down and empty, or
removes items and wakes one producer. -/
theorem enter_empty_eq_some (hwf : q.WF) (hadm : c.Admissible q.capacity)
    (hc : c.waitsOn = some .empty) (ho : c.enter q = some o) :
    o.queue.WF ∧ o.queue.capacity = q.capacity ∧ o.queue.shutdown = q.shutdown ∧
      (q.shutdown = true ∧ o.notify = .nobody ∨
        o.queue.size < q.size ∧ o.notify = .signalFull) := by
  cases c with
  | pop =>
      obtain ⟨p, hp, rfl⟩ := Option.map_eq_some_iff.mp ho
      dsimp only
      rcases queuePop_eq_some hwf hp with ⟨hsd, -, hq, -, hn⟩ | ⟨hpos, x, xs, hxs, hq, -, hn⟩
      · exact ⟨hq ▸ hwf, by rw [hq], by rw [hq], .inl ⟨hsd, hn⟩⟩
      · have hsz := hq.size_eq
        have hlen := length_contents q
        rw [hxs, List.length_cons] at hlen
        exact ⟨hq.wf, hq.capacity_eq, hq.shutdown_eq, .inr ⟨by omega, hn⟩⟩
  | popBatch n =>
      obtain ⟨p, hp, rfl⟩ := Option.map_eq_some_iff.mp ho
      dsimp only
      have hn1 : 1 ≤ n := hadm
      rcases queuePopBatch_eq_some hwf hp with ⟨hsd, -, hq, -, hn⟩ | ⟨hpos, hq, -, hn⟩
      · exact ⟨hq ▸ hwf, by rw [hq], by rw [hq], .inl ⟨hsd, hn⟩⟩
      · have hsz := hq.size_eq
        rw [List.length_drop, length_contents] at hsz
        rw [if_pos (by omega)] at hn
        exact ⟨hq.wf, hq.capacity_eq, hq.shutdown_eq, .inr ⟨by omega, hn⟩⟩
  | push x | pushBatch xs | signalShutdown => simp [QueueCall.waitsOn] at hc

end Sections

/-! ## What notifications do to the threads -/

section Notifications

variable {th th' : Fin n → ThreadStatus α} {woken : Fin n → Bool} {v w : CondVar}

theorem broadcast_pointwise (v : CondVar) (th : Fin n → ThreadStatus α) (i : Fin n) :
    broadcast v th i = th i ∨ broadcast v th i = (th i).notify := by
  unfold broadcast
  split
  · exact .inr rfl
  · exact .inl rfl

theorem signal_pointwise (h : signal v woken th = some th') (i : Fin n) :
    th' i = th i ∨ th' i = (th i).notify := by
  simp only [signal] at h
  split at h
  · obtain rfl := Option.some.inj h
    dsimp only
    split
    · exact .inr rfl
    · exact .inl rfl
  · contradiction

/-- A notification changes a thread in one way only. -/
theorem wake_pointwise {k : Notify} (h : wake woken th k = some th') (i : Fin n) :
    th' i = th i ∨ th' i = (th i).notify := by
  cases k with
  | nobody => exact .inl (congrFun (Option.some.inj h) i).symm
  | signalEmpty => exact signal_pointwise h i
  | signalFull => exact signal_pointwise h i
  | broadcastEmpty =>
      obtain rfl := Option.some.inj h
      exact broadcast_pointwise .empty th i
  | broadcastBoth =>
      obtain rfl := Option.some.inj h
      rcases broadcast_pointwise .full (broadcast .empty th) i with he | he <;>
        rcases broadcast_pointwise .empty th i with he' | he' <;> rw [he, he']
      · exact .inl rfl
      · exact .inr rfl
      · exact .inr rfl
      · exact .inr (by cases th i <;> rfl)

theorem waitsFor_of_pointwise {st st' : ThreadStatus α} (h : st' = st ∨ st' = st.notify)
    (hw : st'.WaitsFor v) : st.WaitsFor v := by
  rcases h with rfl | rfl
  · exact hw
  · cases st <;> first | exact hw | exact hw.elim

/-- Notified threads no longer wait, and nobody else starts to. -/
theorem waitsFor_of_wake {k : Notify} (h : wake woken th k = some th') {i : Fin n}
    (hi : (th' i).WaitsFor v) : (th i).WaitsFor v :=
  waitsFor_of_pointwise (wake_pointwise h i) hi

/-- A runnable thread stays runnable. -/
theorem readyFor_wake {k : Notify} (h : wake woken th k = some th') {i : Fin n}
    (hi : (th i).ReadyFor v) : (th' i).ReadyFor v := by
  rcases wake_pointwise h i with he | he
  · rw [he]; exact hi
  · rw [he]
    cases hti : th i <;> rw [hti] at hi <;> first | exact hi | exact hi.elim

/-- A notification takes no thread out of its call. -/
theorem call?_wake {k : Notify} (h : wake woken th k = some th') (i : Fin n) :
    (th' i).call? = (th i).call? := by
  rcases wake_pointwise h i with he | he
  · rw [he]
  · rw [he]
    cases th i <;> rfl

/-- A signal wakes somebody who waits, if anybody does. -/
theorem exists_ready_of_signal (h : signal v woken th = some th') (hw : ∃ i, (th i).WaitsFor v) :
    ∃ j, (th j).WaitsFor v ∧ (th' j).ReadyFor v := by
  simp only [signal] at h
  split at h
  · next hchoice =>
    obtain rfl := Option.some.inj h
    obtain ⟨j, hj, hwj⟩ := hchoice hw
    refine ⟨j, hwj, ?_⟩
    dsimp only
    rw [if_pos ⟨hj, hwj⟩]
    cases htj : th j <;> rw [htj] at hwj <;> first | exact hwj | exact hwj.elim
  · contradiction

/-- After a broadcast nobody waits on that condition variable. -/
theorem not_waitsFor_broadcast (v : CondVar) (th : Fin n → ThreadStatus α) (i : Fin n) :
    ¬ (broadcast v th i).WaitsFor v := by
  unfold broadcast
  split
  · cases th i <;> exact id
  · next hw => exact hw

/-- The two broadcasts of the shutdown leave nobody waiting. -/
theorem not_waitsFor_broadcastBoth (h : wake woken th .broadcastBoth = some th') (i : Fin n)
    (v : CondVar) : ¬ (th' i).WaitsFor v := by
  obtain rfl := Option.some.inj h
  intro hi
  cases v with
  | full => exact not_waitsFor_broadcast .full (broadcast .empty th) i hi
  | empty =>
      exact not_waitsFor_broadcast .empty th i
        (waitsFor_of_pointwise (broadcast_pointwise .full (broadcast .empty th) i) hi)

/-- The threads awake inside a call that may wait on `v`. -/
def readyThreads (v : CondVar) (th : Fin n → ThreadStatus α) : Finset (Fin n) :=
  Finset.univ.filter fun i => (th i).ReadyFor v

theorem mem_readyThreads {i : Fin n} : i ∈ readyThreads v th ↔ (th i).ReadyFor v := by
  simp [readyThreads]

theorem card_readyThreads_le (h : ∀ i, (th i).ReadyFor v → (th' i).ReadyFor v) :
    (readyThreads v th).card ≤ (readyThreads v th').card :=
  Finset.card_le_card fun i hi => mem_readyThreads.mpr (h i (mem_readyThreads.mp hi))

/-- If one more thread is awake, the count goes up. -/
theorem card_readyThreads_lt (h : ∀ i, (th i).ReadyFor v → (th' i).ReadyFor v) {j : Fin n}
    (hj : ¬ (th j).ReadyFor v) (hj' : (th' j).ReadyFor v) :
    (readyThreads v th).card < (readyThreads v th').card := by
  refine Finset.card_lt_card ⟨fun i hi => mem_readyThreads.mpr (h i (mem_readyThreads.mp hi)), ?_⟩
  intro hsub
  exact hj (mem_readyThreads.mp (hsub (mem_readyThreads.mpr hj')))

/-- If only thread `t` stops being awake, the count goes down by one at most. -/
theorem card_readyThreads_le_succ {t : Fin n}
    (h : ∀ i, i ≠ t → (th i).ReadyFor v → (th' i).ReadyFor v) :
    (readyThreads v th).card ≤ (readyThreads v th').card + 1 := by
  have hsub : readyThreads v th ⊆ insert t (readyThreads v th') := by
    intro i hi
    by_cases hit : i = t
    · exact hit ▸ Finset.mem_insert_self ..
    · exact Finset.mem_insert_of_mem (mem_readyThreads.mpr (h i hit (mem_readyThreads.mp hi)))
  exact Nat.le_trans (Finset.card_le_card hsub) (Finset.card_insert_le ..)

end Notifications

/-! ## The counting invariant -/

/-- What holds in every reachable state of the threads around a queue. -/
structure WakeInv (s : WaitState n α) : Prop where
  wf : s.queue.WF
  admissible : ∀ i c, (s.thread i).call? = some c → c.Admissible s.queue.capacity
  blockable : ∀ i c, s.thread i = .waiting c → ∃ v, c.waitsOn = some v
  consumers : (∃ i, (s.thread i).WaitsFor .empty) →
    s.queue.size ≤ (readyThreads .empty s.thread).card
  producers : s.queue.size = 0 → (∃ i, (s.thread i).WaitsFor .full) →
    ∃ j, (s.thread j).ReadyFor .full
  closed : s.queue.shutdown = true → ∀ i v, ¬ (s.thread i).WaitsFor v

section Steps

variable {s : WaitState n α} {t : Fin n} {c : QueueCall α}

theorem call?_of_runnable {st : ThreadStatus α} (h : st.runnable? = some c) :
    st.call? = some c := by
  cases st <;> first | exact h | exact absurd h (by simp [ThreadStatus.runnable?])

theorem waitsOn_of_readyFor {st : ThreadStatus α} {v : CondVar} (h : st.runnable? = some c)
    (hv : st.ReadyFor v) : c.waitsOn = some v := by
  cases st <;> first
    | exact hv.elim
    | (obtain rfl := Option.some.inj h; exact hv)

/-- Only thread `t` is moved, and it does not sleep afterwards: who sleeps
slept before. -/
theorem exists_waitsFor_of_update {th : Fin n → ThreadStatus α} {v : CondVar} {i : Fin n}
    {st : ThreadStatus α} (hst : ¬ st.WaitsFor v)
    (hi : (Function.update th t st i).WaitsFor v) : (th i).WaitsFor v := by
  by_cases hit : i = t
  · subst hit; rw [Function.update_self] at hi; exact absurd hi hst
  · rwa [Function.update_of_ne hit] at hi

theorem readyFor_update_of_ne {th : Fin n → ThreadStatus α} {v : CondVar} {i : Fin n}
    {st : ThreadStatus α} (hit : i ≠ t) (hi : (th i).ReadyFor v) :
    (Function.update th t st i).ReadyFor v := by
  rwa [Function.update_of_ne hit]

/-- One thread is moved, and its new status has no call that is not admissible. -/
theorem admissible_update {th : Fin n → ThreadStatus α} {st : ThreadStatus α} {cap : Nat}
    (h : ∀ i c, (th i).call? = some c → c.Admissible cap)
    (hst : ∀ c, st.call? = some c → c.Admissible cap) :
    ∀ i c, (Function.update th t st i).call? = some c → c.Admissible cap :=
  (Function.forall_update_iff th fun _ st => ∀ c, st.call? = some c → c.Admissible cap).mpr
    ⟨hst, fun i _ => h i⟩

/-- One thread is moved, and sleeps only in a call that may wait. -/
theorem blockable_update {th : Fin n → ThreadStatus α} {st : ThreadStatus α}
    (h : ∀ i c, th i = .waiting c → ∃ v, c.waitsOn = some v)
    (hst : ∀ c, st = .waiting c → ∃ v, c.waitsOn = some v) :
    ∀ i c, Function.update th t st i = .waiting c → ∃ v, c.waitsOn = some v :=
  (Function.forall_update_iff th fun _ st => ∀ c, st = .waiting c → ∃ v, c.waitsOn = some v).mpr
    ⟨hst, fun i _ => h i⟩

/-- A thread enters a call: nobody sleeps who did not, nobody falls asleep. -/
theorem wakeInv_call (h : WakeInv s) (hout : (s.thread t).call? = none)
    (hadm : c.Admissible s.queue.capacity) :
    WakeInv { s with thread := Function.update s.thread t (.entering c) } := by
  have hready : ∀ v i, (s.thread i).ReadyFor v →
      (Function.update s.thread t (.entering c) i).ReadyFor v := by
    intro v i hi
    refine readyFor_update_of_ne (fun hit => ?_) hi
    subst hit
    cases hti : s.thread i <;> rw [hti] at hi hout <;>
      first | exact hi.elim | exact absurd hout (by simp [ThreadStatus.call?])
  have hwaits : ∀ v, (∃ i, (Function.update s.thread t (.entering c) i).WaitsFor v) →
      ∃ i, (s.thread i).WaitsFor v :=
    fun v ⟨i, hi⟩ => ⟨i, exists_waitsFor_of_update id hi⟩
  refine ⟨h.wf, ?_, ?_, ?_, ?_, ?_⟩
  · exact admissible_update h.admissible fun c' hc' => Option.some.inj hc' ▸ hadm
  · exact blockable_update h.blockable fun c' hc' => by contradiction
  · intro hw
    have h1 := h.consumers (hwaits .empty hw)
    have h2 := card_readyThreads_le (hready .empty)
    dsimp only
    omega
  · intro h0 hw
    obtain ⟨j, hj⟩ := h.producers h0 (hwaits .full hw)
    exact ⟨j, hready .full j hj⟩
  · intro hsd i v hi
    exact h.closed hsd i v (exists_waitsFor_of_update id hi)

/-- A thread finds its wait condition true and goes to sleep: a consumer at an
empty queue, a producer at one that is not empty. -/
theorem wakeInv_wait (h : WakeInv s) (hrun : (s.thread t).runnable? = some c)
    (hw : c.enter s.queue = none) :
    WakeInv { s with thread := Function.update s.thread t (.waiting c) } := by
  have hadm := h.admissible t c (call?_of_runnable hrun)
  obtain ⟨v, hv⟩ : ∃ v, c.waitsOn = some v := by
    cases c <;> first | exact ⟨_, rfl⟩ | exact absurd hw (by simp [QueueCall.enter])
  have hopen : s.queue.shutdown = false := by
    cases v with
    | full => exact (enter_full_eq_none h.wf hadm hv hw).1
    | empty => exact (enter_empty_eq_none hv hw).1
  have hready : ∀ w i, w ≠ v → (s.thread i).ReadyFor w →
      (Function.update s.thread t (.waiting c) i).ReadyFor w := by
    intro w i hwv hi
    refine readyFor_update_of_ne (fun hit => ?_) hi
    subst hit
    have := waitsOn_of_readyFor hrun hi
    exact hwv (Option.some.inj (this.symm.trans hv))
  have hwaits : ∀ w, w ≠ v → (∃ i, (Function.update s.thread t (.waiting c) i).WaitsFor w) →
      ∃ i, (s.thread i).WaitsFor w := by
    rintro w hwv ⟨i, hi⟩
    refine ⟨i, exists_waitsFor_of_update (fun hst => hwv ?_) hi⟩
    have hcw : c.waitsOn = some w := hst
    exact Option.some.inj (hcw.symm.trans hv)
  refine ⟨h.wf, ?_, ?_, ?_, ?_, ?_⟩
  · exact admissible_update h.admissible fun c' hc' => Option.some.inj hc' ▸ hadm
  · refine blockable_update h.blockable fun c' hc' => ?_
    cases hc'
    exact ⟨v, hv⟩
  · intro hsleep
    dsimp only
    cases v with
    | empty =>
        have := (enter_empty_eq_none hv hw).2
        omega
    | full =>
        have h1 := h.consumers (hwaits .empty (by decide) hsleep)
        have h2 := card_readyThreads_le (fun i => hready .empty i (by decide))
        omega
  · intro h0 hsleep
    dsimp only at h0
    cases v with
    | full =>
        have := (enter_full_eq_none h.wf hadm hv hw).2
        omega
    | empty =>
        obtain ⟨j, hj⟩ := h.producers h0 (hwaits .full (by decide) hsleep)
        exact ⟨j, hready .full j (by decide) hj⟩
  · intro hsd
    dsimp only at hsd
    rw [hopen] at hsd
    contradiction

/-- What the other threads are like once `t` has gone through a critical
section: who sleeps slept before, and only `t` may no longer be awake. -/
structure Passed (s : WaitState n α) (t : Fin n) (th : Fin n → ThreadStatus α) : Prop where
  waits : ∀ v i, (th i).WaitsFor v → (s.thread i).WaitsFor v
  ready : ∀ v i, i ≠ t → (s.thread i).ReadyFor v → (th i).ReadyFor v
  calls : ∀ i c, (th i).call? = some c → (s.thread i).call? = some c
  blockable : ∀ i c, th i = .waiting c → ∃ v, c.waitsOn = some v

theorem passed_of_wake (h : WakeInv s) {k : Notify} {woken : Fin n → Bool}
    {th : Fin n → ThreadStatus α}
    (hth : wake woken (Function.update s.thread t .outside) k = some th) : Passed s t th := by
  constructor
  · exact fun v i hi => exists_waitsFor_of_update id (waitsFor_of_wake hth hi)
  · exact fun v i hit hi => readyFor_wake hth (readyFor_update_of_ne hit hi)
  · intro i c hc
    rw [call?_wake hth] at hc
    by_cases hit : i = t
    · subst hit
      rw [Function.update_self] at hc
      contradiction
    · rwa [Function.update_of_ne hit] at hc
  · intro i c hc
    rcases wake_pointwise hth i with he | he <;> rw [hc] at he
    · exact blockable_update h.blockable (fun c' hc' => by contradiction) i c he.symm
    · cases hi : Function.update s.thread t ThreadStatus.outside i <;> rw [hi] at he <;>
        contradiction

/-- `queue_signal_shutdown` leaves nobody asleep. -/
theorem wakeInv_shutdown (h : WakeInv s) {woken : Fin n → Bool} {th : Fin n → ThreadStatus α}
    (hth : wake woken (Function.update s.thread t .outside) .broadcastBoth = some th) :
    WakeInv ⟨(queueSignalShutdown s.queue).queue, th⟩ := by
  have hpassed := passed_of_wake h hth
  have hnone := not_waitsFor_broadcastBoth hth
  exact ⟨h.wf.shutdown, fun i c' hc' => h.admissible i c' (hpassed.calls i c' hc'),
    hpassed.blockable, fun ⟨i, hi⟩ => absurd hi (hnone i .empty),
    fun _ ⟨i, hi⟩ => absurd hi (hnone i .full), fun _ => hnone⟩

/-- A producer goes through: every awake consumer stays awake, and one item
more comes with one consumer more awake. -/
theorem wakeInv_produce (h : WakeInv s) (hrun : (s.thread t).runnable? = some c)
    (hv : c.waitsOn = some .full) {o : Outcome α (QueueReturn α)} (ho : c.enter s.queue = some o)
    {woken : Fin n → Bool} {th : Fin n → ThreadStatus α}
    (hth : wake woken (Function.update s.thread t .outside) o.notify = some th) :
    WakeInv ⟨o.queue, th⟩ := by
  have hadm := h.admissible t c (call?_of_runnable hrun)
  have hpassed := passed_of_wake h hth
  obtain ⟨hwf, hcap, hsd, hcase⟩ := enter_full_eq_some h.wf hadm hv ho
  have hclosed : o.queue.shutdown = true → ∀ i v, ¬ (th i).WaitsFor v :=
    fun hs i v hi => h.closed (hsd ▸ hs) i v (hpassed.waits v i hi)
  have hstay : ∀ i, (Function.update s.thread t .outside i).ReadyFor .empty →
      (th i).ReadyFor .empty := fun i hi => readyFor_wake hth hi
  have hsame : (readyThreads .empty s.thread).card ≤
      (readyThreads .empty (Function.update s.thread t .outside)).card := by
    refine card_readyThreads_le fun i hi => readyFor_update_of_ne (fun hit => ?_) hi
    subst hit
    rw [waitsOn_of_readyFor hrun hi] at hv
    simp at hv
  refine ⟨hwf, fun i c' hc' => hcap ▸ h.admissible i c' (hpassed.calls i c' hc'),
    hpassed.blockable, ?_, ?_, hclosed⟩
  · rintro ⟨i, hi⟩
    have hbefore := h.consumers ⟨i, hpassed.waits .empty i hi⟩
    rcases hcase with ⟨hs, -⟩ | ⟨-, ⟨hsz, hn⟩ | hn⟩
    · exact absurd hi (hclosed (hsd ▸ hs) i .empty)
    · rw [hn] at hth
      obtain ⟨j, hj, hj'⟩ := exists_ready_of_signal hth
        ⟨i, waitsFor_of_wake (k := .signalEmpty) hth hi⟩
      have hnot : ¬ (Function.update s.thread t .outside j).ReadyFor .empty := by
        cases hjj : Function.update s.thread t ThreadStatus.outside j <;> rw [hjj] at hj <;>
          first | exact hj.elim | exact id
      have hmore := card_readyThreads_lt hstay hnot hj'
      dsimp only
      omega
    · rw [hn] at hth
      obtain rfl := Option.some.inj hth
      exact absurd hi (not_waitsFor_broadcast .empty _ i)
  · rintro h0 ⟨i, hi⟩
    rcases hcase with ⟨hs, -⟩ | ⟨hpos, -⟩
    · exact absurd hi (hclosed (hsd ▸ hs) i .full)
    · dsimp only at h0
      omega

/-- A consumer goes through: at least one item less, at most one consumer less
awake, and a producer is woken. -/
theorem wakeInv_consume (h : WakeInv s) (hrun : (s.thread t).runnable? = some c)
    (hv : c.waitsOn = some .empty) {o : Outcome α (QueueReturn α)} (ho : c.enter s.queue = some o)
    {woken : Fin n → Bool} {th : Fin n → ThreadStatus α}
    (hth : wake woken (Function.update s.thread t .outside) o.notify = some th) :
    WakeInv ⟨o.queue, th⟩ := by
  have hadm := h.admissible t c (call?_of_runnable hrun)
  have hpassed := passed_of_wake h hth
  obtain ⟨hwf, hcap, hsd, hcase⟩ := enter_empty_eq_some h.wf hadm hv ho
  have hclosed : o.queue.shutdown = true → ∀ i v, ¬ (th i).WaitsFor v :=
    fun hs i v hi => h.closed (hsd ▸ hs) i v (hpassed.waits v i hi)
  refine ⟨hwf, fun i c' hc' => hcap ▸ h.admissible i c' (hpassed.calls i c' hc'),
    hpassed.blockable, ?_, ?_, hclosed⟩
  · rintro ⟨i, hi⟩
    have hbefore := h.consumers ⟨i, hpassed.waits .empty i hi⟩
    rcases hcase with ⟨hs, -⟩ | ⟨hlt, -⟩
    · exact absurd hi (hclosed (hsd ▸ hs) i .empty)
    · have hless := card_readyThreads_le_succ (hpassed.ready .empty)
      dsimp only
      omega
  · rintro h0 ⟨i, hi⟩
    rcases hcase with ⟨hs, -⟩ | ⟨-, hn⟩
    · exact absurd hi (hclosed (hsd ▸ hs) i .full)
    · rw [hn] at hth
      obtain ⟨j, -, hj⟩ := exists_ready_of_signal hth
        ⟨i, waitsFor_of_wake (k := .signalFull) hth hi⟩
      exact ⟨j, hj⟩

/-- A thread goes through its critical section. -/
theorem wakeInv_through (h : WakeInv s) (hrun : (s.thread t).runnable? = some c)
    {o : Outcome α (QueueReturn α)} (ho : c.enter s.queue = some o) {woken : Fin n → Bool}
    {th : Fin n → ThreadStatus α}
    (hth : wake woken (Function.update s.thread t .outside) o.notify = some th) :
    WakeInv ⟨o.queue, th⟩ := by
  cases hv : c.waitsOn with
  | none =>
      cases c with
      | signalShutdown =>
          obtain rfl := Option.some.inj ho
          exact wakeInv_shutdown h hth
      | push x | pushBatch xs | pop | popBatch n => simp [QueueCall.waitsOn] at hv
  | some v =>
      cases v with
      | full => exact wakeInv_produce h hrun hv ho hth
      | empty => exact wakeInv_consume h hrun hv ho hth

/-- Every step of every thread keeps the invariant. -/
theorem wakeInv_step {a : WaitAction n α} {s' : WaitState n α} (h : WakeInv s)
    (hstep : s.step a = some s') : WakeInv s' := by
  cases a with
  | call t c =>
      simp only [WaitState.step] at hstep
      split at hstep
      · next hg =>
        obtain rfl := Option.some.inj hstep
        exact wakeInv_call h hg.1 hg.2
      · contradiction
  | enter t woken =>
      obtain ⟨c, hrun, hbody⟩ := Option.bind_eq_some_iff.mp hstep
      cases ho : c.enter s.queue with
      | none =>
          simp only [ho, Option.some.injEq] at hbody
          exact hbody ▸ wakeInv_wait h hrun ho
      | some o =>
          simp only [ho] at hbody
          obtain ⟨th, hth, rfl⟩ := Option.map_eq_some_iff.mp hbody
          exact wakeInv_through h hrun ho hth

end Steps

/-- The invariant holds in every reachable state. -/
theorem wakeInv_reachable {mem : Nat → α} {cap : Nat} (hcap : 1 ≤ cap) {s : WaitState n α}
    (h : (waitMachine n mem cap).Reachable s) : WakeInv s := by
  refine (waitMachine n mem cap).invariant ?_ (fun _ _ _ => wakeInv_step) h
  rintro s ⟨hq, hout⟩
  obtain ⟨hwf, -, -, hopen⟩ := wf_queueInit hcap hq
  refine ⟨hwf, ?_, ?_, ?_, ?_, ?_⟩
  · intro i c hc; rw [hout i] at hc; contradiction
  · intro i c hc; rw [hout i] at hc; contradiction
  · rintro ⟨i, hi⟩; rw [hout i] at hi; exact hi.elim
  · rintro - ⟨i, hi⟩; rw [hout i] at hi; exact hi.elim
  · intro hsd; rw [hopen] at hsd; contradiction

/-! ## No lost wake-up -/

/-- **No wake-up is lost**: without a shutdown it never happens that a
producer and a consumer both sleep un-notified while no thread inside a queue
call can run, and after the shutdown no thread sleeps un-notified. -/
theorem no_lost_wakeup (n : Nat) (mem : Nat → α) (capacity : Nat) (hcap : 1 ≤ capacity)
    (s : WaitState n α) (h : (waitMachine n mem capacity).Reachable s) :
    (s.queue.shutdown = false →
      ¬ ((∃ i, (s.thread i).WaitsFor .full) ∧ (∃ i, (s.thread i).WaitsFor .empty) ∧
          ∀ i, (s.thread i).runnable? = none)) ∧
      (s.queue.shutdown = true → ∀ i c, s.thread i ≠ .waiting c) := by
  have hinv := wakeInv_reachable hcap h
  refine ⟨?_, ?_⟩
  · rintro - ⟨hprod, hcons, hnone⟩
    have hidle : ∀ v i, ¬ (s.thread i).ReadyFor v := by
      intro v i hi
      have hr := hnone i
      cases hti : s.thread i <;> rw [hti] at hi hr <;>
        first | exact hi.elim | exact absurd hr (by simp [ThreadStatus.runnable?])
    -- no consumer is awake, so the queue is empty, so a producer must be awake
    have hcard : (readyThreads .empty s.thread).card = 0 := by
      rw [Finset.card_eq_zero, Finset.eq_empty_iff_forall_notMem]
      exact fun i hi => hidle .empty i (mem_readyThreads.mp hi)
    have hsize : s.queue.size = 0 := by
      have h1 := hinv.consumers hcons
      have h2 := hinv.wf.size_nonneg
      omega
    obtain ⟨j, hj⟩ := hinv.producers hsize hprod
    exact hidle .full j hj
  · intro hsd i c hi
    obtain ⟨v, hv⟩ := hinv.blockable i c hi
    exact hinv.closed hsd i v (by rw [hi]; exact hv)

/-- A queue of one slot: thread `0` fills it and goes to sleep on its second
push, thread `1` is about to pop. -/
theorem no_lost_wakeup_full_queue :
    ∃ s : WaitState 2 Nat, (waitMachine 2 (fun _ => 0) 1).Reachable s ∧
      s.thread 0 = .waiting (.push 8) ∧ s.thread 1 = .entering .pop ∧
      ¬ ((∃ i, (s.thread i).WaitsFor .full) ∧ (∃ i, (s.thread i).WaitsFor .empty) ∧
          ∀ i, (s.thread i).runnable? = none) := by
  obtain ⟨s, hs⟩ : ∃ s, (waitMachine 2 (fun _ => 0) 1).run
      (⟨⟨fun _ => 0, 1, 0, 0, 0, false⟩, fun _ => .outside⟩ : WaitState 2 Nat)
      [.call 0 (.push 7), .enter 0 fun _ => false, .call 0 (.push 8), .enter 0 fun _ => false,
        .call 1 .pop] = some s := ⟨_, rfl⟩
  have hreach : (waitMachine 2 (fun _ => 0) 1).Reachable s := ⟨_, _, ⟨rfl, fun _ => rfl⟩, hs⟩
  have hsafe := (no_lost_wakeup 2 (fun _ => 0) 1 (by decide) s hreach).1
  obtain rfl := Option.some.inj hs
  exact ⟨_, hreach, rfl, rfl, hsafe rfl⟩

end Profiling
