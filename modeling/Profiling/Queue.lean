import Profiling.Cyclic

/-!
# Profiling.Queue

The bounded producer/consumer queue of `src/utils/concurrent_queue.c`.

Each function is its critical section, from `pthread_mutex_lock` to
`pthread_mutex_unlock`, as one step: the result is `none` when the section's
wait condition holds (the thread then sits in `pthread_cond_wait`), and
otherwise the queue it leaves, what the function returns, and which waiting
threads it notifies before unlocking.  The time measurements behind
`latency_ns` are left out; nothing in the queue depends on them.

* `ConcurrentQueue.WF` — the invariant relating `size`, `head` and `tail`;
* `ConcurrentQueue.contents` — the `size` slots from `head`, cyclically;
* `queuePush_eq_some` … — what each section can do, guards included.
-/

namespace Profiling

/-- `struct concurrent_queue_t`, without its mutex and condition variables.
`size` is a C `int` that the code increments and decrements; that it never
becomes negative is part of `WF`. -/
structure ConcurrentQueue (α : Type) where
  buffer : Nat → α
  capacity : Nat
  size : Int
  head : Nat
  tail : Nat
  shutdown : Bool

/-- Which waiting threads a critical section notifies before it unlocks. -/
inductive Notify where
  | nobody
  /-- `pthread_cond_signal(&queue->cond_empty)` -/
  | signalEmpty
  /-- `pthread_cond_broadcast(&queue->cond_empty)` -/
  | broadcastEmpty
  /-- `pthread_cond_signal(&queue->cond_full)` -/
  | signalFull
  /-- both condition variables, as `queue_signal_shutdown` does -/
  | broadcastBoth
  deriving DecidableEq, Repr

/-- How a critical section that did not wait ends. -/
structure Outcome (α ρ : Type) where
  queue : ConcurrentQueue α
  result : ρ
  notify : Notify

/-! ## The operations -/

/-- `queue_init`: `NULL` when either `malloc` fails; the buffer starts with
whatever the second one returned. -/
def queueInit (queueAllocated : Bool) (buffer : Option (Nat → α)) (capacity : Nat) :
    Option (ConcurrentQueue α) :=
  if queueAllocated then
    buffer.map fun mem =>
      { buffer := mem, capacity, size := 0, head := 0, tail := 0, shutdown := false }
  else none

/-- `queue_push` -/
def queuePush (q : ConcurrentQueue α) (item : α) : Option (Outcome α Unit) :=
  if q.size = q.capacity ∧ q.shutdown = false then none
  else if q.shutdown then some ⟨q, (), .nobody⟩
  else some
    { queue := { q with
        buffer := Function.update q.buffer q.tail item
        tail := (q.tail + 1) % q.capacity
        size := q.size + 1 }
      result := ()
      notify := .signalEmpty }

/-- `queue_pop`; the result `none` is the `NULL` of the shutdown branch. -/
def queuePop (q : ConcurrentQueue α) : Option (Outcome α (Option α)) :=
  if q.size = 0 ∧ q.shutdown = false then none
  else if q.shutdown ∧ q.size = 0 then some ⟨q, none, .nobody⟩
  else some
    { queue := { q with head := (q.head + 1) % q.capacity, size := q.size - 1 }
      result := some (q.buffer q.head)
      notify := .signalFull }

/-- The copying loop of `queue_pop_batch`: `n` more items after `items`. -/
def popLoop : Nat → ConcurrentQueue α → List α → ConcurrentQueue α × List α
  | 0, q, items => (q, items)
  | n + 1, q, items =>
      popLoop n { q with head := (q.head + 1) % q.capacity, size := q.size - 1 }
        (items ++ [q.buffer q.head])

/-- `queue_pop_batch`; the result is the filled part of `items`, its length
the returned count. -/
def queuePopBatch (q : ConcurrentQueue α) (maxItems : Nat) : Option (Outcome α (List α)) :=
  if q.size = 0 ∧ q.shutdown = false then none
  else if q.shutdown ∧ q.size = 0 then some ⟨q, [], .nobody⟩
  else
    let countToPop : Int := if q.size < maxItems then q.size else maxItems
    let (q', items) := popLoop countToPop.toNat q []
    some ⟨q', items, if 0 < items.length then .signalFull else .nobody⟩

/-- The copying loop of `queue_push_batch`, which leaves `size` alone. -/
def pushLoop : List α → ConcurrentQueue α → ConcurrentQueue α
  | [], q => q
  | x :: xs, q =>
      pushLoop xs { q with
        buffer := Function.update q.buffer q.tail x
        tail := (q.tail + 1) % q.capacity }

/-- `queue_push_batch` of the first `count = items.length` items. -/
def queuePushBatch (q : ConcurrentQueue α) (items : List α) : Option (Outcome α Unit) :=
  if items = [] then some ⟨q, (), .nobody⟩
  else if q.capacity - q.size < items.length ∧ q.shutdown = false then none
  else if q.shutdown then some ⟨q, (), .nobody⟩
  else
    let q' := pushLoop items q
    some ⟨{ q' with size := q'.size + items.length }, (), .broadcastEmpty⟩

/-- `queue_signal_shutdown` -/
def queueSignalShutdown (q : ConcurrentQueue α) : Outcome α Unit :=
  ⟨{ q with shutdown := true }, (), .broadcastBoth⟩

/-- `queue_get_size` -/
def queueGetSize (q : ConcurrentQueue α) : Int := q.size

namespace ConcurrentQueue

/-! ## Invariant and contents -/

/-- The queue's representation invariant. -/
structure WF (q : ConcurrentQueue α) : Prop where
  capacity_pos : 0 < q.capacity
  size_nonneg : 0 ≤ q.size
  size_le : q.size ≤ q.capacity
  head_lt : q.head < q.capacity
  tail_eq : q.tail = (q.head + q.size.toNat) % q.capacity

/-- The `size` slots from `head`, cyclically: the queue as a list. -/
def contents (q : ConcurrentQueue α) : List α :=
  cyclic q.buffer q.capacity q.head q.size.toNat

@[simp] theorem length_contents (q : ConcurrentQueue α) : q.contents.length = q.size.toNat := by
  simp [contents]

/-- A well-formed queue of size `0` is the empty list. -/
theorem contents_eq_nil_iff {q : ConcurrentQueue α} (h : q.WF) : q.contents = [] ↔ q.size = 0 := by
  rw [← List.length_eq_zero_iff, length_contents]
  have := h.size_nonneg
  omega

/-- What `queue_init` returns is an empty, open queue. -/
theorem wf_queueInit {mem : Nat → α} {cap : Nat} {q : ConcurrentQueue α} (hcap : 0 < cap)
    (h : queueInit true (some mem) cap = some q) :
    q.WF ∧ q.contents = [] ∧ q.capacity = cap ∧ q.shutdown = false := by
  simp only [queueInit, if_true, Option.map_some, Option.some.injEq] at h
  subst h
  exact ⟨⟨hcap, Int.le_refl _, by simp, hcap, by simp⟩, rfl, rfl, rfl⟩

/-! ## One item in, one item out -/

/-- The same queue with another `size`. -/
def resize (q : ConcurrentQueue α) (n : Int) : ConcurrentQueue α := { q with size := n }

/-- Writing slot `tail` and advancing it. -/
def stored (q : ConcurrentQueue α) (item : α) : ConcurrentQueue α :=
  { q with
    buffer := Function.update q.buffer q.tail item
    tail := (q.tail + 1) % q.capacity }

/-- Storing one item and counting it. -/
def pushed (q : ConcurrentQueue α) (item : α) : ConcurrentQueue α :=
  (q.stored item).resize (q.size + 1)

/-- Advancing `head` past its slot. -/
def popped (q : ConcurrentQueue α) : ConcurrentQueue α :=
  { q with head := (q.head + 1) % q.capacity, size := q.size - 1 }

theorem WF.pushed {q : ConcurrentQueue α} (h : q.WF) (hlt : q.size < q.capacity) (item : α) :
    (q.pushed item).WF := by
  obtain ⟨hc, h0, hle, hh, ht⟩ := h
  refine ⟨hc, ?_, ?_, hh, ?_⟩
  · change 0 ≤ q.size + 1; omega
  · change q.size + 1 ≤ q.capacity; omega
  · change (q.tail + 1) % q.capacity = (q.head + (q.size + 1).toNat) % q.capacity
    have hs : q.head + (q.size + 1).toNat = q.head + q.size.toNat + 1 := by omega
    rw [ht, hs, Nat.mod_add_mod]

/-- Pushing appends to the contents. -/
theorem contents_pushed {q : ConcurrentQueue α} (h : q.WF) (hlt : q.size < q.capacity) (item : α) :
    (q.pushed item).contents = q.contents ++ [item] := by
  have hs : (q.size + 1).toNat = q.size.toNat + 1 := by have := h.size_nonneg; omega
  simp only [contents, pushed, resize, stored, hs]
  rw [h.tail_eq, cyclic_update_succ]
  have := h.size_nonneg
  omega

theorem WF.popped {q : ConcurrentQueue α} (h : q.WF) (hpos : 0 < q.size) : q.popped.WF := by
  obtain ⟨hc, h0, hle, hh, ht⟩ := h
  refine ⟨hc, ?_, ?_, Nat.mod_lt _ hc, ?_⟩
  · change 0 ≤ q.size - 1; omega
  · change q.size - 1 ≤ q.capacity; omega
  · change q.tail = ((q.head + 1) % q.capacity + (q.size - 1).toNat) % q.capacity
    have hs : q.head + q.size.toNat = q.head + 1 + (q.size - 1).toNat := by omega
    rw [ht, hs, Nat.mod_add_mod]

/-- Popping removes the slot at `head`, the first of the contents. -/
theorem contents_eq_cons {q : ConcurrentQueue α} (h : q.WF) (hpos : 0 < q.size) :
    q.contents = q.buffer q.head :: q.popped.contents := by
  obtain ⟨n, hn⟩ : ∃ n : Nat, q.size = (n : Int) + 1 := ⟨(q.size - 1).toNat, by omega⟩
  have hn' : q.size.toNat = n + 1 := by omega
  have hm : (q.size - 1).toNat = n := by omega
  simp only [contents, popped, hn', hm, cyclic_mod]
  rw [cyclic_cons, Nat.mod_eq_of_lt h.head_lt]

/-! ## The copying loops -/

/-- The loop of `queue_pop_batch` takes the first `n` of the contents. -/
theorem popLoop_spec {q : ConcurrentQueue α} (h : q.WF) (n : Nat) (items : List α)
    (hn : (n : Int) ≤ q.size) :
    (popLoop n q items).1.WF ∧
      (popLoop n q items).1.contents = q.contents.drop n ∧
      (popLoop n q items).2 = items ++ q.contents.take n ∧
      (popLoop n q items).1.size = q.size - n ∧
      (popLoop n q items).1.capacity = q.capacity ∧
      (popLoop n q items).1.shutdown = q.shutdown := by
  induction n generalizing q items with
  | zero => simp [popLoop, h]
  | succ n ih =>
      have hpos : 0 < q.size := by omega
      have hn' : (n : Int) ≤ q.popped.size := by simp only [popped]; omega
      obtain ⟨hwf, hc, hr, hsz, hcap, hsd⟩ := ih (h.popped hpos) (items ++ [q.buffer q.head]) hn'
      rw [contents_eq_cons h hpos]
      refine ⟨hwf, hc, ?_, ?_, hcap, hsd⟩
      · rw [List.append_assoc, List.singleton_append] at hr
        exact hr
      · change (popLoop n q.popped _).1.size = _
        rw [hsz]
        simp only [popped]
        omega

theorem pushLoop_resize (xs : List α) (q : ConcurrentQueue α) (n : Int) :
    pushLoop xs (q.resize n) = (pushLoop xs q).resize n := by
  induction xs generalizing q with
  | nil => rfl
  | cons x xs ih => exact ih (q.stored x)

@[simp] theorem pushLoop_size (xs : List α) (q : ConcurrentQueue α) :
    (pushLoop xs q).size = q.size := by
  induction xs generalizing q with
  | nil => rfl
  | cons x xs ih => exact ih (q.stored x)

/-- `queue_push_batch`'s loop does not look at `size`, so adding `count` once
at the end equals counting every item. -/
theorem pushLoop_eq_foldl (xs : List α) (q : ConcurrentQueue α) :
    (pushLoop xs q).resize (q.size + xs.length) = xs.foldl pushed q := by
  induction xs generalizing q with
  | nil => simp [pushLoop, resize]
  | cons x xs ih =>
      have hsum : q.size + (x :: xs).length = q.size + 1 + xs.length := by
        rw [List.length_cons]; omega
      rw [List.foldl_cons, ← ih, hsum, pushed, pushLoop_resize]
      rfl

/-- Pushing a list that fits appends it. -/
theorem foldl_pushed_spec {q : ConcurrentQueue α} (h : q.WF) (xs : List α)
    (hfit : q.size + xs.length ≤ q.capacity) :
    (xs.foldl pushed q).WF ∧
      (xs.foldl pushed q).contents = q.contents ++ xs ∧
      (xs.foldl pushed q).size = q.size + xs.length ∧
      (xs.foldl pushed q).capacity = q.capacity ∧
      (xs.foldl pushed q).shutdown = q.shutdown := by
  induction xs generalizing q with
  | nil => simp [h]
  | cons x xs ih =>
      rw [List.length_cons] at hfit
      have hlt : q.size < q.capacity := by omega
      have hfit' : (q.pushed x).size + xs.length ≤ (q.pushed x).capacity := by
        simp only [pushed, resize, stored]; omega
      obtain ⟨hwf, hc, hsz, hcap, hsd⟩ := ih (h.pushed hlt x) hfit'
      refine ⟨hwf, ?_, ?_, hcap, hsd⟩
      · rw [List.foldl_cons, hc, contents_pushed h hlt x, List.append_assoc, List.singleton_append]
      · rw [List.foldl_cons, hsz, List.length_cons]
        simp only [pushed, resize]
        omega

/-! ## What each critical section can do -/

/-- The queue `q'` holds `items` and is otherwise set up like `q`. -/
structure Holds (q q' : ConcurrentQueue α) (items : List α) : Prop where
  wf : q'.WF
  contents_eq : q'.contents = items
  capacity_eq : q'.capacity = q.capacity
  shutdown_eq : q'.shutdown = q.shutdown

/-- The size of a queue is the length of what it holds. -/
theorem Holds.size_eq {q q' : ConcurrentQueue α} (h : Holds q q' items) :
    q'.size = items.length := by
  have hl : q'.contents.length = items.length := by rw [h.contents_eq]
  rw [length_contents] at hl
  have := h.wf.size_nonneg
  omega

theorem Holds.refl {q : ConcurrentQueue α} (h : q.WF) : Holds q q q.contents := ⟨h, rfl, rfl, rfl⟩

/-- A push waits exactly while an open queue is full. -/
theorem queuePush_eq_none_iff {q : ConcurrentQueue α} {x : α} :
    queuePush q x = none ↔ q.size = q.capacity ∧ q.shutdown = false := by
  unfold queuePush
  split
  · simp_all
  · split <;> simp_all

/-- A push that does not wait either finds the queue shut down and changes
nothing, or appends its item and signals a consumer. -/
theorem queuePush_eq_some {q : ConcurrentQueue α} (h : q.WF) {x : α} {o : Outcome α Unit}
    (ho : queuePush q x = some o) :
    (q.shutdown = true ∧ o.queue = q ∧ o.notify = .nobody) ∨
    (q.shutdown = false ∧ q.size < q.capacity ∧ Holds q o.queue (q.contents ++ [x]) ∧
      o.notify = .signalEmpty) := by
  unfold queuePush at ho
  split at ho
  · contradiction
  · next hw =>
    split at ho
    · next hsd =>
      obtain rfl := Option.some.inj ho
      exact .inl ⟨hsd, rfl, rfl⟩
    · next hsd =>
      obtain rfl := Option.some.inj ho
      have hopen : q.shutdown = false := by simpa using hsd
      have hlt : q.size < q.capacity := by
        have := h.size_le
        have : q.size ≠ q.capacity := fun he => hw ⟨he, hopen⟩
        omega
      exact .inr ⟨hopen, hlt, ⟨h.pushed hlt x, contents_pushed h hlt x, rfl, rfl⟩, rfl⟩

/-- A pop waits exactly while an open queue is empty. -/
theorem queuePop_eq_none_iff {q : ConcurrentQueue α} :
    queuePop q = none ↔ q.size = 0 ∧ q.shutdown = false := by
  unfold queuePop
  split
  · simp_all
  · split <;> simp_all

/-- A pop that does not wait either finds the queue shut down and empty, or
takes the first item and signals a producer. -/
theorem queuePop_eq_some {q : ConcurrentQueue α} (h : q.WF) {o : Outcome α (Option α)}
    (ho : queuePop q = some o) :
    (q.shutdown = true ∧ q.size = 0 ∧ o.queue = q ∧ o.result = none ∧ o.notify = .nobody) ∨
    (0 < q.size ∧ ∃ x xs, q.contents = x :: xs ∧ Holds q o.queue xs ∧ o.result = some x ∧
      o.notify = .signalFull) := by
  unfold queuePop at ho
  split at ho
  · contradiction
  · next hw =>
    split at ho
    · next hsd =>
      obtain rfl := Option.some.inj ho
      exact .inl ⟨hsd.1, hsd.2, rfl, rfl, rfl⟩
    · next hsd =>
      obtain rfl := Option.some.inj ho
      have hpos : 0 < q.size := by
        have := h.size_nonneg
        have hne : q.size ≠ 0 := by
          intro he
          cases hs : q.shutdown with
          | false => exact hw ⟨he, hs⟩
          | true => exact hsd ⟨hs, he⟩
        omega
      exact .inr ⟨hpos, _, _, contents_eq_cons h hpos, ⟨h.popped hpos, rfl, rfl, rfl⟩, rfl, rfl⟩

/-- A batch pop waits under the same condition as a pop. -/
theorem queuePopBatch_eq_none_iff {q : ConcurrentQueue α} {n : Nat} :
    queuePopBatch q n = none ↔ q.size = 0 ∧ q.shutdown = false := by
  unfold queuePopBatch
  split
  · simp_all
  · split <;> simp_all

/-- A batch pop that does not wait either finds the queue shut down and
empty, or takes the first `min size maxItems` items and, when that is any,
signals one producer. -/
theorem queuePopBatch_eq_some {q : ConcurrentQueue α} (h : q.WF) {n : Nat}
    {o : Outcome α (List α)} (ho : queuePopBatch q n = some o) :
    (q.shutdown = true ∧ q.size = 0 ∧ o.queue = q ∧ o.result = [] ∧ o.notify = .nobody) ∨
    (0 < q.size ∧ Holds q o.queue (q.contents.drop n) ∧ o.result = q.contents.take n ∧
      o.notify = if 0 < n then .signalFull else .nobody) := by
  unfold queuePopBatch at ho
  split at ho
  · contradiction
  · next hw =>
    split at ho
    · next hsd =>
      obtain rfl := Option.some.inj ho
      exact .inl ⟨hsd.1, hsd.2, rfl, rfl, rfl⟩
    · next hsd =>
      have h0 := h.size_nonneg
      have hpos : 0 < q.size := by
        have hne : q.size ≠ 0 := by
          intro he
          cases hs : q.shutdown with
          | false => exact hw ⟨he, hs⟩
          | true => exact hsd ⟨hs, he⟩
        omega
      -- `count_to_pop` is `min size maxItems`, and dropping or taking that many is the same
      obtain ⟨k, hk⟩ : ∃ k, k = (if q.size < (n : Int) then q.size else n).toNat := ⟨_, rfl⟩
      have hkn : k = min q.contents.length n := by rw [hk, length_contents]; split <;> omega
      have hks : (k : Int) ≤ q.size := by rw [hk]; split <;> omega
      obtain ⟨hwf, hc, hr, -, hcap, hsh⟩ := popLoop_spec h k [] hks
      rw [List.nil_append] at hr
      obtain rfl := Option.some.inj ho
      simp only [← hk]
      refine .inr ⟨hpos, ⟨hwf, ?_, hcap, hsh⟩, ?_, ?_⟩
      · rw [hc, hkn]
        rcases Nat.le_total q.contents.length n with hle | hle
        · rw [Nat.min_eq_left hle, List.drop_length, List.drop_eq_nil_of_le hle]
        · rw [Nat.min_eq_right hle]
      · rw [hr, hkn, Nat.min_comm, ← List.take_eq_take_min]
      · rw [hr, List.length_take, length_contents]
        split <;> split <;> first | rfl | omega

/-- A batch push of at least one item waits exactly while an open queue has
no room for the whole batch. -/
theorem queuePushBatch_eq_none_iff {q : ConcurrentQueue α} {xs : List α} :
    queuePushBatch q xs = none ↔
      xs ≠ [] ∧ q.capacity - q.size < xs.length ∧ q.shutdown = false := by
  unfold queuePushBatch
  split
  · simp_all
  · split
    · simp_all
    · split <;> simp_all

/-- A batch push that does not wait has no items, or finds the queue shut
down and changes nothing, or appends all its items and wakes all consumers. -/
theorem queuePushBatch_eq_some {q : ConcurrentQueue α} (h : q.WF) {xs : List α}
    {o : Outcome α Unit} (ho : queuePushBatch q xs = some o) :
    (xs = [] ∧ o.queue = q ∧ o.notify = .nobody) ∨
    (q.shutdown = true ∧ o.queue = q ∧ o.notify = .nobody) ∨
    (xs ≠ [] ∧ q.shutdown = false ∧ q.size + xs.length ≤ q.capacity ∧
      Holds q o.queue (q.contents ++ xs) ∧ o.notify = .broadcastEmpty) := by
  unfold queuePushBatch at ho
  split at ho
  · next hnil =>
    obtain rfl := Option.some.inj ho
    exact .inl ⟨hnil, rfl, rfl⟩
  · next hne =>
    split at ho
    · contradiction
    · next hw =>
      split at ho
      · next hsd =>
        obtain rfl := Option.some.inj ho
        exact .inr (.inl ⟨hsd, rfl, rfl⟩)
      · next hsd =>
        obtain rfl := Option.some.inj ho
        have hopen : q.shutdown = false := by simpa using hsd
        have hfit : q.size + xs.length ≤ q.capacity := by
          by_contra hnot
          exact hw ⟨by omega, hopen⟩
        obtain ⟨hwf, hc, -, hcap, hsh⟩ := foldl_pushed_spec h xs hfit
        have hq : { pushLoop xs q with size := (pushLoop xs q).size + xs.length } =
            xs.foldl pushed q := by
          rw [pushLoop_size]
          exact pushLoop_eq_foldl xs q
        rw [hq]
        exact .inr (.inr ⟨hne, hopen, hfit, ⟨hwf, hc, hcap, hsh⟩, rfl⟩)

/-- Shutting down touches nothing but the flag. -/
theorem WF.shutdown {q : ConcurrentQueue α} (h : q.WF) : (queueSignalShutdown q).queue.WF :=
  ⟨h.capacity_pos, h.size_nonneg, h.size_le, h.head_lt, h.tail_eq⟩

end ConcurrentQueue

end Profiling
