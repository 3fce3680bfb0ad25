import Profiling.Machine
import Profiling.Queue

/-!
# Profiling.Queue.Fifo

What the queue is for: a bounded first-in first-out list.

`BoundedFifo` is a list that carries the proof that it fits its capacity;
`BoundedFifo.call` says what each queue call does to it, in four lines.
`call_refines` shows that every critical section of `Profiling.Queue` does
exactly that to the list the cyclic buffer represents, and `queueMachine`
runs the sections in any interleaving: the threads of a run are the first
components of its labels, and one section is one step.
-/

namespace Profiling

/-- The calls a thread can make on the queue. -/
inductive QueueCall (α : Type) where
  | push (item : α)
  | pushBatch (items : List α)
  | pop
  | popBatch (maxItems : Nat)
  | signalShutdown
  deriving DecidableEq, Repr

/-- What a call returns: nothing, `queue_pop`'s pointer (`none` is the `NULL`
of its shutdown branch), or the items a batch pop filled in. -/
inductive QueueReturn (α : Type) where
  | void
  | item (x : Option α)
  | items (xs : List α)
  deriving DecidableEq, Repr

/-- The items a call hands out. -/
def QueueReturn.delivered : QueueReturn α → List α
  | .void => []
  | .item x => x.toList
  | .items xs => xs

namespace QueueCall

/-- The batch a call offers to the queue, if it is a push. -/
def offered : QueueCall α → List (List α)
  | .push x => [[x]]
  | .pushBatch xs => [xs]
  | _ => []

/-- The critical section of a call; `none` while its wait condition holds. -/
def enter (q : ConcurrentQueue α) : QueueCall α → Option (Outcome α (QueueReturn α))
  | .push x => (queuePush q x).map fun o => ⟨o.queue, .void, o.notify⟩
  | .pushBatch xs => (queuePushBatch q xs).map fun o => ⟨o.queue, .void, o.notify⟩
  | .pop => (queuePop q).map fun o => ⟨o.queue, .item o.result, o.notify⟩
  | .popBatch n => (queuePopBatch q n).map fun o => ⟨o.queue, .items o.result, o.notify⟩
  | .signalShutdown =>
      let o := queueSignalShutdown q
      some ⟨o.queue, .void, o.notify⟩

end QueueCall

/-! ## The abstract queue -/

/-- A first-in first-out list that fits a fixed capacity. -/
structure BoundedFifo (α : Type) where
  capacity : Nat
  items : List α
  closed : Bool
  fits : items.length ≤ capacity

namespace BoundedFifo

/-- Append a batch, all or nothing; a closed list takes nothing more. -/
def append (f : BoundedFifo α) (xs : List α) : Option (BoundedFifo α) :=
  if f.closed then some f
  else if h : (f.items ++ xs).length ≤ f.capacity then
    some { f with items := f.items ++ xs, fits := h }
  else none

/-- Remove the first `n`. -/
def drop (f : BoundedFifo α) (n : Nat) : BoundedFifo α :=
  { f with items := f.items.drop n, fits := by have := f.fits; rw [List.length_drop]; omega }

/-- What a call does to the list, and what it returns; `none` while the call
has to wait. -/
def call (f : BoundedFifo α) : QueueCall α → Option (BoundedFifo α × QueueReturn α)
  | .push x => (f.append [x]).map (·, .void)
  | .pushBatch xs => (f.append xs).map (·, .void)
  | .pop =>
      if f.items = [] ∧ f.closed = false then none else some (f.drop 1, .item f.items.head?)
  | .popBatch n =>
      if f.items = [] ∧ f.closed = false then none else some (f.drop n, .items (f.items.take n))
  | .signalShutdown => some ({ f with closed := true }, .void)

/-- The empty open list. -/
def empty (capacity : Nat) : BoundedFifo α := ⟨capacity, [], false, Nat.zero_le _⟩

/-- The calls of a run one after the other, with what each returned. -/
def calls (f : BoundedFifo α) : List (QueueCall α) → Option (BoundedFifo α × List (QueueReturn α))
  | [] => some (f, [])
  | c :: cs => (f.call c).bind fun p => (p.1.calls cs).map fun r => (r.1, p.2 :: r.2)

end BoundedFifo

/-! ## The cyclic buffer refines it -/

/-- The queue `q` represents the list `f`. -/
structure Refines (q : ConcurrentQueue α) (f : BoundedFifo α) : Prop where
  wf : q.WF
  capacity_eq : f.capacity = q.capacity
  items_eq : f.items = q.contents
  closed_eq : f.closed = q.shutdown

namespace Refines

variable {q : ConcurrentQueue α} {f : BoundedFifo α}

theorem items_eq_nil_iff (h : Refines q f) : f.items = [] ↔ q.size = 0 := by
  rw [h.items_eq, ConcurrentQueue.contents_eq_nil_iff h.wf]

/-- The list's length is the queue's `size`. -/
theorem length_items (h : Refines q f) : (f.items.length : Int) = q.size := by
  rw [h.items_eq, ConcurrentQueue.length_contents]
  have := h.wf.size_nonneg
  omega

/-- A section that leaves `items` in the queue leaves it representing any
list of those items with the same capacity and flag. -/
theorem of_holds (h : Refines q f) {q' : ConcurrentQueue α} {items : List α}
    (hq : ConcurrentQueue.Holds q q' items) {f' : BoundedFifo α} (hcap : f'.capacity = f.capacity)
    (hitems : f'.items = items) (hclosed : f'.closed = f.closed) : Refines q' f' :=
  ⟨hq.wf, by rw [hcap, h.capacity_eq, hq.capacity_eq], by rw [hitems, hq.contents_eq],
    by rw [hclosed, h.closed_eq, hq.shutdown_eq]⟩

/-- Appending to the list: what both push functions do. -/
theorem append_eq_some (h : Refines q f) {q' : ConcurrentQueue α} {xs : List α}
    (hopen : q.shutdown = false) (hfit : q.size + xs.length ≤ q.capacity)
    (hq : ConcurrentQueue.Holds q q' (q.contents ++ xs)) :
    ∃ f', f.append xs = some f' ∧ Refines q' f' := by
  have hlen : (f.items ++ xs).length ≤ f.capacity := by
    have hl := h.length_items
    rw [List.length_append, h.capacity_eq]
    omega
  have hc : f.closed = false := by rw [h.closed_eq, hopen]
  refine ⟨{ f with items := f.items ++ xs, fits := hlen }, ?_, ?_⟩
  · simp only [BoundedFifo.append, hc, Bool.false_eq_true, if_false]
    exact dif_pos hlen
  · exact h.of_holds hq rfl (congrArg (· ++ xs) h.items_eq) rfl

/-- A closed list accepts nothing. -/
theorem append_of_closed (h : Refines q f) (hsd : q.shutdown = true) (xs : List α) :
    f.append xs = some f := by
  simp [BoundedFifo.append, h.closed_eq, hsd]

/-- An open list without room makes the push wait. -/
theorem append_eq_none (h : Refines q f) {xs : List α} (hopen : q.shutdown = false)
    (hfull : q.capacity - q.size < xs.length) : f.append xs = none := by
  have hl := h.length_items
  have hc : f.closed = false := by rw [h.closed_eq, hopen]
  have hnot : ¬ (f.items ++ xs).length ≤ f.capacity := by
    rw [List.length_append, h.capacity_eq]
    omega
  simp only [BoundedFifo.append, hc, Bool.false_eq_true, if_false]
  exact dif_neg hnot

/-- Removing from the list: what both pop functions do. -/
theorem drop (h : Refines q f) {q' : ConcurrentQueue α} {n : Nat}
    (hq : ConcurrentQueue.Holds q q' (q.contents.drop n)) : Refines q' (f.drop n) :=
  h.of_holds hq rfl (congrArg (List.drop n) h.items_eq) rfl

/-- The list makes a pop wait when the queue does. -/
theorem waits_iff (h : Refines q f) :
    (f.items = [] ∧ f.closed = false) ↔ q.size = 0 ∧ q.shutdown = false := by
  rw [h.items_eq_nil_iff, h.closed_eq]

/-- Nothing can be removed from an empty list. -/
theorem drop_of_empty (h : Refines q f) (hempty : q.size = 0) (n : Nat) :
    Refines q (f.drop n) := by
  have hnil : q.contents = [] := h.items_eq ▸ h.items_eq_nil_iff.mpr hempty
  have hsame : ConcurrentQueue.Holds q q (q.contents.drop n) := by
    rw [hnil, List.drop_nil, ← hnil]
    exact ConcurrentQueue.Holds.refl h.wf
  exact h.drop hsame

end Refines

open ConcurrentQueue

/-- A section and the abstract call agree: both wait, or both go through with
the same return value and the queue still represents the list. -/
def Agrees (o : Option (Outcome α (QueueReturn α)))
    (p : Option (BoundedFifo α × QueueReturn α)) : Prop :=
  match o, p with
  | none, none => True
  | some o, some p => Refines o.queue p.1 ∧ o.result = p.2
  | _, _ => False

section Simulation

variable {q : ConcurrentQueue α} {f : BoundedFifo α}

theorem push_refines (h : Refines q f) (x : α) :
    Agrees (QueueCall.enter q (.push x)) (f.call (.push x)) := by
  cases ho : queuePush q x with
  | none =>
      obtain ⟨hfull, hopen⟩ := queuePush_eq_none_iff.mp ho
      have hnone : f.append [x] = none := h.append_eq_none hopen (by simp; omega)
      simp [QueueCall.enter, BoundedFifo.call, ho, hnone, Agrees]
  | some o =>
      rcases queuePush_eq_some h.wf ho with ⟨hsd, hq, -⟩ | ⟨hopen, hlt, hq, -⟩
      · simp [QueueCall.enter, BoundedFifo.call, ho, h.append_of_closed hsd, Agrees, hq, h]
      · have happ : ∃ f', f.append [x] = some f' ∧ Refines o.queue f' :=
          h.append_eq_some hopen (by simp; omega) hq
        obtain ⟨f', hf', hr⟩ := happ
        simp [QueueCall.enter, BoundedFifo.call, ho, hf', Agrees, hr]

theorem pushBatch_refines (h : Refines q f) (xs : List α) :
    Agrees (QueueCall.enter q (.pushBatch xs)) (f.call (.pushBatch xs)) := by
  cases ho : queuePushBatch q xs with
  | none =>
      obtain ⟨-, hfull, hopen⟩ := queuePushBatch_eq_none_iff.mp ho
      simp [QueueCall.enter, BoundedFifo.call, ho, h.append_eq_none hopen hfull, Agrees]
  | some o =>
      rcases queuePushBatch_eq_some h.wf ho with
        ⟨hnil, hq, -⟩ | ⟨hsd, hq, -⟩ | ⟨-, hopen, hfit, hq, -⟩
      · -- an empty batch returns before the lock is taken
        cases hsd : q.shutdown with
        | true =>
            simp [QueueCall.enter, BoundedFifo.call, ho, h.append_of_closed hsd, Agrees, hq, h]
        | false =>
            have hsame : Holds q o.queue (q.contents ++ xs) := by
              rw [hq, hnil, List.append_nil]
              exact Holds.refl h.wf
            have hfit : q.size + xs.length ≤ q.capacity := by
              have := h.wf.size_le
              simp [hnil, this]
            obtain ⟨f', hf', hr⟩ := h.append_eq_some hsd hfit hsame
            simp [QueueCall.enter, BoundedFifo.call, ho, hf', Agrees, hr]
      · simp [QueueCall.enter, BoundedFifo.call, ho, h.append_of_closed hsd, Agrees, hq, h]
      · obtain ⟨f', hf', hr⟩ := h.append_eq_some hopen hfit hq
        simp [QueueCall.enter, BoundedFifo.call, ho, hf', Agrees, hr]

theorem pop_refines (h : Refines q f) : Agrees (QueueCall.enter q .pop) (f.call .pop) := by
  cases ho : queuePop q with
  | none =>
      obtain ⟨hempty, hopen⟩ := queuePop_eq_none_iff.mp ho
      simp [QueueCall.enter, BoundedFifo.call, ho, h.items_eq_nil_iff, h.closed_eq, hempty, hopen,
        Agrees]
  | some o =>
      have hgo : ¬ (f.items = [] ∧ f.closed = false) := by
        intro hw
        rw [queuePop_eq_none_iff.mpr (h.waits_iff.mp hw)] at ho
        contradiction
      simp only [QueueCall.enter, BoundedFifo.call, ho, Option.map_some, if_neg hgo, Agrees]
      rcases queuePop_eq_some h.wf ho with ⟨-, hempty, hq, hres, -⟩ | ⟨-, x, xs, hc, hq, hres, -⟩
      · have hnil : f.items = [] := h.items_eq_nil_iff.mpr hempty
        refine ⟨?_, by rw [hres, hnil]; rfl⟩
        rw [hq]
        exact h.drop_of_empty hempty 1
      · refine ⟨h.drop (by rw [hc]; exact hq), ?_⟩
        rw [hres, h.items_eq, hc]
        rfl

theorem popBatch_refines (h : Refines q f) (n : Nat) :
    Agrees (QueueCall.enter q (.popBatch n)) (f.call (.popBatch n)) := by
  cases ho : queuePopBatch q n with
  | none =>
      obtain ⟨hempty, hopen⟩ := queuePopBatch_eq_none_iff.mp ho
      simp [QueueCall.enter, BoundedFifo.call, ho, h.items_eq_nil_iff, h.closed_eq, hempty, hopen,
        Agrees]
  | some o =>
      have hgo : ¬ (f.items = [] ∧ f.closed = false) := by
        intro hw
        rw [queuePopBatch_eq_none_iff.mpr (h.waits_iff.mp hw)] at ho
        contradiction
      simp only [QueueCall.enter, BoundedFifo.call, ho, Option.map_some, if_neg hgo, Agrees]
      rcases queuePopBatch_eq_some h.wf ho with ⟨-, hempty, hq, hres, -⟩ | ⟨-, hq, hres, -⟩
      · have hnil : f.items = [] := h.items_eq_nil_iff.mpr hempty
        refine ⟨?_, by rw [hres, hnil, List.take_nil]⟩
        rw [hq]
        exact h.drop_of_empty hempty n
      · exact ⟨h.drop hq, by rw [hres, h.items_eq]⟩

theorem signalShutdown_refines (h : Refines q f) :
    Agrees (QueueCall.enter q .signalShutdown) (f.call .signalShutdown) :=
  ⟨⟨h.wf.shutdown, h.capacity_eq, h.items_eq, rfl⟩, rfl⟩

/-- **Refinement square**: every critical section does to the represented
list what the abstract call does. -/
theorem call_refines (h : Refines q f) (c : QueueCall α) : Agrees (c.enter q) (f.call c) := by
  cases c with
  | push x => exact push_refines h x
  | pushBatch xs => exact pushBatch_refines h xs
  | pop => exact pop_refines h
  | popBatch n => exact popBatch_refines h n
  | signalShutdown => exact signalShutdown_refines h

/-- The square as a step: a section that goes through is matched by the list. -/
theorem call_refines_some (h : Refines q f) {c : QueueCall α} {o : Outcome α (QueueReturn α)}
    (ho : c.enter q = some o) : ∃ f', f.call c = some (f', o.result) ∧ Refines o.queue f' := by
  have hsq := call_refines h c
  rw [ho] at hsq
  cases hf : f.call c with
  | none => rw [hf] at hsq; exact hsq.elim
  | some p =>
      rw [hf] at hsq
      obtain ⟨hr, hres⟩ := hsq
      exact ⟨p.1, by rw [hres], hr⟩

end Simulation

/-! ## Runs of any number of threads -/

/-- A queue together with what has happened to it: the batches whose push
took effect, and what every call returned. -/
structure QueueTrace (α : Type) where
  queue : ConcurrentQueue α
  accepted : List (List α)
  returns : List (QueueReturn α)

namespace QueueTrace

/-- All items popped so far, in order. -/
def popped (s : QueueTrace α) : List α := (s.returns.map QueueReturn.delivered).flatten

/-- Thread `l.1` takes the critical section of the call `l.2`. -/
def step (s : QueueTrace α) (l : Nat × QueueCall α) : Option (QueueTrace α) :=
  (l.2.enter s.queue).map fun o =>
    { queue := o.queue
      accepted := if s.queue.shutdown then s.accepted else s.accepted ++ l.2.offered
      returns := s.returns ++ [o.result] }

end QueueTrace

/-- The queue of `queue_init` under calls of any threads in any order. -/
def queueMachine (mem : Nat → α) (capacity : Nat) : Machine (QueueTrace α) (Nat × QueueCall α) where
  init s := ∃ q, queueInit true (some mem) capacity = some q ∧ s = ⟨q, [], []⟩
  step := QueueTrace.step

/-- Everything accepted has been popped or is still queued, in order. -/
def Conserves (s : QueueTrace α) : Prop :=
  s.queue.WF ∧ s.popped ++ s.queue.contents = s.accepted.flatten

/-- The abstract call conserves items: what it returns and keeps is what the
list held followed by what it took. -/
theorem call_conserves {f f' : BoundedFifo α} {c : QueueCall α} {r : QueueReturn α}
    (h : f.call c = some (f', r)) :
    r.delivered ++ f'.items =
      f.items ++ if f.closed then [] else c.offered.flatten := by
  have happend : ∀ {xs : List α} {g : BoundedFifo α}, f.append xs = some g →
      g.items = f.items ++ if f.closed then [] else xs := by
    intro xs g hg
    unfold BoundedFifo.append at hg
    split at hg
    · next hc =>
      obtain rfl := Option.some.inj hg
      simp [hc]
    · next hc =>
      split at hg
      · obtain rfl := Option.some.inj hg
        simp [hc]
      · contradiction
  cases c with
  | push x =>
      obtain ⟨g, hg, heq⟩ := Option.map_eq_some_iff.mp h
      obtain ⟨rfl, rfl⟩ := Prod.mk.inj heq
      simp [QueueReturn.delivered, QueueCall.offered, happend hg]
  | pushBatch xs =>
      obtain ⟨g, hg, heq⟩ := Option.map_eq_some_iff.mp h
      obtain ⟨rfl, rfl⟩ := Prod.mk.inj heq
      simp [QueueReturn.delivered, QueueCall.offered, happend hg]
  | pop =>
      simp only [BoundedFifo.call] at h
      split at h
      · contradiction
      · obtain ⟨rfl, rfl⟩ := Prod.mk.inj (Option.some.inj h)
        cases hi : f.items <;>
          simp [QueueReturn.delivered, QueueCall.offered, BoundedFifo.drop, hi]
  | popBatch n =>
      simp only [BoundedFifo.call] at h
      split at h
      · contradiction
      · obtain ⟨rfl, rfl⟩ := Prod.mk.inj (Option.some.inj h)
        simp [QueueReturn.delivered, QueueCall.offered, BoundedFifo.drop]
  | signalShutdown =>
      obtain ⟨rfl, rfl⟩ := Prod.mk.inj (Option.some.inj h)
      simp [QueueReturn.delivered, QueueCall.offered]

/-- No call changes the capacity. -/
theorem call_capacity {f f' : BoundedFifo α} {c : QueueCall α} {r : QueueReturn α}
    (h : f.call c = some (f', r)) : f'.capacity = f.capacity := by
  cases c <;> grind [BoundedFifo.call, BoundedFifo.append, BoundedFifo.drop]

theorem calls_capacity {f f' : BoundedFifo α} {cs : List (QueueCall α)}
    {rs : List (QueueReturn α)} (h : f.calls cs = some (f', rs)) : f'.capacity = f.capacity := by
  induction cs generalizing f rs with
  | nil =>
      obtain ⟨rfl, -⟩ := Prod.mk.inj (Option.some.inj h)
      rfl
  | cons c cs ih =>
      obtain ⟨p, hp, hrest⟩ := Option.bind_eq_some_iff.mp h
      obtain ⟨r, hr, heq⟩ := Option.map_eq_some_iff.mp hrest
      obtain ⟨rfl, -⟩ := Prod.mk.inj heq
      rw [ih hr, call_capacity hp]

/-- One critical section keeps every item accounted for. -/
theorem conserves_step {s t : QueueTrace α} {l : Nat × QueueCall α} (h : Conserves s)
    (hstep : s.step l = some t) : Conserves t := by
  obtain ⟨hwf, hcons⟩ := h
  obtain ⟨o, ho, rfl⟩ := Option.map_eq_some_iff.mp hstep
  let f : BoundedFifo α :=
    ⟨s.queue.capacity, s.queue.contents, s.queue.shutdown, by
      have h1 := hwf.size_le
      have h2 := hwf.size_nonneg
      rw [length_contents]; omega⟩
  have href : Refines s.queue f := ⟨hwf, rfl, rfl, rfl⟩
  obtain ⟨f', hf', href'⟩ := call_refines_some href ho
  have hitems := call_conserves hf'
  rw [href'.items_eq] at hitems
  refine ⟨href'.wf, ?_⟩
  simp only [QueueTrace.popped, List.map_append, List.flatten_append, List.map_cons, List.map_nil,
    List.flatten_cons, List.flatten_nil, List.append_nil, List.append_assoc]
  rw [hitems, ← List.append_assoc]
  change s.popped ++ s.queue.contents ++ _ = _
  rw [hcons]
  change s.accepted.flatten ++ (if s.queue.shutdown then [] else l.2.offered.flatten) = _
  cases s.queue.shutdown <;> simp

/-- The list a run's queue represents is reached by the same calls on the
empty list, with the same returns. -/
theorem run_refines {q : ConcurrentQueue α} {f : BoundedFifo α} (h : Refines q f)
    {mem : Nat → α} {cap : Nat} {acc : List (List α)} {rets : List (QueueReturn α)}
    {calls : List (Nat × QueueCall α)} {s : QueueTrace α}
    (hrun : (queueMachine mem cap).run ⟨q, acc, rets⟩ calls = some s) :
    ∃ f' new, f.calls (calls.map Prod.snd) = some (f', new) ∧ Refines s.queue f' ∧
      s.returns = rets ++ new := by
  induction calls generalizing q f acc rets with
  | nil =>
      obtain rfl := Option.some.inj hrun
      exact ⟨f, [], rfl, h, by simp⟩
  | cons l calls ih =>
      rw [Machine.run_cons] at hrun
      obtain ⟨t, ht, hrest⟩ := Option.bind_eq_some_iff.mp hrun
      obtain ⟨o, ho, rfl⟩ := Option.map_eq_some_iff.mp ht
      obtain ⟨f₁, hf₁, href⟩ := call_refines_some h ho
      obtain ⟨f', new, hcalls, hr, hrets⟩ := ih href hrest
      refine ⟨f', o.result :: new, ?_, hr, ?_⟩
      · simp [BoundedFifo.calls, hf₁, hcalls]
      · rw [hrets, List.append_assoc, List.singleton_append]

/-! ## The queue is a bounded FIFO -/

/-- A batch pop returns as many items from the front as there are and fit. -/
theorem result_queuePopBatch {q : ConcurrentQueue α} (hwf : q.WF) {n : Nat}
    {o : Outcome α (List α)} (ho : queuePopBatch q n = some o) :
    o.result = q.contents.take (min q.size.toNat n) := by
  rw [← length_contents, Nat.min_comm, ← List.take_eq_take_min]
  rcases queuePopBatch_eq_some hwf ho with ⟨-, h0, -, hres, -⟩ | ⟨-, -, hres, -⟩
  · rw [hres, (contents_eq_nil_iff hwf).mpr h0, List.take_nil]
  · exact hres

/-- After the shutdown, pushing changes nothing. -/
theorem push_of_shutdown {q : ConcurrentQueue α} (hsd : q.shutdown = true) :
    (∀ x, ∃ o, queuePush q x = some o ∧ o.queue = q) ∧
      ∀ xs, ∃ o, queuePushBatch q xs = some o ∧ o.queue = q := by
  constructor
  · exact fun x => ⟨⟨q, (), .nobody⟩, by simp [queuePush, hsd], rfl⟩
  · exact fun xs => ⟨⟨q, (), .nobody⟩, by simp [queuePushBatch, hsd], rfl⟩

/-- A `NULL` from a pop means that the queue is shut down and empty. -/
theorem drained_of_pop {q : ConcurrentQueue α} (hwf : q.WF) {o : Outcome α (Option α)}
    (ho : queuePop q = some o) (hnull : o.result = none) : q.shutdown = true ∧ q.size = 0 := by
  rcases queuePop_eq_some hwf ho with ⟨hsd, h0, -⟩ | ⟨-, x, xs, -, -, hres, -⟩
  · exact ⟨hsd, h0⟩
  · rw [hres] at hnull
    contradiction

/-- So does a 0 from a batch pop. -/
theorem drained_of_popBatch {q : ConcurrentQueue α} (hwf : q.WF) {n : Nat} (hn : 1 ≤ n)
    {o : Outcome α (List α)} (ho : queuePopBatch q n = some o) (hres : o.result = []) :
    q.shutdown = true ∧ q.size = 0 := by
  rcases queuePopBatch_eq_some hwf ho with ⟨hsd, h0, -⟩ | ⟨hpos, -, htake, -⟩
  · exact ⟨hsd, h0⟩
  · rw [hres] at htake
    have hlen : (q.contents.take n).length = 0 := by rw [← htake]; rfl
    rw [List.length_take, length_contents] at hlen
    omega

/-- **The cyclic buffer is a bounded FIFO list**, for every capacity, any
number of threads and every interleaving of their critical sections. -/
theorem queue_is_bounded_fifo (mem : Nat → α) (capacity : Nat) (hcap : 1 ≤ capacity)
    (q₀ : ConcurrentQueue α) (hinit : queueInit true (some mem) capacity = some q₀)
    (calls : List (Nat × QueueCall α)) (s : QueueTrace α)
    (hrun : (queueMachine mem capacity).run ⟨q₀, [], []⟩ calls = some s) :
    (∃ f, (BoundedFifo.empty capacity).calls (calls.map Prod.snd) = some (f, s.returns) ∧
        Refines s.queue f) ∧
      s.popped ++ s.queue.contents = s.accepted.flatten ∧
      s.queue.capacity = capacity ∧
      0 ≤ s.queue.size ∧ s.queue.size ≤ capacity ∧
      s.queue.tail = (s.queue.head + s.queue.size.toNat) % capacity ∧
      (∀ n o, queuePopBatch s.queue n = some o →
        o.result = s.queue.contents.take (min s.queue.size.toNat n)) ∧
      (s.queue.shutdown = true →
        (∀ x, ∃ o, queuePush s.queue x = some o ∧ o.queue = s.queue) ∧
          ∀ xs, ∃ o, queuePushBatch s.queue xs = some o ∧ o.queue = s.queue) ∧
      (∀ o, queuePop s.queue = some o → o.result = none →
        s.queue.shutdown = true ∧ s.popped = s.accepted.flatten) ∧
      (∀ n o, 1 ≤ n → queuePopBatch s.queue n = some o → o.result = [] →
        s.queue.shutdown = true ∧ s.popped = s.accepted.flatten) := by
  obtain ⟨hwf₀, hnil, hcap₀, hopen₀⟩ := wf_queueInit hcap hinit
  have href₀ : Refines q₀ (BoundedFifo.empty capacity) := ⟨hwf₀, hcap₀.symm, hnil.symm, hopen₀.symm⟩
  obtain ⟨f, new, hcalls, href, hrets⟩ := run_refines href₀ hrun
  rw [List.nil_append] at hrets
  have hcapf : s.queue.capacity = capacity := by
    rw [← href.capacity_eq, calls_capacity hcalls]
    rfl
  have hcons : Conserves s :=
    (queueMachine mem capacity).run_induction (fun _ _ _ => conserves_step)
      (⟨hwf₀, by simp [QueueTrace.popped, hnil]⟩ : Conserves ⟨q₀, [], []⟩) hrun
  obtain ⟨hwf, hitems⟩ := hcons
  -- an empty queue has nothing left of what was accepted
  have hdrained : s.queue.size = 0 → s.popped = s.accepted.flatten := by
    intro h0
    rw [← hitems, (contents_eq_nil_iff hwf).mpr h0, List.append_nil]
  exact ⟨⟨f, by rw [hrets]; exact hcalls, href⟩, hitems, hcapf, hwf.size_nonneg,
    hcapf ▸ hwf.size_le, hcapf ▸ hwf.tail_eq, fun n o ho => result_queuePopBatch hwf ho,
    push_of_shutdown, fun o ho hnull => (drained_of_pop hwf ho hnull).imp_right hdrained,
    fun n o hn ho hres => (drained_of_popBatch hwf hn ho hres).imp_right hdrained⟩

/-- A run of four threads over a buffer of three slots that wraps around: a
batch, a batch pop, another batch behind it, the shutdown, a push that is
too late. -/
theorem queue_is_bounded_fifo_wraps :
    ∃ s : QueueTrace Nat, s.popped ++ s.queue.contents = s.accepted.flatten ∧
      s.popped = [1, 2] ∧ s.accepted = [[1, 2, 3], [4, 5]] ∧ s.queue.head = 2 := by
  obtain ⟨s, hs⟩ : ∃ s, (queueMachine (fun _ => 0) 3).run
      ⟨⟨fun _ => 0, 3, 0, 0, 0, false⟩, [], []⟩
      [(0, .pushBatch [1, 2, 3]), (1, .popBatch 2), (2, .pushBatch [4, 5]), (3, .signalShutdown),
        (0, .push 6)] = some s := ⟨_, rfl⟩
  refine ⟨s, (queue_is_bounded_fifo (fun _ => 0) 3 (by decide) _ rfl _ s hs).2.1, ?_⟩
  obtain rfl := Option.some.inj hs
  decide

end Profiling
