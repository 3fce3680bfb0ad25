import Mathlib.Data.List.Chain
import Mathlib.Data.List.Nodup
import Mathlib.Logic.Function.Basic

/-!
# Profiling.ListHead

Doubly linked lists that are closed to a ring by a head, in a heap of nodes.

Every access to a node that is not allocated fails, and so does following a
`NULL` link: an operation that goes through has touched allocated nodes only.  The
links of a node that was freed are still there, as stale as they are.

`Ring m head xs` reads the heap as a list: from the head on, the nodes of `xs`
follow one another both ways.  Adding a node is then `xs ++ [new]`, and removing one
leaves the others (`Ring.listAddTail`, `Ring.listDel`).
-/

namespace Profiling

/-- The nodes of lists, with what is allocated and the two links; `none` is `NULL`. -/
structure ListHeap (α : Type u) where
  live : α → Bool
  next : α → Option α
  prev : α → Option α

namespace ListHeap

variable {α : Type u} [DecidableEq α]

/-! ## Access -/

/-- Nothing is allocated. -/
def empty : ListHeap α := ⟨fun _ => false, fun _ => none, fun _ => none⟩

/-- `a->next` -/
def getNext (m : ListHeap α) (a : α) : Option (Option α) :=
  if m.live a then some (m.next a) else none

/-- `a->prev` -/
def getPrev (m : ListHeap α) (a : α) : Option (Option α) :=
  if m.live a then some (m.prev a) else none

/-- `a->next = link` -/
def setNext (m : ListHeap α) (a : α) (link : Option α) : Option (ListHeap α) :=
  if m.live a then some { m with next := Function.update m.next a link } else none

/-- `a->prev = link` -/
def setPrev (m : ListHeap α) (a : α) (link : Option α) : Option (ListHeap α) :=
  if m.live a then some { m with prev := Function.update m.prev a link } else none

/-- An allocation of zeros. -/
def calloc (m : ListHeap α) (a : α) : ListHeap α where
  live := Function.update m.live a true
  next := Function.update m.next a none
  prev := Function.update m.prev a none

/-- `free`, of a node that is allocated. -/
def free (m : ListHeap α) (a : α) : Option (ListHeap α) :=
  if m.live a then some { m with live := Function.update m.live a false } else none

/-! ## The operations -/

/-- `INIT_LIST_HEAD` -/
def initListHead (m : ListHeap α) (list : α) : Option (ListHeap α) := do
  let m ← m.setNext list (some list)
  m.setPrev list (some list)

/-- `list_empty` -/
def listEmpty (m : ListHeap α) (head : α) : Option Bool :=
  (m.getNext head).map fun next => next == some head

/-- `list_add_tail` -/
def listAddTail (m : ListHeap α) (new head : α) : Option (ListHeap α) := do
  let m ← m.setNext new (some head)
  let m ← m.setPrev new (← m.getPrev head)
  let last ← (← m.getPrev head)
  let m ← m.setNext last (some new)
  m.setPrev head (some new)

/-- `list_del` -/
def listDel (m : ListHeap α) (entry : α) : Option (ListHeap α) := do
  let next ← (← m.getNext entry)
  let m ← m.setPrev next (← m.getPrev entry)
  let prev ← (← m.getPrev entry)
  let m ← m.setNext prev (← m.getNext entry)
  let m ← m.setNext entry none
  m.setPrev entry none

/-! ## Rings -/

/-- The links lead from `a` to `b`, and back. -/
def Linked (m : ListHeap α) (a b : α) : Prop := m.next a = some b ∧ m.prev b = some a

/-- From the head on, the nodes are those of the list. -/
structure Ring (m : ListHeap α) (head : α) (xs : List α) : Prop where
  nodup : (head :: xs).Nodup
  live : ∀ a ∈ head :: xs, m.live a = true
  links : (head :: xs ++ [head]).IsChain m.Linked

section

omit [DecidableEq α]

variable {m m' : ListHeap α} {head : α} {xs : List α}

/-- The first node, or the head again. -/
theorem Ring.next_head (h : m.Ring head xs) : m.next head = some ((xs ++ [head]).head (by simp)) := by
  have hlinks := h.links
  cases xs with
  | nil => exact (List.isChain_pair.mp hlinks).1
  | cons x xs => exact (List.isChain_cons_cons.mp hlinks).1.1

/-- A ring does not depend on the nodes that are not in it. -/
theorem Ring.congr (h : m.Ring head xs) (hlive : ∀ a ∈ head :: xs, m'.live a = m.live a)
    (hnext : ∀ a ∈ head :: xs, m'.next a = m.next a)
    (hprev : ∀ a ∈ head :: xs, m'.prev a = m.prev a) : m'.Ring head xs := by
  refine ⟨h.nodup, fun a ha => (hlive a ha).trans (h.live a ha), ?_⟩
  have hmem : ∀ a ∈ head :: xs ++ [head], a ∈ head :: xs := by simp [or_comm]
  refine h.links.imp_of_mem_imp fun a b ha hb hab => ?_
  rw [Linked, hnext a (hmem a ha), hprev b (hmem b hb)]
  exact hab

end

section

variable {m : ListHeap α} {head a : α} {xs as bs : List α}

theorem ring_initListHead (h : m.live head = true) :
    ∃ m', m.initListHead head = some m' ∧ m'.Ring head [] ∧ m'.live = m.live := by
  refine ⟨{ m with
    next := Function.update m.next head (some head)
    prev := Function.update m.prev head (some head) }, ?_, ⟨?_, ?_, ?_⟩, rfl⟩
  · simp [initListHead, setNext, setPrev, h]
  · exact List.nodup_singleton head
  · simpa using h
  · simp [Linked]

theorem Ring.listEmpty (h : m.Ring head xs) : m.listEmpty head = some xs.isEmpty := by
  have hlive : m.live head = true := h.live head List.mem_cons_self
  have hnodup := h.nodup
  rw [ListHeap.listEmpty, getNext, if_pos hlive, h.next_head]
  cases xs with
  | nil => simp
  | cons x xs =>
    have hne : x ≠ head := fun heq => (List.nodup_cons.mp hnodup).1 (by simp [heq])
    simp [hne]

/-- Freeing a node that is not in the ring. -/
theorem Ring.free (h : m.Ring head xs) (hlive : m.live a = true) (ha : a ∉ head :: xs) :
    ∃ m', m.free a = some m' ∧ m'.Ring head xs ∧ m'.live = Function.update m.live a false := by
  refine ⟨{ m with live := Function.update m.live a false }, by simp [ListHeap.free, hlive], ?_, rfl⟩
  exact h.congr (fun b hb => Function.update_of_ne (ne_of_mem_of_not_mem hb ha) _ _)
    (fun _ _ => rfl) fun _ _ => rfl

/-- Allocating one. -/
theorem Ring.calloc (h : m.Ring head xs) (ha : a ∉ head :: xs) : (m.calloc a).Ring head xs := by
  refine h.congr (fun b hb => ?_) (fun b hb => ?_) fun b hb => ?_
  · exact Function.update_of_ne (ne_of_mem_of_not_mem hb ha) _ _
  · exact Function.update_of_ne (ne_of_mem_of_not_mem hb ha) _ _
  · exact Function.update_of_ne (ne_of_mem_of_not_mem hb ha) _ _

/-- Initializing one. -/
theorem Ring.initListHead (h : m.Ring head xs) (hlive : m.live a = true) (ha : a ∉ head :: xs) :
    ∃ m', m.initListHead a = some m' ∧ m'.Ring head xs ∧ m'.live = m.live := by
  refine ⟨{ m with
    next := Function.update m.next a (some a)
    prev := Function.update m.prev a (some a) }, ?_, ?_, rfl⟩
  · simp [ListHeap.initListHead, setNext, setPrev, hlive]
  · refine h.congr (fun _ _ => rfl) (fun b hb => ?_) fun b hb => ?_
    · exact Function.update_of_ne (ne_of_mem_of_not_mem hb ha) _ _
    · exact Function.update_of_ne (ne_of_mem_of_not_mem hb ha) _ _

/-- **A node is added** in front of the head, which is the end of the list. -/
theorem Ring.listAddTail (h : m.Ring head xs) (hlive : m.live a = true) (ha : a ∉ head :: xs) :
    ∃ m', m.listAddTail a head = some m' ∧ m'.Ring head (xs ++ [a]) ∧ m'.live = m.live := by
  obtain ⟨ys, last, hsplit⟩ : ∃ ys last, head :: xs = ys ++ [last] :=
    ⟨_, _, (List.dropLast_append_getLast (List.cons_ne_nil head xs)).symm⟩
  have hlinks := h.links
  rw [hsplit, List.append_assoc, List.singleton_append, List.isChain_split, List.isChain_pair]
    at hlinks
  obtain ⟨hfront, hnext, hprev⟩ := hlinks
  have hhead : m.live head = true := h.live head List.mem_cons_self
  have hlast : m.live last = true := h.live last (by simp [hsplit])
  have hane : a ≠ head := fun heq => ha (by simp [heq])
  have halast : a ≠ last := fun heq => ha (by simp [hsplit, heq])
  refine ⟨{ m with
    next := Function.update (Function.update m.next a (some head)) last (some a)
    prev := Function.update (Function.update m.prev a (some last)) head (some a) }, ?_, ?_, rfl⟩
  · simp [ListHeap.listAddTail, setNext, setPrev, getPrev, hlive, hhead, hlast, hprev,
      Function.update_of_ne hane.symm]
  · have hnodup := h.nodup
    refine ⟨?_, ?_, ?_⟩
    · rw [← List.cons_append]
      exact (List.perm_append_singleton a _).nodup_iff.mpr (List.nodup_cons.mpr ⟨ha, hnodup⟩)
    · rw [← List.cons_append]
      exact List.forall_mem_append.mpr ⟨h.live, List.forall_mem_singleton.mpr hlive⟩
    · rw [← List.cons_append, hsplit, List.append_assoc, List.append_assoc, List.singleton_append,
        List.isChain_split]
      constructor
      · -- between two of the old nodes nothing has changed
        refine hfront.imp_of_mem_tail_imp fun x y hx hy hxy => ?_
        rw [← hsplit] at hx hy
        have hyhead : y ≠ head := fun heq => (List.nodup_cons.mp hnodup).1 (heq ▸ hy)
        have hxlast : x ≠ last := fun heq => by
          have := hxy.1
          rw [heq, hnext] at this
          exact hyhead (Option.some.inj this).symm
        have hxa : x ≠ a := fun heq => ha (heq ▸ hx)
        have hya : y ≠ a := fun heq => ha (heq ▸ List.mem_cons_of_mem head hy)
        simp only [Linked, Function.update_of_ne hxlast, Function.update_of_ne hxa,
          Function.update_of_ne hyhead, Function.update_of_ne hya]
        exact hxy
      · simp [Linked, Function.update_of_ne halast, Function.update_of_ne hane]

/-- **A node is removed**: its neighbours are linked to each other. -/
theorem Ring.listDel (h : m.Ring head (as ++ a :: bs)) :
    ∃ m', m.listDel a = some m' ∧ m'.Ring head (as ++ bs) ∧ m'.live = m.live := by
  obtain ⟨ps, p, hfront⟩ : ∃ ps p, head :: as = ps ++ [p] :=
    ⟨_, _, (List.dropLast_append_getLast (List.cons_ne_nil head as)).symm⟩
  obtain ⟨n, ns, hback⟩ : ∃ n ns, bs ++ [head] = n :: ns :=
    List.exists_cons_of_ne_nil (by simp)
  have hlinks := h.links
  have hcons : ∀ zs, head :: (as ++ zs) = ps ++ p :: zs := fun zs => by
    rw [← List.cons_append, hfront, List.append_assoc, List.singleton_append]
  have hsplit : head :: (as ++ a :: bs) ++ [head] = ps ++ p :: a :: n :: ns := by
    rw [← hback, ← hcons]
    simp
  rw [hsplit, List.isChain_append_cons_cons, List.isChain_cons_cons] at hlinks
  obtain ⟨hbefore, ⟨hpa, hap⟩, ⟨han, hna⟩, hbehind⟩ := hlinks
  -- the node is neither in front of itself nor behind
  have hperm : (a :: head :: (as ++ bs)).Perm (head :: (as ++ a :: bs)) :=
    (List.Perm.swap head a _).trans (List.perm_middle.symm.cons head)
  obtain ⟨ha, hnodup⟩ := List.nodup_cons.mp (hperm.nodup_iff.mpr h.nodup)
  have hmem : ∀ x, x ∈ ps ++ [p] ∨ x ∈ n :: ns → x ∈ head :: (as ++ bs) := by
    rw [← hfront, ← hback]
    simp only [List.mem_cons, List.mem_append, List.not_mem_nil, or_false]
    tauto
  have hne : ∀ x, x ∈ ps ++ [p] ∨ x ∈ n :: ns → x ≠ a := fun x hx heq => ha (heq ▸ hmem x hx)
  have hlive : ∀ x ∈ head :: (as ++ bs), m.live x = true := fun x hx =>
    h.live x (hperm.subset (List.mem_cons_of_mem a hx))
  have hpne : p ≠ a := hne p (by simp)
  have hnne : n ≠ a := hne n (by simp)
  have hplive : m.live p = true := hlive p (hmem p (by simp))
  have hnlive : m.live n = true := hlive n (hmem n (by simp))
  have halive : m.live a = true := h.live a (by simp)
  refine ⟨{ m with
    next := Function.update (Function.update m.next p (some n)) a none
    prev := Function.update (Function.update m.prev n (some p)) a none }, ?_, ⟨hnodup, hlive, ?_⟩,
    rfl⟩
  · simp [ListHeap.listDel, setNext, setPrev, getNext, getPrev, halive, hplive, hnlive, han, hap,
      Function.update_of_ne hnne.symm]
  · -- what was linked and is not the node still is
    have hkeep : ∀ x y, x ≠ a → y ≠ a → m.Linked x y →
        Linked { m with
          next := Function.update (Function.update m.next p (some n)) a none
          prev := Function.update (Function.update m.prev n (some p)) a none } x y := by
      rintro x y hx hy ⟨hnext, hprev⟩
      have hxp : x ≠ p := fun heq => hy (by
        rw [heq, hpa] at hnext
        exact (Option.some.inj hnext).symm)
      have hyn : y ≠ n := fun heq => hx (by
        rw [heq, hna] at hprev
        exact (Option.some.inj hprev).symm)
      simp only [Linked, Function.update_of_ne hx, Function.update_of_ne hxp,
        Function.update_of_ne hy, Function.update_of_ne hyn]
      exact ⟨hnext, hprev⟩
    have hring : head :: (as ++ bs) ++ [head] = ps ++ p :: n :: ns := by
      rw [← hback, ← hcons]
      simp
    rw [hring, List.isChain_append_cons_cons]
    refine ⟨?_, ?_, ?_⟩
    · exact hbefore.imp_of_mem_imp fun x y hx hy =>
        hkeep x y (hne x (.inl hx)) (hne y (.inl hy))
    · simp [Linked, Function.update_of_ne hpne, Function.update_of_ne hnne]
    · exact hbehind.imp_of_mem_imp fun x y hx hy =>
        hkeep x y (hne x (.inr hx)) (hne y (.inr hy))

end

end ListHeap

end Profiling
