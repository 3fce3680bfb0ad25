import Profiling.Database.Writer
import Profiling.Machine
import Profiling.Mempool.Ownership

/-!
# Profiling.Database.Release

How the writer thread gives its entries back: the calls of `free` and
`mempool_free` in `db_writer_thread_func`, on a heap of blocks.

An entry and its string share one chunk of `entry_pool`: `stack_str` points
behind the `db_entry_t`, into the chunk.  `free` takes the start of a block
that is allocated; what else it is given goes into `strayFrees`.

* `releases` — the calls that one batch leads to, for every pattern of results
  of `ensure_db_handle` and `sqlite3_prepare_v2`;
* `released_processBatch` — they are the ones that `processBatch` makes;
* `entryFlow` — the producer and the writer thread on the heap;
* `entries_given_back` — when every popped entry is given back once.
-/

namespace Profiling

/-- `sizeof(db_entry_t)` -/
def sizeofDbEntry : Nat := 16

/-- A pointer into a block. -/
structure HeapPtr where
  block : Chunk
  offset : Nat
  deriving DecidableEq, Repr

/-- The heap, as far as the entries are on it. -/
structure EntryHeap where
  /-- `entry_pool` -/
  pool : Mempool
  /-- the blocks that `malloc` has returned and `free` has not taken -/
  allocated : List Chunk
  /-- the entries that were passed to `mempool_free` -/
  returned : List DbEntry
  /-- what was passed to `free` and does not start an allocated block -/
  strayFrees : List HeapPtr

namespace EntryHeap

/-- `mempool_alloc`; `malloc` is what `malloc` returns if it is called. -/
def alloc (h : EntryHeap) (malloc : Option Chunk) : EntryHeap × Option Chunk :=
  let (pool, chunk) := mempoolAlloc h.pool malloc
  ({ h with
      pool
      allocated := h.allocated ++ if h.pool.count = 0 then malloc.toList else [] }, chunk)

/-- `free` -/
def free (h : EntryHeap) (p : HeapPtr) : EntryHeap :=
  if p.offset = 0 ∧ p.block ∈ h.allocated then { h with allocated := h.allocated.erase p.block }
  else { h with strayFrees := h.strayFrees ++ [p] }

/-- One call with which an entry is given back. -/
def release (h : EntryHeap) : Release → EntryHeap
  | .freeStackStr entry => h.free ⟨entry.chunk, sizeofDbEntry⟩
  | .freeEntry entry => h.free ⟨entry.chunk, 0⟩
  | .mempoolFree entry =>
      let (pool, out) := mempoolFree h.pool entry.chunk
      let h := { h with pool, returned := h.returned ++ [entry] }
      out.elim h fun chunk => h.free ⟨chunk, 0⟩

end EntryHeap

/-! ## The calls of one batch -/

/-- The results of the calls that decide how a batch ends. -/
structure HandleOutcome where
  /-- the first `ensure_db_handle` returns 0 -/
  ensures : Bool
  /-- `sqlite3_prepare_v2` returns `SQLITE_OK` -/
  prepares : Bool
  /-- `ensure_db_handle` of the entry with this index returns 0 -/
  entry : Nat → Bool

/-- `free(entry->stack_str); free(entry);` for each of the entries -/
def discards (entries : List DbEntry) : List Release :=
  entries.flatMap fun entry => [.freeStackStr entry, .freeEntry entry]

/-- From the `i`-th entry of a batch on: those before a handle that is lost are
left alone, since `count` becomes 0. -/
def loopReleases (ok : Nat → Bool) (batch : List DbEntry) : Nat → List DbEntry → List Release
  | _, [] => batch.map .mempoolFree
  | i, entry :: entries =>
      if ok i then loopReleases ok batch (i + 1) entries else discards (entry :: entries)

/-- The calls that a popped batch leads to. -/
def releases (o : HandleOutcome) (batch : List DbEntry) : List Release :=
  match batch with
  | [] => []
  | entry :: entries =>
      if o.ensures && o.prepares then
        loopReleases o.entry (entry :: entries) 0 (entry :: entries)
      else discards (entry :: entries)

/-- The loop stops at the first entry whose `ensure_db_handle` fails. -/
theorem loopReleases_eq (ok : Nat → Bool) (batch : List DbEntry) (i : Nat) {k : Nat}
    {entries : List DbEntry} (hk : k ≤ entries.length) (hok : ∀ j < k, ok (i + j) = true)
    (hstop : k < entries.length → ok (i + k) = false) :
    loopReleases ok batch i entries =
      if k = entries.length then batch.map .mempoolFree else discards (entries.drop k) := by
  induction entries generalizing i k with
  | nil =>
      obtain rfl : k = 0 := Nat.le_zero.mp hk
      rfl
  | cons entry entries ih =>
      rw [loopReleases]
      cases k with
      | zero =>
          have hi : ok i = false := hstop (Nat.zero_lt_succ _)
          simp [hi]
      | succ k =>
          have hi : ok i = true := hok 0 (Nat.zero_lt_succ _)
          have hrest := ih (i := i + 1) (k := k) (Nat.le_of_succ_le_succ hk)
            (fun j hj => by rw [Nat.succ_add_eq_add_succ]; exact hok _ (Nat.succ_lt_succ hj))
            (fun hlt => by rw [Nat.succ_add_eq_add_succ]; exact hstop (Nat.succ_lt_succ hlt))
          rw [if_pos hi, hrest]
          simp

section Refinement

variable (localtime : Int → Tm)

theorem released_ensureDbHandle (outcome : OpenOutcome) (w : DbWriter) (timestampNs : UInt64) :
    (ensureDbHandle localtime outcome w timestampNs).1.released = w.released := by
  unfold ensureDbHandle
  grind

/-- The loop discards the entries from the one on for which no handle was got. -/
theorem released_insertLoop (outcome : Nat → OpenOutcome) (stmt : Nat) (i : Nat)
    (entries : List DbEntry) (w : DbWriter) :
    ∃ k ≤ entries.length,
      (insertLoop localtime outcome stmt i entries w).2 = decide (k = entries.length) ∧
      (insertLoop localtime outcome stmt i entries w).1.released =
        w.released ++ discards (entries.drop k) := by
  induction entries generalizing i w with
  | nil => exact ⟨0, Nat.le_refl 0, rfl, (List.append_nil _).symm⟩
  | cons entry entries ih =>
      have hw₁ := released_ensureDbHandle localtime (outcome i) w entry.timestampNs
      rw [insertLoop]
      cases hensure : ensureDbHandle localtime (outcome i) w entry.timestampNs with
      | mk w₁ ok =>
        replace hw₁ : w₁.released = w.released := by rwa [hensure] at hw₁
        cases ok with
        | true =>
            obtain ⟨k, hk, hkept, hreleased⟩ := ih (i + 1) (w₁.insert stmt entry)
            refine ⟨k + 1, Nat.succ_le_succ hk, by simpa using hkept, hreleased.trans ?_⟩
            rw [DbWriter.insert, hw₁, List.drop_succ_cons]
        | false =>
            refine ⟨0, Nat.zero_le _, rfl, ?_⟩
            change w₁.released ++ discards (entry :: entries) = _
            rw [hw₁, List.drop_zero]

/-- **`processBatch` makes the calls of `releases`**, for the results that its
own calls have. -/
theorem released_processBatch (outcome : BatchOutcome) (w : DbWriter) (batch : List DbEntry) :
    ∃ o, (processBatch localtime outcome w batch).released = w.released ++ releases o batch := by
  cases batch with
  | nil => exact ⟨⟨true, true, fun _ => true⟩, (List.append_nil _).symm⟩
  | cons first rest =>
      have hw₁ := released_ensureDbHandle localtime outcome.ensures w first.timestampNs
      rw [processBatch]
      cases hensure : ensureDbHandle localtime outcome.ensures w first.timestampNs with
      | mk w₁ ok =>
        replace hw₁ : w₁.released = w.released := by rwa [hensure] at hw₁
        have hdiscard : ∃ o, (w₁.discard (first :: rest)).released =
            w.released ++ releases o (first :: rest) :=
          ⟨⟨false, true, fun _ => true⟩, by rw [DbWriter.discard, hw₁]; rfl⟩
        dsimp only
        split
        · split
          · exact hdiscard
          · next stmt _ =>
            obtain ⟨k, hk, hkept, hreleased⟩ := released_insertLoop localtime outcome.entry stmt 0
              (first :: rest) (w₁.beginBatch stmt)
            have hloop := loopReleases_eq (fun j => decide (j < k)) (first :: rest) 0 hk
              (fun j hj => by simp [hj]) (fun _ => by simp)
            have hbegin : (w₁.beginBatch stmt).released = w.released := hw₁
            refine ⟨⟨true, true, fun j => decide (j < k)⟩, ?_⟩
            rw [hbegin] at hreleased
            simp only [releases, Bool.and_self, if_true, hloop, hkept, decide_eq_true_eq]
            split
            · next hall =>
              rw [hall, List.drop_length] at hreleased
              simp [DbWriter.giveBack, DbWriter.finalize, DbWriter.commit, hreleased, discards]
            · exact hreleased
        · exact hdiscard

end Refinement

/-! ## The producer and the writer -/

/-- The entries on their way through the queue, and those that the writer has
popped. -/
structure EntryFlow where
  heap : EntryHeap
  /-- pushed, and not popped yet -/
  inFlight : List DbEntry
  popped : List DbEntry
  /-- the calls of the current batch that are still to come -/
  calls : List Release

/-- What the two threads do. -/
inductive FlowAction where
  /-- `db_writer_push_stack`; `malloc` is what `malloc` returns if it is called -/
  | push (malloc : Option Chunk) (timestampNs : UInt64) (stackStr : CString)
  /-- a batch of `n` entries at most is popped, and its calls succeed or fail -/
  | pop (outcome : HandleOutcome) (n : Nat)
  /-- the next call of the batch -/
  | giveBack

namespace EntryFlow

/-- One step; `malloc` returns no block that is allocated. -/
def step (s : EntryFlow) : FlowAction → Option EntryFlow
  | .push malloc timestampNs stackStr =>
      if ∀ c ∈ malloc, c ∉ s.heap.allocated then
        let (heap, chunk) := s.heap.alloc malloc
        some { s with
          heap
          inFlight := s.inFlight ++ chunk.toList.map (⟨·, timestampNs, stackStr⟩) }
      else none
  | .pop outcome n =>
      match s.calls with
      | [] => some { s with
          inFlight := s.inFlight.drop n
          popped := s.popped ++ s.inFlight.take n
          calls := releases outcome (s.inFlight.take n) }
      | _ :: _ => none
  | .giveBack =>
      match s.calls with
      | [] => none
      | call :: calls => some { s with heap := s.heap.release call, calls }

/-- The batch gets a handle for each of its entries, and a statement. -/
def Succeeds (outcome : HandleOutcome) (batch : List DbEntry) : Prop :=
  batch = [] ∨
    outcome.ensures = true ∧ outcome.prepares = true ∧ ∀ i < batch.length, outcome.entry i = true

instance (outcome : HandleOutcome) (batch : List DbEntry) : Decidable (Succeeds outcome batch) :=
  inferInstanceAs (Decidable (_ ∨ _))

/-- What a step has to meet. -/
def Handled (s : EntryFlow) : FlowAction → Prop
  | .pop outcome n => Succeeds outcome (s.inFlight.take n)
  | _ => True

instance (s : EntryFlow) : (a : FlowAction) → Decidable (s.Handled a)
  | .push .. | .giveBack => inferInstanceAs (Decidable True)
  | .pop outcome n => inferInstanceAs (Decidable (Succeeds outcome (s.inFlight.take n)))

/-- No popped entry has been given back twice, none is left when the calls of
its batch are made, and `free` was given nothing but allocated blocks. -/
structure Correct (s : EntryFlow) : Prop where
  subperm : s.heap.returned.Subperm s.popped
  perm : s.calls = [] → s.heap.returned.Perm s.popped
  strayFrees : s.heap.strayFrees = []

end EntryFlow

/-- The two threads on a pool that `mempool_create` has just made. -/
def entryFlow : Machine EntryFlow FlowAction where
  init s :=
    (∃ malloc poolSize chunkSize,
      mempoolCreate true true malloc poolSize chunkSize = .ok s.heap.pool ∧
      ∀ i j c, malloc i = some c → malloc j = some c → i = j) ∧
    s.heap.allocated = s.heap.pool.freeStack ∧ s.heap.returned = [] ∧ s.heap.strayFrees = [] ∧
    s.inFlight = [] ∧ s.popped = [] ∧ s.calls = []
  step := EntryFlow.step

namespace EntryFlow

/-! ## The invariant -/

/-- The allocated blocks are those of the pool's stack and of the entries that
are in flight or in the current batch, each once. -/
structure Owns (heap : EntryHeap) (entries : List DbEntry) : Prop where
  nodup : heap.allocated.Nodup
  count : ∀ c, heap.allocated.count c =
    heap.pool.freeStack.count c + (entries.map DbEntry.chunk).count c

/-- In a run whose batches all succeed: what is left of a batch goes back to the
pool. -/
structure Inv (s : EntryFlow) : Prop where
  strayFrees : s.heap.strayFrees = []
  rest : ∃ rest : List DbEntry, s.calls = rest.map .mempoolFree ∧
    s.popped.Perm (s.heap.returned ++ rest) ∧ Owns s.heap (s.inFlight ++ rest)

variable {s t u : EntryFlow}

theorem inv_init (h : entryFlow.init s) : s.Inv := by
  obtain ⟨⟨malloc, poolSize, chunkSize, hcreate, hinj⟩, halloc, hret, hstray, hfly, hpop,
    hcalls⟩ := h
  obtain ⟨-, -, hnodup⟩ := Mempool.nodup_mempoolCreate hcreate hinj
  refine ⟨hstray, [], by simp [hcalls], by simp [hpop, hret], ?_⟩
  rw [hfly]
  exact ⟨halloc ▸ hnodup, fun c => by simp [halloc]⟩

/-- A new entry gets a block that nothing else is in. -/
theorem Owns.alloc {heap : EntryHeap} {entries : List DbEntry} (h : Owns heap entries)
    {malloc : Option Chunk} (hfresh : ∀ c ∈ malloc, c ∉ heap.allocated) (timestampNs : UInt64)
    (stackStr : CString) :
    Owns (heap.alloc malloc).1
      (entries ++ (heap.alloc malloc).2.toList.map (⟨·, timestampNs, stackStr⟩)) := by
  by_cases hzero : heap.pool.count = 0
  · have halloc : heap.alloc malloc =
        ({ heap with allocated := heap.allocated ++ malloc.toList }, malloc) := by
      simp [EntryHeap.alloc, mempoolAlloc, hzero]
    rw [halloc]
    refine ⟨?_, fun c => ?_⟩
    · cases malloc with
      | none => simpa using h.nodup
      | some d =>
          have hd := hfresh d rfl
          exact List.nodup_append.mpr ⟨h.nodup, List.nodup_singleton d, by grind⟩
    · simp [List.count_append, h.count, Function.comp_def, Nat.add_assoc]
  · obtain ⟨d, hd, hstack⟩ := Mempool.freeStack_mempoolAlloc hzero malloc
    have halloc : heap.alloc malloc =
        ({ heap with pool := (mempoolAlloc heap.pool malloc).1 }, some d) := by
      simp [EntryHeap.alloc, hzero, ← hd]
    rw [halloc]
    refine ⟨h.nodup, fun c => ?_⟩
    have hcount := h.count c
    rw [hstack] at hcount
    simp only [List.count_append, List.map_append, Option.toList_some, List.map_cons,
      List.map_nil] at hcount ⊢
    omega

/-- `mempool_free` keeps the block of an entry in the pool, or gives it to
`free`, which takes it. -/
theorem Owns.mempoolFree {heap : EntryHeap} {entries entries' : List DbEntry} {entry : DbEntry}
    (h : Owns heap entries) (hp : entries.Perm (entry :: entries')) :
    Owns (heap.release (.mempoolFree entry)) entries' ∧
      (heap.release (.mempoolFree entry)).returned = heap.returned ++ [entry] ∧
      (heap.release (.mempoolFree entry)).strayFrees = heap.strayFrees := by
  have hentries : ∀ c, (entries.map DbEntry.chunk).count c =
      [entry.chunk].count c + (entries'.map DbEntry.chunk).count c := fun c => by
    rw [(hp.map DbEntry.chunk).count_eq, List.map_cons, ← List.count_append]
    rfl
  have hstack := fun c => congrArg (List.count c)
    (Mempool.freeStack_mempoolFree heap.pool entry.chunk)
  simp only [List.count_append] at hstack
  cases hout : (Profiling.mempoolFree heap.pool entry.chunk).2 with
  | none =>
      have hrelease : heap.release (.mempoolFree entry) = { heap with
          pool := (Profiling.mempoolFree heap.pool entry.chunk).1
          returned := heap.returned ++ [entry] } := by simp [EntryHeap.release, hout]
      rw [hrelease]
      refine ⟨⟨h.nodup, fun c => ?_⟩, rfl, rfl⟩
      have hcount := h.count c
      have hstack := hstack c
      simp only [hout, Option.toList_none, List.count_nil, hentries] at hstack hcount ⊢
      omega
  | some d =>
      have hd : d = entry.chunk := by
        unfold Profiling.mempoolFree at hout
        split at hout
        · cases hout
        · exact (Option.some.inj hout).symm
      subst hd
      have hmem : entry.chunk ∈ heap.allocated := by
        rw [← List.count_pos_iff, h.count, hentries, List.count_singleton_self]
        omega
      have hrelease : heap.release (.mempoolFree entry) = { heap with
          pool := (Profiling.mempoolFree heap.pool entry.chunk).1
          allocated := heap.allocated.erase entry.chunk
          returned := heap.returned ++ [entry] } := by
        simp [EntryHeap.release, EntryHeap.free, hout, hmem]
      rw [hrelease]
      refine ⟨⟨h.nodup.erase _, fun c => ?_⟩, rfl, rfl⟩
      have hcount := h.count c
      have hstack := hstack c
      have herase := (List.perm_cons_erase hmem).count_eq c
      rw [← List.singleton_append, List.count_append] at herase
      simp only [hout, Option.toList_some, hentries] at hstack hcount ⊢
      omega

theorem inv_push {malloc : Option Chunk} {timestampNs : UInt64} {stackStr : CString}
    (hi : s.Inv) (h : s.step (.push malloc timestampNs stackStr) = some t) : t.Inv := by
  simp only [step] at h
  split at h
  · next hfresh =>
    obtain rfl := Option.some.inj h
    obtain ⟨rest, hcalls, hperm, howns⟩ := hi.rest
    have hkept : (s.heap.alloc malloc).1.returned = s.heap.returned := rfl
    refine ⟨hi.strayFrees, rest, hcalls, hkept ▸ hperm, ?_⟩
    have halloc := howns.alloc hfresh timestampNs stackStr
    refine ⟨halloc.nodup, fun c => (halloc.count c).trans ?_⟩
    simp only [List.map_append, List.count_append]
    omega
  · contradiction

/-- The calls of a batch that succeeds. -/
theorem releases_of_succeeds {outcome : HandleOutcome} {batch : List DbEntry}
    (h : Succeeds outcome batch) : releases outcome batch = batch.map .mempoolFree := by
  cases batch with
  | nil => rfl
  | cons first rest =>
      obtain ⟨hensures, hprepares, hentry⟩ := h.resolve_left (List.cons_ne_nil _ _)
      rw [releases, hensures, hprepares, Bool.and_self, if_pos rfl,
        loopReleases_eq outcome.entry (first :: rest) 0 (Nat.le_refl _)
          (fun j hj => (Nat.zero_add j).symm ▸ hentry j hj) fun hlt => absurd hlt (Nat.lt_irrefl _),
        if_pos rfl]

theorem inv_pop {outcome : HandleOutcome} {n : Nat} (hi : s.Inv)
    (hok : s.Handled (.pop outcome n)) (h : s.step (.pop outcome n) = some t) : t.Inv := by
  obtain ⟨rest, hcalls, hperm, howns⟩ := hi.rest
  simp only [step] at h
  split at h
  · next hnone =>
    obtain rfl := Option.some.inj h
    obtain rfl : rest = [] := List.map_eq_nil_iff.mp (hcalls.symm.trans hnone)
    rw [List.append_nil] at hperm howns
    refine ⟨hi.strayFrees, s.inFlight.take n, releases_of_succeeds hok,
      hperm.append_right _, howns.nodup, fun c => ?_⟩
    have hsplit : (s.inFlight.drop n ++ s.inFlight.take n).Perm s.inFlight :=
      List.perm_append_comm.trans (.of_eq (List.take_append_drop n _))
    rw [(hsplit.map DbEntry.chunk).count_eq]
    exact howns.count c
  · contradiction

theorem inv_giveBack (hi : s.Inv) (h : s.step .giveBack = some t) : t.Inv := by
  obtain ⟨rest, hcalls, hperm, howns⟩ := hi.rest
  simp only [step, hcalls] at h
  cases rest with
  | nil => contradiction
  | cons entry rest =>
      obtain rfl := Option.some.inj h
      obtain ⟨howns, hreturned, hstray⟩ := howns.mempoolFree List.perm_middle
      refine ⟨hstray.trans hi.strayFrees, rest, rfl, ?_, howns⟩
      rw [hreturned, List.append_assoc]
      exact hperm

theorem inv_of_reachable (h : (entryFlow.guard Handled).Reachable s) : s.Inv :=
  (entryFlow.guard Handled).invariant (fun _ => inv_init)
    (fun s a t hi hstep => by
      obtain ⟨hok, hstep⟩ := entryFlow.guard_step_eq_some.mp hstep
      cases a with
      | push malloc timestampNs stackStr => exact inv_push hi hstep
      | pop outcome n => exact inv_pop hi hok hstep
      | giveBack => exact inv_giveBack hi hstep) h

theorem Inv.correct (hi : s.Inv) : s.Correct := by
  obtain ⟨rest, hcalls, hperm, -⟩ := hi.rest
  refine ⟨(List.sublist_append_left _ rest).subperm.trans hperm.symm.subperm, fun hnone => ?_,
    hi.strayFrees⟩
  obtain rfl : rest = [] := List.map_eq_nil_iff.mp (hcalls.symm.trans hnone)
  simpa using hperm.symm

/-! ## A batch that fails -/

/-- The pointer behind a `db_entry_t` went to `free`, or is about to. -/
def Spoilt (s : EntryFlow) : Prop :=
  s.heap.strayFrees ≠ [] ∨ ∃ entry, .freeStackStr entry ∈ s.calls

theorem mem_discards {entry : DbEntry} {entries : List DbEntry} (h : entry ∈ entries) :
    .freeStackStr entry ∈ discards entries :=
  List.mem_flatMap.mpr ⟨entry, h, .head _⟩

/-- A batch that fails frees the string of one of its entries. -/
theorem releases_of_not_succeeds {outcome : HandleOutcome} {batch : List DbEntry}
    (h : ¬Succeeds outcome batch) : ∃ entry, .freeStackStr entry ∈ releases outcome batch := by
  cases batch with
  | nil => exact absurd (.inl rfl) h
  | cons first rest =>
      rw [releases]
      split
      · next hboth =>
        rw [Bool.and_eq_true] at hboth
        have hfail : ∃ i, i < (first :: rest).length ∧ outcome.entry i = false := by
          by_contra hall
          refine h (.inr ⟨hboth.1, hboth.2, fun i hi => ?_⟩)
          exact Bool.eq_true_of_not_eq_false fun hi' => hall ⟨i, hi, hi'⟩
        have hk := Nat.find_spec hfail
        have hbefore : ∀ j < Nat.find hfail, outcome.entry (0 + j) = true := fun j hj => by
          rw [Nat.zero_add]
          exact Bool.eq_true_of_not_eq_false fun hj' =>
            Nat.find_min hfail hj ⟨hj.trans hk.1, hj'⟩
        rw [loopReleases_eq outcome.entry (first :: rest) 0 (Nat.le_of_lt hk.1) hbefore
          (fun _ => (Nat.zero_add _).symm ▸ hk.2), if_neg (Nat.ne_of_lt hk.1)]
        rw [List.drop_eq_getElem_cons hk.1]
        exact ⟨_, mem_discards (.head _)⟩
      · exact ⟨first, mem_discards (.head _)⟩

/-- `free` never forgets a stray pointer. -/
theorem strayFrees_free {heap : EntryHeap} {p : HeapPtr} (h : heap.strayFrees ≠ []) :
    (heap.free p).strayFrees ≠ [] := by
  unfold EntryHeap.free
  split
  · exact h
  · exact List.append_ne_nil_of_left_ne_nil h _

theorem strayFrees_release {heap : EntryHeap} (call : Release) (h : heap.strayFrees ≠ []) :
    (heap.release call).strayFrees ≠ [] := by
  cases call with
  | freeStackStr entry => exact strayFrees_free h
  | freeEntry entry => exact strayFrees_free h
  | mempoolFree entry =>
      simp only [EntryHeap.release]
      cases (Profiling.mempoolFree heap.pool entry.chunk).2 with
      | none => exact h
      | some chunk => exact strayFrees_free h

theorem spoilt_step {a : FlowAction} (hs : s.Spoilt) (h : s.step a = some t) : t.Spoilt := by
  cases a with
  | push malloc timestampNs stackStr =>
      simp only [step] at h
      split at h
      · obtain rfl := Option.some.inj h
        exact hs
      · contradiction
  | pop outcome n =>
      simp only [step] at h
      split at h
      · next hnone =>
        obtain rfl := Option.some.inj h
        refine .inl (hs.resolve_right fun ⟨entry, hentry⟩ => ?_)
        rw [hnone] at hentry
        exact List.not_mem_nil hentry
      · contradiction
  | giveBack =>
      simp only [step] at h
      split at h
      · contradiction
      · next call calls hcalls =>
        obtain rfl := Option.some.inj h
        rcases hs with hstray | ⟨entry, hentry⟩
        · exact .inl (strayFrees_release call hstray)
        · rw [hcalls] at hentry
          rcases List.mem_cons.mp hentry with rfl | hentry
          · refine .inl ?_
            simp [EntryHeap.release, EntryHeap.free, sizeofDbEntry]
          · exact .inr ⟨entry, hentry⟩

theorem Spoilt.not_correct (hs : s.Spoilt) (hcalls : s.calls = []) : ¬s.Correct := by
  refine fun hok => hs.elim (fun hstray => hstray hok.strayFrees) fun ⟨entry, hentry⟩ => ?_
  rw [hcalls] at hentry
  exact List.not_mem_nil hentry

end EntryFlow

/-- **When entries are given back.**  As long as every batch gets a handle for
each of its entries and a statement, the popped entries go through
`mempool_free` once each and `free` gets nothing but allocated blocks; after
the first batch that does not, this never holds again. -/
theorem entries_given_back {s : EntryFlow} (hs : (entryFlow.guard EntryFlow.Handled).Reachable s) :
    s.Correct ∧
      ∀ a t as u, ¬s.Handled a → entryFlow.step s a = some t → entryFlow.run t as = some u →
        u.calls = [] → ¬u.Correct := by
  refine ⟨(EntryFlow.inv_of_reachable hs).correct, fun a t as u hfail hstep hrun hcalls => ?_⟩
  have ht : t.Spoilt := by
    cases a with
    | push malloc timestampNs stackStr => exact absurd trivial hfail
    | giveBack => exact absurd trivial hfail
    | pop outcome n =>
        obtain ⟨entry, hentry⟩ := EntryFlow.releases_of_not_succeeds hfail
        simp only [entryFlow, EntryFlow.step] at hstep
        split at hstep
        · obtain rfl := Option.some.inj hstep
          exact .inr ⟨entry, hentry⟩
        · contradiction
  have hu : u.Spoilt :=
    entryFlow.run_induction (fun _ _ _ hs hstep => EntryFlow.spoilt_step hs hstep) ht hrun
  exact hu.not_correct hcalls

/-- No entry yet, on a pool of one chunk. -/
def emptyFlow : EntryFlow where
  heap := ⟨⟨Function.update (fun _ => 0) 0 0, 1, 64, 1⟩, [0], [], []⟩
  inFlight := []
  popped := []
  calls := []

theorem init_emptyFlow : entryFlow.init emptyFlow :=
  ⟨⟨some, 1, 64, rfl, fun _ _ _ hi hj => (Option.some.inj hi).trans (Option.some.inj hj).symm⟩,
    rfl, rfl, rfl, rfl, rfl, rfl⟩

/-- Everything succeeds: the entry is back in the pool. -/
theorem entries_given_back_one :
    ∃ s, entryFlow.run emptyFlow
        [.push none 1 (cstr "7|sh|sh[7]"), .pop ⟨true, true, fun _ => true⟩ 64, .giveBack] =
          some s ∧ s.calls = [] ∧ s.heap.returned = s.popped ∧ s.heap.strayFrees = [] := by
  refine ⟨_, rfl, rfl, rfl, ?_⟩
  have hok := (entries_given_back ⟨emptyFlow, [.push none 1 (cstr "7|sh|sh[7]"),
    .pop ⟨true, true, fun _ => true⟩ 64, .giveBack], init_emptyFlow, rfl⟩).1
  exact hok.strayFrees

/-- `sqlite3_prepare_v2` fails: `free` gets the pointer to the string, which is
inside the block, and the pool does not get the entry back. -/
theorem failed_prepare_frees_string :
    (∃ s, entryFlow.run emptyFlow
      [.push none 1 (cstr "7|sh|sh[7]"), .pop ⟨true, false, fun _ => true⟩ 64,
        .giveBack, .giveBack] = some s ∧
      s.calls = [] ∧ s.heap.strayFrees = [⟨0, 16⟩] ∧ s.heap.returned = [] ∧
      s.popped = [⟨0, 1, cstr "7|sh|sh[7]"⟩]) ∧
    ¬∀ s, entryFlow.Reachable s → s.Correct := by
  have hrun : ∃ s, entryFlow.run emptyFlow
      [.push none 1 (cstr "7|sh|sh[7]"), .pop ⟨true, false, fun _ => true⟩ 64,
        .giveBack, .giveBack] = some s ∧
      s.calls = [] ∧ s.heap.strayFrees = [⟨0, 16⟩] ∧ s.heap.returned = [] ∧
      s.popped = [⟨0, 1, cstr "7|sh|sh[7]"⟩] := ⟨_, rfl, rfl, rfl, rfl, rfl⟩
  refine ⟨hrun, fun hall => ?_⟩
  obtain ⟨s, hs, -, hstray, -⟩ := hrun
  have hok := (hall s ⟨_, _, init_emptyFlow, hs⟩).strayFrees
  rw [hstray] at hok
  exact List.cons_ne_nil _ _ hok

end Profiling
