import Profiling.Machine
import Profiling.Mempool

/-!
# Profiling.Mempool.Ownership

Who has the chunks of a pool: the pool's stack, its clients, or nobody, once a
chunk has gone to `free`.

Any number of threads call `mempool_alloc` and `mempool_free`, each call one
step, and a thread gives back only what it holds.  Chunks that `malloc` made
for a full pool and chunks that the pool was created with are not told apart
by the code, so the model keeps their identities and nothing else.  `obtained`
is every chunk that `malloc` has returned; it returns no chunk twice.
-/

namespace Profiling

/-- The pool, the chunks that the threads hold, and those that went to `free`. -/
structure PoolState (τ : Type) where
  mp : Mempool
  held : List (τ × Chunk)
  freed : List Chunk
  obtained : List Chunk

/-- The calls of a thread. -/
inductive PoolAction (τ : Type) where
  /-- `mempool_alloc`; `malloc` is what `malloc` returns if it is called -/
  | alloc (thread : τ) (malloc : Option Chunk)
  | free (thread : τ) (chunk : Chunk)

namespace PoolState

variable {τ : Type}

/-- The chunks in the hands of the threads. -/
def heldChunks (s : PoolState τ) : List Chunk := s.held.map Prod.snd

/-- Every place that a chunk may be at. -/
def places (s : PoolState τ) : List Chunk := s.mp.freeStack ++ s.heldChunks ++ s.freed

variable [DecidableEq τ]

/-- One call. -/
def step (s : PoolState τ) : PoolAction τ → Option (PoolState τ)
  | .alloc thread malloc =>
      if ∀ c ∈ malloc, c ∉ s.obtained then
        let (mp, chunk) := mempoolAlloc s.mp malloc
        some { s with
          mp
          held := s.held ++ chunk.toList.map (thread, ·)
          obtained := s.obtained ++ if s.mp.count = 0 then malloc.toList else [] }
      else none
  | .free thread chunk =>
      if (thread, chunk) ∈ s.held then
        let (mp, out) := mempoolFree s.mp chunk
        some { s with
          mp
          held := s.held.erase (thread, chunk)
          freed := s.freed ++ out.toList }
      else none

end PoolState

/-- The threads on a pool that `mempool_create` has just made, from chunks that
`malloc` returned one after the other. -/
def poolMachine (τ : Type) [DecidableEq τ] (poolSize : Nat) :
    Machine (PoolState τ) (PoolAction τ) where
  init s :=
    (∃ malloc chunkSize, mempoolCreate true true malloc poolSize chunkSize = .ok s.mp ∧
      ∀ i j c, malloc i = some c → malloc j = some c → i = j) ∧
    s.held = [] ∧ s.freed = [] ∧ s.obtained = s.mp.freeStack
  step := PoolState.step

namespace Mempool

/-- A new pool holds as many chunks as it is for, all different. -/
theorem nodup_mempoolCreate {malloc : Nat → Option Chunk} {poolSize chunkSize : Nat} {mp : Mempool}
    (h : mempoolCreate true true malloc poolSize chunkSize = .ok mp)
    (hinj : ∀ i j c, malloc i = some c → malloc j = some c → i = j) :
    mp.count = poolSize ∧ mp.poolSize = poolSize ∧ mp.freeStack.Nodup := by
  obtain ⟨hcount, hsize, -, hpool⟩ := fillPool_ok h
  refine ⟨hcount, hsize, ?_⟩
  rw [freeStack, hcount, slice, List.nodup_map_iff_inj_on List.nodup_range]
  intro i hi j hj heq
  have hi' := hpool i (Nat.zero_le _) (by simpa using hi)
  have hj' := hpool j (Nat.zero_le _) (by simpa using hj)
  rw [Nat.zero_add, Nat.zero_add] at heq
  exact hinj i j _ hi' (heq ▸ hj')

@[simp] theorem poolSize_mempoolAlloc (mp : Mempool) (malloc : Option Chunk) :
    (mempoolAlloc mp malloc).1.poolSize = mp.poolSize := by
  unfold mempoolAlloc
  split <;> rfl

@[simp] theorem poolSize_mempoolFree (mp : Mempool) (chunk : Chunk) :
    (mempoolFree mp chunk).1.poolSize = mp.poolSize := by
  unfold mempoolFree
  split <;> rfl

end Mempool

namespace PoolState

/-! ## The invariant -/

section Places

variable {τ : Type} {s : PoolState τ}

/-- Every chunk obtained is at one place, and the stack together with what is
held makes up the pool. -/
structure Inv (poolSize : Nat) (s : PoolState τ) : Prop where
  size : s.mp.poolSize = poolSize
  count_le : s.mp.count ≤ poolSize
  once : ∀ c, s.places.count c = if c ∈ s.obtained then 1 else 0
  enough : poolSize ≤ s.mp.count + s.held.length

theorem count_places (s : PoolState τ) (c : Chunk) :
    s.places.count c = s.mp.freeStack.count c + s.heldChunks.count c + s.freed.count c := by
  rw [places, List.count_append, List.count_append]

/-- What an allocation adds to the chunks obtained. -/
theorem obtained_alloc {malloc : Option Chunk} (hfresh : ∀ c ∈ malloc, c ∉ s.obtained)
    {new : List Chunk} (hnew : new = [] ∨ new = malloc.toList) (c : Chunk) :
    (if c ∈ s.obtained then 1 else 0) + new.count c = if c ∈ s.obtained ++ new then 1 else 0 := by
  rcases hnew with rfl | rfl
  · simp
  · cases malloc with
    | none => simp
    | some d =>
        have hd := hfresh d rfl
        by_cases hcd : c = d
        · simp [hcd, hd]
        · simp [hcd, Ne.symm hcd]

end Places

section Steps

variable {τ : Type} [DecidableEq τ] {poolSize : Nat} {s t : PoolState τ}

theorem inv_init (h : (poolMachine τ poolSize).init s) : s.Inv poolSize := by
  obtain ⟨⟨malloc, chunkSize, hcreate, hinj⟩, hheld, hfreed, hobtained⟩ := h
  obtain ⟨hcount, hsize, hnodup⟩ := Mempool.nodup_mempoolCreate hcreate hinj
  refine ⟨hsize, Nat.le_of_eq hcount, fun c => ?_, by omega⟩
  rw [count_places, hobtained, heldChunks, hheld, hfreed, hnodup.count]
  simp

/-- An allocation moves the top of the stack to the thread, or what `malloc`
has returned. -/
theorem inv_alloc {thread : τ} {malloc : Option Chunk} (hi : s.Inv poolSize)
    (h : s.step (.alloc thread malloc) = some t) : t.Inv poolSize := by
  simp only [step] at h
  split at h
  · next hfresh =>
    obtain rfl := Option.some.inj h
    have hsize := hi.size
    have hle := hi.count_le
    have henough := hi.enough
    by_cases hzero : s.mp.count = 0
    · have halloc : mempoolAlloc s.mp malloc = (s.mp, malloc) := by simp [mempoolAlloc, hzero]
      simp only [halloc, hzero, if_true]
      refine ⟨hsize, hle, fun c => ?_, ?_⟩
      · rw [← obtained_alloc hfresh (.inr rfl), ← hi.once, count_places, count_places]
        simp only [heldChunks, List.map_append, List.map_map, Function.comp_def, List.map_id',
          List.count_append]
        omega
      · rw [List.length_append]
        omega
    · obtain ⟨d, hd, hstack⟩ := Mempool.freeStack_mempoolAlloc hzero malloc
      have hcount : (mempoolAlloc s.mp malloc).1.count + 1 = s.mp.count := by
        rw [mempoolAlloc, if_neg hzero]
        exact Nat.succ_pred hzero
      simp only [hd, hzero, if_false]
      refine ⟨by simpa using hsize, ?_, fun c => ?_, ?_⟩
      · change (mempoolAlloc s.mp malloc).1.count ≤ poolSize
        omega
      · rw [← obtained_alloc hfresh (.inl rfl), ← hi.once, count_places, count_places, hstack]
        simp only [heldChunks, List.map_append, Option.toList_some, List.map_cons, List.map_nil,
          List.count_append, List.count_nil]
        omega
      · simp only [Option.toList_some, List.map_cons, List.map_nil, List.length_append,
          List.length_singleton]
        omega
  · contradiction

/-- A chunk given back moves to the stack or to `free`. -/
theorem inv_free {thread : τ} {chunk : Chunk} (hi : s.Inv poolSize)
    (h : s.step (.free thread chunk) = some t) : t.Inv poolSize := by
  simp only [step] at h
  split at h
  · next hheld =>
    obtain rfl := Option.some.inj h
    have hsize := hi.size
    have hle := hi.count_le
    have henough := hi.enough
    have hpos := List.length_pos_of_mem hheld
    have hlen := List.length_erase_of_mem hheld
    refine ⟨by simpa using hsize, ?_, fun c => ?_, ?_⟩
    · change (mempoolFree s.mp chunk).1.count ≤ poolSize
      unfold mempoolFree
      split <;> dsimp only <;> omega
    · have hstack := congrArg (List.count c) (Mempool.freeStack_mempoolFree s.mp chunk)
      have hkept := ((List.perm_cons_erase hheld).map Prod.snd).count_eq c
      rw [← hi.once, count_places, count_places]
      simp only [heldChunks, List.count_append, List.map_cons] at hstack hkept ⊢
      rw [hkept, List.count_cons]
      rw [List.count_singleton] at hstack
      omega
    · change poolSize ≤ (mempoolFree s.mp chunk).1.count + (s.held.erase (thread, chunk)).length
      unfold mempoolFree
      split <;> dsimp only <;> omega
  · contradiction

theorem inv_of_reachable (h : (poolMachine τ poolSize).Reachable s) : s.Inv poolSize :=
  (poolMachine τ poolSize).invariant (fun _ => inv_init)
    (fun _ a _ hi hstep => by
      cases a with
      | alloc thread malloc => exact inv_alloc hi hstep
      | free thread chunk => exact inv_free hi hstep) h

end Steps

section Fresh

variable {τ : Type} {poolSize : Nat} {s : PoolState τ}

/-- A chunk on the stack is nowhere else. -/
theorem Inv.of_mem_freeStack (hi : s.Inv poolSize) {c : Chunk} (hc : c ∈ s.mp.freeStack) :
    s.mp.freeStack.count c = 1 ∧ c ∉ s.heldChunks ∧ c ∉ s.freed := by
  have hpos := List.count_pos_iff.mpr hc
  have honce := hi.once c
  rw [count_places] at honce
  refine ⟨?_, fun hheld => ?_, fun hfreed => ?_⟩
  · split at honce <;> omega
  · have := List.count_pos_iff.mpr hheld
    split at honce <;> omega
  · have := List.count_pos_iff.mpr hfreed
    split at honce <;> omega

/-- A chunk that `malloc` has not returned yet is nowhere. -/
theorem Inv.of_not_obtained (hi : s.Inv poolSize) {c : Chunk} (hc : c ∉ s.obtained) :
    c ∉ s.heldChunks ∧ c ∉ s.freed := by
  have honce := hi.once c
  rw [if_neg hc, count_places] at honce
  exact ⟨List.count_eq_zero.mp (by omega), List.count_eq_zero.mp (by omega)⟩

/-- What an allocation returns is not held and was not freed. -/
theorem Inv.alloc_fresh (hi : s.Inv poolSize) {malloc : Option Chunk}
    (hfresh : ∀ c ∈ malloc, c ∉ s.obtained) {c : Chunk}
    (hc : (mempoolAlloc s.mp malloc).2 = some c) : c ∉ s.heldChunks ∧ c ∉ s.freed := by
  by_cases hzero : s.mp.count = 0
  · simp only [mempoolAlloc, hzero, if_true] at hc
    exact hi.of_not_obtained (hfresh c hc)
  · obtain ⟨d, hd, hstack⟩ := Mempool.freeStack_mempoolAlloc hzero malloc
    obtain rfl := Option.some.inj (hd.symm.trans hc)
    exact (hi.of_mem_freeStack (hstack ▸ List.mem_append_right _ (.head _))).2

end Fresh

end PoolState

/-- **Chunks are neither lost nor handed out twice.**  Whatever the threads do,
the stack fits the pool and holds different chunks that no thread has; an
allocation returns a chunk that is neither held nor freed; every chunk obtained
is at one place, once; and when all chunks are back the pool is full. -/
theorem pool_chunks_conserved {τ : Type} [DecidableEq τ] {poolSize : Nat} {s : PoolState τ}
    (hs : (poolMachine τ poolSize).Reachable s) :
    s.mp.count ≤ poolSize ∧
      s.mp.freeStack.Nodup ∧ (∀ c ∈ s.mp.freeStack, c ∉ s.heldChunks) ∧
      (∀ malloc : Option Chunk, (∀ c ∈ malloc, c ∉ s.obtained) →
        ∀ c, (mempoolAlloc s.mp malloc).2 = some c → c ∉ s.heldChunks ∧ c ∉ s.freed) ∧
      (∀ c, (s.mp.freeStack ++ s.heldChunks ++ s.freed).count c =
        if c ∈ s.obtained then 1 else 0) ∧
      poolSize ≤ s.mp.count + s.heldChunks.length ∧
      (s.heldChunks = [] → s.mp.count = poolSize) := by
  have hi := PoolState.inv_of_reachable hs
  have henough : poolSize ≤ s.mp.count + s.heldChunks.length := by
    simpa [PoolState.heldChunks] using hi.enough
  refine ⟨hi.count_le, ?_, fun c hc => (hi.of_mem_freeStack hc).2.1,
    fun _ hfresh _ hc => hi.alloc_fresh hfresh hc, hi.once, henough, fun hheld => ?_⟩
  · exact List.nodup_iff_count_eq_one.mpr fun c hc => (hi.of_mem_freeStack hc).1
  · rw [hheld, List.length_nil] at henough
    exact Nat.le_antisymm hi.count_le henough

/-- A pool of one chunk that nobody has taken yet. -/
def freshPool : PoolState Nat where
  mp := ⟨Function.update (fun _ => 0) 0 0, 1, 64, 1⟩
  held := []
  freed := []
  obtained := [0]

/-- Two threads take one chunk each, the second from `malloc`, and both give
theirs back: the pool keeps one, the other goes to `free`. -/
theorem pool_chunks_conserved_overflow :
    ∃ s, (poolMachine Nat 1).run freshPool
        [.alloc 7 none, .alloc 8 (some 5), .free 8 5, .free 7 0] = some s ∧
      s.mp.freeStack = [5] ∧ s.freed = [0] ∧ s.mp.count = 1 := by
  refine ⟨_, rfl, rfl, rfl, ?_⟩
  have hinj : ∀ i j c : Nat, some i = some c → some j = some c → i = j :=
    fun _ _ _ hi hj => (Option.some.inj hi).trans (Option.some.inj hj).symm
  obtain ⟨-, -, -, -, -, -, hfull⟩ := @pool_chunks_conserved Nat _ 1 _
    ⟨freshPool, [.alloc 7 none, .alloc 8 (some 5), .free 8 5, .free 7 0],
      ⟨⟨some, 64, rfl, hinj⟩, rfl, rfl, rfl⟩, rfl⟩
  exact hfull rfl

end Profiling
