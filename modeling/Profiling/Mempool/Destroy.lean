import Profiling.Mempool.Ownership

/-!
# Profiling.Mempool.Destroy

`mempool_destroy` at the end of a pool's life.

It walks all `pool_size` slots, also those above `count`, where `mempool_alloc`
has left the pointers it took and `mempool_free` writes over them in the order
in which chunks come back.  Every chunk that nobody holds is freed by its end
(`Inv.mem_freedByEnd`); that none is freed twice depends on what is left in
the slots above `count` (`mempoolDestroy_iff`).
-/

namespace Profiling

/-- `mempool_destroy`: the chunks that it passes to `free`. -/
def mempoolDestroy (mp : Mempool) : List Chunk := slice mp.pool 0 mp.poolSize

namespace Mempool

/-- What is left in the slots from `count` on. -/
def staleSlots (mp : Mempool) : List Chunk := slice mp.pool mp.count (mp.poolSize - mp.count)

theorem mempoolDestroy_eq {mp : Mempool} (h : mp.count ≤ mp.poolSize) :
    mempoolDestroy mp = mp.freeStack ++ mp.staleSlots := by
  obtain ⟨k, hk⟩ := Nat.exists_eq_add_of_le h
  rw [mempoolDestroy, freeStack, staleSlots, hk, Nat.add_sub_cancel_left, slice_add, Nat.zero_add]

/-- An allocation changes no slot, and the size neither. -/
theorem mempoolDestroy_mempoolAlloc (mp : Mempool) (malloc : Option Chunk) :
    mempoolDestroy (mempoolAlloc mp malloc).1 = mempoolDestroy mp := by
  unfold mempoolAlloc
  split <;> rfl

/-- A chunk given back may come into a slot. -/
theorem mem_mempoolDestroy_mempoolFree {mp : Mempool} {chunk c : Chunk}
    (hc : c ∈ mempoolDestroy (mempoolFree mp chunk).1) : c = chunk ∨ c ∈ mempoolDestroy mp := by
  unfold mempoolFree at hc
  split at hc
  · simp only [mempoolDestroy, slice, List.mem_map, List.mem_range] at hc ⊢
    obtain ⟨i, hi, rfl⟩ := hc
    rw [Function.update_apply]
    split
    · exact .inl rfl
    · exact .inr ⟨i, hi, rfl⟩
  · exact .inr hc

end Mempool

namespace PoolState

variable {τ : Type}

/-- All that is passed to `free` over the life of the pool. -/
def freedByEnd (s : PoolState τ) : List Chunk := s.freed ++ mempoolDestroy s.mp

/-- No chunk is freed twice, and those that nobody holds are freed. -/
def CleanEnd (s : PoolState τ) : Prop :=
  s.freedByEnd.Nodup ∧ ∀ c ∈ s.obtained, c ∉ s.heldChunks → c ∈ s.freedByEnd

/-- The slots from `count` on have different chunks in them that are still held. -/
def StaleHeld (s : PoolState τ) : Prop :=
  s.mp.staleSlots.Nodup ∧ ∀ c ∈ s.mp.staleSlots, c ∈ s.heldChunks

section

variable [DecidableEq τ] {poolSize : Nat} {s t : PoolState τ}

/-- Only chunks that `malloc` has returned are ever in a slot. -/
theorem slots_obtained_step {a : PoolAction τ} (hi : s.Inv poolSize)
    (hslots : ∀ c ∈ mempoolDestroy s.mp, c ∈ s.obtained) (h : s.step a = some t) :
    ∀ c ∈ mempoolDestroy t.mp, c ∈ t.obtained := by
  cases a with
  | alloc thread malloc =>
      simp only [step] at h
      split at h
      · obtain rfl := Option.some.inj h
        intro c hc
        rw [Mempool.mempoolDestroy_mempoolAlloc] at hc
        exact List.mem_append_left _ (hslots c hc)
      · contradiction
  | free thread chunk =>
      simp only [step] at h
      split at h
      · next hheld =>
        obtain rfl := Option.some.inj h
        intro c hc
        rcases Mempool.mem_mempoolDestroy_mempoolFree hc with rfl | hc
        · -- a chunk that is held has been obtained
          have hmem : c ∈ s.heldChunks := List.mem_map_of_mem hheld
          by_contra hnot
          exact (hi.of_not_obtained hnot).1 hmem
        · exact hslots c hc
      · contradiction

theorem slots_obtained (hs : (poolMachine τ poolSize).Reachable s) :
    ∀ c ∈ mempoolDestroy s.mp, c ∈ s.obtained := by
  have hboth : s.Inv poolSize ∧ ∀ c ∈ mempoolDestroy s.mp, c ∈ s.obtained := by
    refine (poolMachine τ poolSize).invariant (P := fun s => s.Inv poolSize ∧
      ∀ c ∈ mempoolDestroy s.mp, c ∈ s.obtained) (fun s hinit => ?_) (fun s a t hi hstep => ?_) hs
    · have hi := inv_init hinit
      obtain ⟨⟨malloc, chunkSize, hcreate, hinj⟩, -, -, hobtained⟩ := hinit
      obtain ⟨hcount, hsize, -⟩ := Mempool.nodup_mempoolCreate hcreate hinj
      refine ⟨hi, fun c hc => ?_⟩
      rwa [hobtained, Mempool.freeStack, hcount, ← hsize]
    · refine ⟨?_, slots_obtained_step hi.1 hi.2 hstep⟩
      cases a with
      | alloc thread malloc => exact inv_alloc hi.1 hstep
      | free thread chunk => exact inv_free hi.1 hstep
  exact hboth.2

end

section

variable {poolSize : Nat} {s : PoolState τ}

/-- A chunk that nobody holds is on the stack or was freed. -/
theorem Inv.mem_of_not_held (hi : s.Inv poolSize) {c : Chunk} (hc : c ∈ s.obtained)
    (hheld : c ∉ s.heldChunks) : c ∈ s.mp.freeStack ∨ c ∈ s.freed := by
  have honce := hi.once c
  rw [if_pos hc, count_places, List.count_eq_zero.mpr hheld] at honce
  by_contra hnot
  obtain ⟨hstack, hfreed⟩ := not_or.mp hnot
  rw [List.count_eq_zero.mpr hstack, List.count_eq_zero.mpr hfreed] at honce
  exact absurd honce (by decide)

/-- A chunk that is held is neither on the stack nor was it freed. -/
theorem Inv.not_mem_of_held (hi : s.Inv poolSize) {c : Chunk} (hheld : c ∈ s.heldChunks) :
    c ∉ s.mp.freeStack ∧ c ∉ s.freed := by
  have hpos := List.count_pos_iff.mpr hheld
  have honce := hi.once c
  rw [count_places] at honce
  refine ⟨fun hstack => ?_, fun hfreed => ?_⟩
  · have := List.count_pos_iff.mpr hstack
    split at honce <;> omega
  · have := List.count_pos_iff.mpr hfreed
    split at honce <;> omega

/-- The stack and what was freed have no chunk twice. -/
theorem Inv.nodup_freed_freeStack (hi : s.Inv poolSize) : (s.freed ++ s.mp.freeStack).Nodup := by
  rw [List.nodup_iff_count_le_one]
  intro c
  have honce := hi.once c
  rw [count_places] at honce
  rw [List.count_append]
  split at honce <;> omega

/-- **What nobody holds is freed** by the end. -/
theorem Inv.mem_freedByEnd (hi : s.Inv poolSize) {c : Chunk} (hc : c ∈ s.obtained)
    (hheld : c ∉ s.heldChunks) : c ∈ s.freedByEnd := by
  have hle : s.mp.count ≤ s.mp.poolSize := hi.size ▸ hi.count_le
  rw [freedByEnd, Mempool.mempoolDestroy_eq hle, List.mem_append, List.mem_append]
  exact (hi.mem_of_not_held hc hheld).elim (fun h => .inr (.inl h)) .inl

/-- Nothing is freed twice just when the slots from `count` on have different
chunks in them that are still held. -/
theorem Inv.nodup_freedByEnd_iff (hi : s.Inv poolSize)
    (hslots : ∀ c ∈ mempoolDestroy s.mp, c ∈ s.obtained) : s.freedByEnd.Nodup ↔ s.StaleHeld := by
  have hle : s.mp.count ≤ s.mp.poolSize := hi.size ▸ hi.count_le
  rw [freedByEnd, Mempool.mempoolDestroy_eq hle, ← List.append_assoc, List.nodup_append]
  constructor
  · rintro ⟨-, hstale, hapart⟩
    refine ⟨hstale, fun c hc => ?_⟩
    by_contra hheld
    have hobtained : c ∈ s.obtained := by
      refine hslots c ?_
      rw [Mempool.mempoolDestroy_eq hle]
      exact List.mem_append_right _ hc
    have hplace := List.mem_append.mpr (hi.mem_of_not_held hobtained hheld).symm
    exact hapart c hplace c hc rfl
  · rintro ⟨hstale, hheld⟩
    refine ⟨hi.nodup_freed_freeStack, hstale, ?_⟩
    rintro c hc _ hstalec rfl
    obtain ⟨hstack, hfreed⟩ := hi.not_mem_of_held (hheld c hstalec)
    exact (List.mem_append.mp hc).elim hfreed hstack

end

end PoolState

/-- **The end of a pool.**  Whatever the threads have done, `mempool_destroy` frees
no chunk twice and leaves none that nobody holds just when the slots from `count`
on have different chunks in them that are still held. -/
theorem mempoolDestroy_iff {τ : Type} [DecidableEq τ] {poolSize : Nat} {s : PoolState τ}
    (hs : (poolMachine τ poolSize).Reachable s) : s.CleanEnd ↔ s.StaleHeld := by
  have hi := PoolState.inv_of_reachable hs
  rw [PoolState.CleanEnd, hi.nodup_freedByEnd_iff (PoolState.slots_obtained hs)]
  exact and_iff_left fun c => hi.mem_freedByEnd

/-- A pool of two chunks that nobody has taken yet. -/
def freshPair : PoolState Nat where
  mp := ⟨Function.update (Function.update (fun _ => 0) 0 0) 1 1, 2, 64, 2⟩
  held := []
  freed := []
  obtained := [0, 1]

theorem init_freshPair : (poolMachine Nat 2).init freshPair := by
  have hinj : ∀ i j c : Nat, some i = some c → some j = some c → i = j :=
    fun _ _ _ hi hj => (Option.some.inj hi).trans (Option.some.inj hj).symm
  exact ⟨⟨some, 64, rfl, hinj⟩, rfl, rfl, rfl⟩

/-- Both chunks are taken, and the one taken last is given back: the other slot
still has the chunk that is out. -/
theorem mempoolDestroy_lifo :
    ∃ s, (poolMachine Nat 2).run freshPair [.alloc 7 none, .alloc 7 none, .free 7 0] = some s ∧
      s.CleanEnd := by
  refine ⟨_, rfl, (mempoolDestroy_iff ⟨freshPair, [.alloc 7 none, .alloc 7 none, .free 7 0],
    init_freshPair, rfl⟩).mpr ⟨?_, ?_⟩⟩
  · exact List.nodup_singleton 1
  · exact List.forall_mem_singleton.mpr (List.mem_singleton_self 1)

/-- Both chunks are taken, and the one taken first is given back: it is in both
slots then, and is freed twice. -/
theorem mempoolDestroy_twice :
    ∃ s, (poolMachine Nat 2).run freshPair [.alloc 7 none, .alloc 7 none, .free 7 1] = some s ∧
      (poolMachine Nat 2).Reachable s ∧ s.freedByEnd = [1, 1] ∧ ¬s.CleanEnd := by
  refine ⟨_, rfl, ⟨freshPair, [.alloc 7 none, .alloc 7 none, .free 7 1], init_freshPair, rfl⟩,
    rfl, fun hclean => ?_⟩
  exact absurd hclean.1 (by decide)

end Profiling
