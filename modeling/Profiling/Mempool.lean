import Profiling.Cyclic

/-!
# Profiling.Mempool

The chunk pool of `src/utils/mempool.c`: a stack of free chunks that falls
back to `malloc` when it is empty and to `free` when it is full.

A chunk is its identity, and `malloc` is the outcome of the call a function
may make.  The arguments are non-`NULL`, which is what the guards in front of
the locks test.
-/

namespace Profiling

/-- The identity of a memory block. -/
abbrev Chunk := Nat

/-- `struct mempool_s`, without its lock. -/
structure Mempool where
  pool : Nat → Chunk
  poolSize : Nat
  chunkSize : Nat
  count : Nat

/-- The loop of `mempool_create` from index `i` on; `error` holds what the
rollback passes to `free`. -/
def fillPool (malloc : Nat → Option Chunk) : Nat → Nat → Mempool → Except (List Chunk) Mempool
  | 0, _, mp => .ok mp
  | n + 1, i, mp =>
      match malloc i with
      | none => .error (slice mp.pool 0 i)
      | some chunk => fillPool malloc n (i + 1) { mp with pool := Function.update mp.pool i chunk }

/-- `mempool_create`; `malloc i` is the allocation of the `i`-th chunk. -/
def mempoolCreate (mpAllocated poolAllocated : Bool) (malloc : Nat → Option Chunk)
    (poolSize chunkSize : Nat) : Except (List Chunk) Mempool :=
  if mpAllocated && poolAllocated then
    fillPool malloc poolSize 0 { pool := fun _ => 0, poolSize, chunkSize, count := poolSize }
  else .error []

/-- `mempool_alloc` -/
def mempoolAlloc (mp : Mempool) (malloc : Option Chunk) : Mempool × Option Chunk :=
  if mp.count = 0 then (mp, malloc)
  else ({ mp with count := mp.count - 1 }, some (mp.pool (mp.count - 1)))

/-- `mempool_free`; the second component is what it passes to `free`. -/
def mempoolFree (mp : Mempool) (chunk : Chunk) : Mempool × Option Chunk :=
  if mp.count < mp.poolSize then
    ({ mp with pool := Function.update mp.pool mp.count chunk, count := mp.count + 1 }, none)
  else (mp, some chunk)

namespace Mempool

/-- The free chunks, the top of the stack last. -/
def freeStack (mp : Mempool) : List Chunk := slice mp.pool 0 mp.count

/-- An allocation from a pool that is not empty takes the top of the stack. -/
theorem freeStack_mempoolAlloc {mp : Mempool} (h : mp.count ≠ 0) (malloc : Option Chunk) :
    ∃ c, (mempoolAlloc mp malloc).2 = some c ∧
      mp.freeStack = (mempoolAlloc mp malloc).1.freeStack ++ [c] := by
  obtain ⟨n, hn⟩ := Nat.exists_eq_succ_of_ne_zero h
  exact ⟨mp.pool n, by simp [mempoolAlloc, hn], by simp [mempoolAlloc, freeStack, hn, slice_succ]⟩

/-- A chunk given back goes to the top of the stack, or to `free`. -/
theorem freeStack_mempoolFree (mp : Mempool) (chunk : Chunk) :
    (mempoolFree mp chunk).1.freeStack ++ (mempoolFree mp chunk).2.toList =
      mp.freeStack ++ [chunk] := by
  by_cases h : mp.count < mp.poolSize
  · have hkeep : slice (Function.update mp.pool mp.count chunk) 0 mp.count =
        slice mp.pool 0 mp.count :=
      slice_congr fun i hi => Function.update_of_ne (by omega) _ _
    simp [mempoolFree, h, freeStack, slice_succ, hkeep]
  · simp [mempoolFree, h]

/-- The chunks of a pool just created are the ones `malloc` returned. -/
theorem fillPool_ok {malloc : Nat → Option Chunk} {n i : Nat} {mp mp' : Mempool}
    (h : fillPool malloc n i mp = .ok mp') :
    mp'.count = mp.count ∧ mp'.poolSize = mp.poolSize ∧
      (∀ j < i, mp'.pool j = mp.pool j) ∧
      ∀ j, i ≤ j → j < i + n → malloc j = some (mp'.pool j) := by
  induction n generalizing i mp with
  | zero =>
      obtain rfl := Except.ok.inj h
      exact ⟨rfl, rfl, fun _ _ => rfl, fun j _ _ => by omega⟩
  | succ n ih =>
      rw [fillPool] at h
      cases hm : malloc i with
      | none => simp [hm] at h
      | some c =>
          rw [hm] at h
          obtain ⟨hc, hs, hlow, hhigh⟩ := ih h
          refine ⟨hc, hs, fun j hj => ?_, fun j hij hj => ?_⟩
          · rw [hlow j (by omega)]
            exact Function.update_of_ne (by omega) _ _
          · rcases Nat.eq_or_lt_of_le hij with rfl | hlt
            · rw [hlow i (by omega)]
              simp [hm]
            · exact hhigh j hlt (by omega)

/-- When the chunks are numbered as they are allocated, a new pool holds the
first `poolSize` of them. -/
theorem freeStack_mempoolCreate {mpAllocated poolAllocated : Bool} {poolSize chunkSize : Nat}
    {mp : Mempool}
    (h : mempoolCreate mpAllocated poolAllocated some poolSize chunkSize = .ok mp) :
    mp.freeStack = List.range poolSize := by
  unfold mempoolCreate at h
  split at h
  · obtain ⟨hc, -, -, hpool⟩ := fillPool_ok h
    rw [freeStack, hc]
    refine List.ext_getElem (by simp) fun i h₁ h₂ => ?_
    have := hpool i (Nat.zero_le _) (by simpa using h₂)
    simpa [getElem_slice] using this.symm
  · contradiction

end Mempool

end Profiling
