import Mathlib

/-!
# Profiling.Cyclic

Windows of an array: `slice f s n` reads `n` consecutive cells from `s`, and
`cyclic f N s n` reads `n` cells from `s` around a ring of `N` cells.

An array is a function of its index, so reading out of range is never an
error here; a statement that holds for every such function says that the
cells out of range are not looked at.  Both the queue's circular buffer and
perf's memory-mapped ring rest on these lemmas.
-/

namespace Profiling

/-- `n` consecutive cells of `f` from index `s`. -/
def slice (f : Nat → α) (s n : Nat) : List α := (List.range n).map fun i => f (s + i)

/-- `n` cells of the ring `f 0 .. f (N - 1)` from index `s`, wrapping at `N`. -/
def cyclic (f : Nat → α) (N s n : Nat) : List α := (List.range n).map fun i => f ((s + i) % N)

/-! ## slices -/

@[simp] theorem length_slice (f : Nat → α) (s n : Nat) : (slice f s n).length = n := by
  simp [slice]

@[simp] theorem slice_zero (f : Nat → α) (s : Nat) : slice f s 0 = [] := rfl

theorem slice_succ (f : Nat → α) (s n : Nat) : slice f s (n + 1) = slice f s n ++ [f (s + n)] := by
  simp [slice, List.range_succ]

/-- A slice splits at any point. -/
theorem slice_add (f : Nat → α) (s m n : Nat) :
    slice f s (m + n) = slice f s m ++ slice f (s + m) n := by
  simp [slice, List.range_add, Function.comp_def, Nat.add_assoc]

theorem getElem_slice (f : Nat → α) (s n i : Nat) (h : i < (slice f s n).length) :
    (slice f s n)[i] = f (s + i) := by
  simp [slice]

/-- Two arrays that agree on the range have the same slice. -/
theorem slice_congr {f g : Nat → α} {s t n : Nat} (h : ∀ i < n, f (s + i) = g (t + i)) :
    slice f s n = slice g t n :=
  List.map_congr_left fun i hi => h i (List.mem_range.mp hi)

/-- A slice determines the cells it reads. -/
theorem slice_eq_slice_iff {f g : Nat → α} {s t n : Nat} :
    slice f s n = slice g t n ↔ ∀ i < n, f (s + i) = g (t + i) := by
  simp [slice]

/-! ## windows of a ring -/

@[simp] theorem length_cyclic (f : Nat → α) (N s n : Nat) : (cyclic f N s n).length = n := by
  simp [cyclic]

@[simp] theorem cyclic_zero (f : Nat → α) (N s : Nat) : cyclic f N s 0 = [] := rfl

/-- Only the start modulo the ring's length matters. -/
@[simp] theorem cyclic_mod (f : Nat → α) (N s n : Nat) : cyclic f N (s % N) n = cyclic f N s n := by
  simp [cyclic]

theorem cyclic_succ (f : Nat → α) (N s n : Nat) :
    cyclic f N s (n + 1) = cyclic f N s n ++ [f ((s + n) % N)] := by
  simp [cyclic, List.range_succ]

theorem cyclic_cons (f : Nat → α) (N s n : Nat) :
    cyclic f N s (n + 1) = f (s % N) :: cyclic f N (s + 1) n := by
  simp [cyclic, List.range_succ_eq_map, Function.comp_def, Nat.add_assoc, Nat.add_comm 1]

/-- A window splits at any point, the second part starting where the first ends. -/
theorem cyclic_add (f : Nat → α) (N s m n : Nat) :
    cyclic f N s (m + n) = cyclic f N s m ++ cyclic f N (s + m) n := by
  simp [cyclic, List.range_add, Function.comp_def, Nat.add_assoc]

/-- A window that does not reach the end of the ring is a slice. -/
theorem cyclic_eq_slice (f : Nat → α) {N s n : Nat} (h : s + n ≤ N) :
    cyclic f N s n = slice f s n :=
  List.map_congr_left fun i hi => by
    have hi' : i < n := List.mem_range.mp hi
    rw [Nat.mod_eq_of_lt (by omega)]

/-- A window across the end of the ring is its part before the end followed
by its part from index `0`. -/
theorem cyclic_eq_slice_append (f : Nat → α) {N s n : Nat} (hs : s ≤ N) (hN : N ≤ s + n)
    (hn : n ≤ N) : cyclic f N s n = slice f s (N - s) ++ slice f 0 (n - (N - s)) := by
  obtain ⟨k, rfl⟩ : ∃ k, n = (N - s) + k := ⟨n - (N - s), by omega⟩
  rw [cyclic_add, cyclic_eq_slice f (by omega), Nat.add_sub_cancel_left]
  have hsN : s + (N - s) = N := by omega
  rw [hsN, ← cyclic_mod, Nat.mod_self, cyclic_eq_slice f (by omega)]

/-- Writing the cell right behind a window that does not fill the ring leaves
the window as it is. -/
theorem cyclic_update_end (f : Nat → α) {N s n : Nat} (x : α) (hn : n < N) :
    cyclic (Function.update f ((s + n) % N) x) N s n = cyclic f N s n := by
  refine List.map_congr_left fun i hi => ?_
  have hi' : i < n := List.mem_range.mp hi
  rw [Function.update_of_ne]
  intro heq
  -- two offsets less than one revolution apart name different cells
  have hdvd : N ∣ (s + n) - (s + i) :=
    Nat.dvd_of_mod_eq_zero (Nat.sub_mod_eq_zero_of_mod_eq heq.symm)
  have hle := Nat.le_of_dvd (by omega) hdvd
  omega

/-- Writing that cell and taking it into the window appends the value. -/
theorem cyclic_update_succ (f : Nat → α) {N s n : Nat} (x : α) (hn : n < N) :
    cyclic (Function.update f ((s + n) % N) x) N s (n + 1) = cyclic f N s n ++ [x] := by
  rw [cyclic_succ, cyclic_update_end f x hn, Function.update_self]

/-! ## writing around a ring -/

/-- The ring with `xs` written to it from index `s` on, wrapping at `N`. -/
def cyclicWrite (f : Nat → α) (N s : Nat) (xs : List α) : Nat → α := fun i =>
  if i < N then xs.getD ((i + (N - s % N)) % N) (f i) else f i

/-- Less than one revolution from where the writing starts, a cell is named by its offset. -/
theorem cyclicWrite_apply (f : Nat → α) {N : Nat} (s : Nat) (xs : List α) {k : Nat} (hk : k < N) :
    cyclicWrite f N s xs ((s + k) % N) = xs.getD k (f ((s + k) % N)) := by
  have hs : s % N < N := Nat.mod_lt _ (by omega)
  have hindex : ((s + k) % N + (N - s % N)) % N = k := by
    have hsplit : s + k + (N - s % N) = k + N * (s / N + 1) := by
      have := Nat.div_add_mod s N
      rw [Nat.mul_add, Nat.mul_one]
      omega
    rw [Nat.mod_add_mod, hsplit, Nat.add_mul_mod_self_left, Nat.mod_eq_of_lt hk]
  rw [cyclicWrite, if_pos (Nat.mod_lt _ (by omega)), hindex]

/-- Only the start modulo the ring's length matters. -/
theorem cyclicWrite_mod (f : Nat → α) {N s t : Nat} (h : s % N = t % N) (xs : List α) :
    cyclicWrite f N s xs = cyclicWrite f N t xs := by
  unfold cyclicWrite
  rw [h]

/-- What is written is read back. -/
theorem cyclic_cyclicWrite (f : Nat → α) {N : Nat} (s : Nat) {xs : List α} (h : xs.length ≤ N) :
    cyclic (cyclicWrite f N s xs) N s xs.length = xs := by
  refine List.ext_getElem (length_cyclic _ _ _ _) fun k _ hk => ?_
  simp only [cyclic, List.getElem_map, List.getElem_range]
  rw [cyclicWrite_apply f s xs (by omega), List.getD_eq_getElem _ _ hk]

/-- Writing behind a window, with room for both, leaves the window as it is. -/
theorem cyclic_cyclicWrite_behind (f : Nat → α) {N n : Nat} (s : Nat) {xs : List α}
    (h : n + xs.length ≤ N) : cyclic (cyclicWrite f N (s + n) xs) N s n = cyclic f N s n := by
  refine List.map_congr_left fun i hi => ?_
  have hi' : i < n := List.mem_range.mp hi
  -- the cell is met again at the end of the revolution
  have hround : (s + i) % N = (s + n + (N - n + i)) % N := by
    have hsum : s + n + (N - n + i) = s + i + N := by omega
    rw [hsum, Nat.add_mod_right]
  rw [hround, cyclicWrite_apply f (s + n) xs (by omega), List.getD_eq_default _ _ (by omega)]

/-- The window with what was written behind it. -/
theorem cyclic_cyclicWrite_append (f : Nat → α) {N n : Nat} (s : Nat) {xs : List α}
    (h : n + xs.length ≤ N) :
    cyclic (cyclicWrite f N (s + n) xs) N s (n + xs.length) = cyclic f N s n ++ xs := by
  rw [cyclic_add, cyclic_cyclicWrite_behind f s h, cyclic_cyclicWrite f (s + n) (by omega)]

end Profiling
