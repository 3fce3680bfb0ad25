import Mathlib
import Profiling.Cyclic

/-!
# Profiling.Memory

Byte memory as the C code sees it: `memcpy`, pointers into a region, and
little-endian loads, with the encoding the loads undo.

A region is a function from offsets to bytes and a pointer into it is the
region shifted, so `*(uint64_t *)ptr` is `load (m.at p) 0 8`.
-/

namespace Profiling

/-- A region of byte memory. -/
abbrev Mem := Nat → UInt8

/-- The region that a pointer to offset `p` sees. -/
def Mem.at (m : Mem) (p : Nat) : Mem := fun i => m (p + i)

/-- `memcpy(dst + d, src + s, n)` -/
def memcpy (dst : Mem) (d : Nat) (src : Mem) (s n : Nat) : Mem :=
  fun i => if d ≤ i ∧ i < d + n then src (s + (i - d)) else dst i

/-- The number a little-endian byte list stands for. -/
def leNat (bs : List UInt8) : Nat := bs.foldr (fun b acc => b.toNat + 256 * acc) 0

/-- The little-endian `n`-byte form of `v`. -/
def leBytes : Nat → Nat → List UInt8
  | 0, _ => []
  | n + 1, v => UInt8.ofNat v :: leBytes n (v / 256)

/-- The little-endian number in `n` bytes at offset `p`. -/
def load (m : Mem) (p n : Nat) : Nat := leNat (slice m p n)

/-! ## pointers and copies -/

@[simp] theorem slice_at (m : Mem) (p s n : Nat) : slice (m.at p) s n = slice m (p + s) n :=
  slice_congr fun _ _ => congrArg m (by omega)

/-- The copied range reads as the source did. -/
theorem slice_memcpy_self (dst src : Mem) (d s n : Nat) :
    slice (memcpy dst d src s n) d n = slice src s n :=
  slice_congr fun i hi => by
    have hin : d ≤ d + i ∧ d + i < d + n := by omega
    rw [memcpy, if_pos hin, Nat.add_sub_cancel_left]

/-- What lies below the copied range is untouched. -/
theorem slice_memcpy_below (dst src : Mem) {d s n t k : Nat} (h : t + k ≤ d) :
    slice (memcpy dst d src s n) t k = slice dst t k :=
  slice_congr fun i hi => by
    have hout : ¬(d ≤ t + i ∧ t + i < d + n) := by omega
    rw [memcpy, if_neg hout]

/-- Copying what is already there changes nothing. -/
theorem memcpy_eq_self {dst src : Mem} {d s n : Nat} (h : slice dst d n = slice src s n) :
    memcpy dst d src s n = dst := by
  funext i
  rw [memcpy]
  split
  · next hin =>
    have hi := slice_eq_slice_iff.mp h (i - d) (by omega)
    rw [← hi]
    exact congrArg dst (by omega)
  · rfl

/-- Copying the end of a ring and then its beginning behind it lays the ring's
window out flat. -/
theorem slice_memcpy_wrapped (buf ring : Mem) {N p n : Nat} (hp : p ≤ N) (hN : N ≤ p + n)
    (hn : n ≤ N) :
    slice (memcpy (memcpy buf 0 ring p (N - p)) (N - p) ring 0 (n - (N - p))) 0 n =
      cyclic ring N p n := by
  obtain ⟨k, hk⟩ : ∃ k, n = (N - p) + k := ⟨n - (N - p), by omega⟩
  have hk' : n - (N - p) = k := by omega
  rw [cyclic_eq_slice_append ring hp hN hn, hk', hk, slice_add, Nat.zero_add, slice_memcpy_self,
    slice_memcpy_below _ _ (by omega), slice_memcpy_self]

/-! ## loads -/

/-- A load sees nothing but the bytes of a slice that covers it. -/
theorem load_eq_of_slice {m : Mem} {bs : List UInt8} {n p k : Nat} (h : slice m 0 n = bs)
    (hk : p + k ≤ n) : load m p k = leNat ((bs.drop p).take k) := by
  obtain ⟨r, rfl⟩ : ∃ r, n = p + (k + r) := ⟨n - p - k, by omega⟩
  have hdrop : bs.drop p = slice m p (k + r) := by
    rw [← h, slice_add, Nat.zero_add, List.drop_left' (length_slice m 0 p)]
  rw [load, hdrop, slice_add, List.take_left' (length_slice m p k)]

@[simp] theorem length_leBytes (n v : Nat) : (leBytes n v).length = n := by
  induction n generalizing v with
  | zero => rfl
  | succ n ih => rw [leBytes, List.length_cons, ih]

/-- A value that fits its width is read back. -/
theorem leNat_leBytes {n v : Nat} (h : v < 256 ^ n) : leNat (leBytes n v) = v := by
  induction n generalizing v with
  | zero =>
      rw [Nat.pow_zero] at h
      obtain rfl : v = 0 := by omega
      rfl
  | succ n ih =>
      have hv : v / 256 < 256 ^ n := by
        rw [Nat.pow_succ, Nat.mul_comm] at h
        exact Nat.div_lt_of_lt_mul h
      have hrec := ih hv
      rw [leNat] at hrec ⊢
      rw [leBytes, List.foldr_cons, hrec, UInt8.toNat_ofNat']
      have := Nat.mod_add_div v 256
      omega

/-! ## what a region shows -/

/-- The region has the bytes `bs` at offset `p`. -/
def Mem.Shows (m : Mem) (p : Nat) (bs : List UInt8) : Prop := slice m p bs.length = bs

instance (m : Mem) (p : Nat) (bs : List UInt8) : Decidable (m.Shows p bs) :=
  inferInstanceAs (Decidable (_ = _))

/-- A sequence of pieces is shown piece by piece. -/
theorem Mem.shows_append {m : Mem} {p : Nat} {xs ys : List UInt8} :
    m.Shows p (xs ++ ys) ↔ m.Shows p xs ∧ m.Shows (p + xs.length) ys := by
  rw [Shows, List.length_append, slice_add]
  constructor
  · exact fun h => List.append_inj h (length_slice m p xs.length)
  · rintro ⟨hx, hy⟩
    rw [hx, hy]

/-- A list of bytes, as the region a pointer to its first byte sees. -/
def memOf (bs : List UInt8) : Mem := fun i => bs.getD i 0

/-- Loading an encoded number gives the number. -/
theorem Mem.Shows.load {m : Mem} {p n v : Nat} (h : m.Shows p (leBytes n v)) (hv : v < 256 ^ n) :
    load m p n = v := by
  rw [Shows, length_leBytes] at h
  rw [Profiling.load, h, leNat_leBytes hv]

/-! ## machine words -/

/-- `*(uint32_t *)(m + p)` -/
def loadU32 (m : Mem) (p : Nat) : UInt32 := UInt32.ofNat (load m p 4)

/-- `*(uint64_t *)(m + p)` -/
def loadU64 (m : Mem) (p : Nat) : UInt64 := UInt64.ofNat (load m p 8)

/-- The four bytes of a 32-bit word in memory. -/
def u32Bytes (v : UInt32) : List UInt8 := leBytes 4 v.toNat

/-- The eight bytes of a 64-bit word in memory. -/
def u64Bytes (v : UInt64) : List UInt8 := leBytes 8 v.toNat

@[simp] theorem length_u32Bytes (v : UInt32) : (u32Bytes v).length = 4 := length_leBytes _ _

@[simp] theorem length_u64Bytes (v : UInt64) : (u64Bytes v).length = 8 := length_leBytes _ _

theorem Mem.Shows.loadU32 {m : Mem} {p : Nat} {v : UInt32} (h : m.Shows p (u32Bytes v)) :
    loadU32 m p = v := by
  rw [Profiling.loadU32, h.load v.toNat_lt, UInt32.ofNat_toNat]

theorem Mem.Shows.loadU64 {m : Mem} {p : Nat} {v : UInt64} (h : m.Shows p (u64Bytes v)) :
    loadU64 m p = v := by
  rw [Profiling.loadU64, h.load v.toNat_lt, UInt64.ofNat_toNat]

/-- In a table of `w`-byte entries the `i`-th starts at `w * i`. -/
theorem Mem.Shows.entry {m : Mem} {p w : Nat} {f : α → List UInt8} {xs : List α}
    (hw : ∀ x, (f x).length = w) (h : m.Shows p (xs.flatMap f)) {i : Nat} (hi : i < xs.length) :
    m.Shows (p + w * i) (f xs[i]) := by
  induction xs generalizing p i with
  | nil => exact absurd hi (Nat.not_lt_zero i)
  | cons x xs ih =>
      rw [List.flatMap_cons, shows_append, hw] at h
      cases i with
      | zero => exact h.1
      | succ i =>
          have := ih h.2 (Nat.lt_of_succ_lt_succ hi)
          rw [Nat.mul_succ, Nat.add_comm (w * i), ← Nat.add_assoc]
          exact this

theorem length_flatMap_const {f : α → List UInt8} {w : Nat} (hw : ∀ x, (f x).length = w)
    (xs : List α) : (xs.flatMap f).length = w * xs.length := by
  induction xs with
  | nil => rfl
  | cons x xs ih => rw [List.flatMap_cons, List.length_append, hw, ih, List.length_cons,
      Nat.mul_succ, Nat.add_comm]

end Profiling
