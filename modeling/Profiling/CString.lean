import Mathlib

/-!
# Profiling.CString

C strings as the bytes in front of the terminator, and the few functions of
`<string.h>` and `<stdlib.h>` that the program parses its input with.
-/

namespace Profiling

/-- The bytes of a C string, without the terminating NUL. -/
abbrev CString := List UInt8

/-- A string literal. -/
def cstr (s : String) : CString := s.toList.map fun c => UInt8.ofNat c.toNat

/-- `strncmp(s, t, n) == 0` -/
def strncmpEq (s t : CString) (n : Nat) : Bool := s.take n == t.take n

/-- `isspace` in the C locale -/
def isspace (b : UInt8) : Bool := b == 32 || (9 ≤ b && b ≤ 13)

/-- `isdigit` -/
def isdigit (b : UInt8) : Bool := 48 ≤ b && b ≤ 57

/-- The number the leading decimal digits stand for. -/
def leadingDecimal (s : CString) : Nat :=
  (s.takeWhile isdigit).foldl (fun n b => 10 * n + (b.toNat - 48)) 0

/-- `strtol(s, NULL, 10)`, which stops at the ends of `long`. -/
def strtol (s : CString) : Int :=
  let value : Int :=
    match s.dropWhile isspace with
    | 45 :: t => -(leadingDecimal t : Int)
    | 43 :: t => leadingDecimal t
    | t => leadingDecimal t
  max (-2 ^ 63) (min value (2 ^ 63 - 1))

/-- `atoi`: `strtol` cut down to an `int`. -/
def atoi (s : CString) : Int := (strtol s).bmod (2 ^ 32)

/-- `%0wd` -/
def zeroPadded (width : Nat) (n : Int) : CString :=
  let digits := cstr (toString n.natAbs)
  if n < 0 then 45 :: (List.replicate (width - 1 - digits.length) 48 ++ digits)
  else List.replicate (width - digits.length) 48 ++ digits

/-- One call of `strtok_r`: the token, if one is left, and where the next call
goes on. -/
def strtokR (delim : UInt8 → Bool) (s : CString) : Option CString × CString :=
  let start := s.dropWhile delim
  if start = [] then (none, [])
  else
    let token := start.takeWhile fun b => !delim b
    (some token, (start.drop token.length).drop 1)

example : atoi (cstr " -42x") = -42 := by decide

/-! ## Decimal numbers -/

theorem cstr_append (s t : String) : cstr (s ++ t) = cstr s ++ cstr t := by
  simp [cstr]

theorem toNat_digitChar {n : Nat} (h : n < 10) :
    (UInt8.ofNat n.digitChar.toNat).toNat = 48 + n := by
  interval_cases n <;> rfl

/-- `%d` of a number that is not negative. -/
theorem cstr_repr (n : Nat) :
    cstr n.repr = (Nat.toDigits 10 n).map fun c => UInt8.ofNat c.toNat := by
  rw [cstr, Nat.toList_repr]

theorem cstr_repr_ne_nil (n : Nat) : cstr n.repr ≠ [] := by simp [cstr_repr]

/-- The digits of a number, the last one behind the others. -/
theorem cstr_repr_step {n : Nat} (h : 10 ≤ n) :
    cstr n.repr = cstr (n / 10).repr ++ [UInt8.ofNat (n % 10).digitChar.toNat] := by
  simp [cstr_repr, Nat.toDigits_of_base_le (by decide) h]

theorem cstr_repr_of_lt {n : Nat} (h : n < 10) : cstr n.repr = [UInt8.ofNat n.digitChar.toNat] := by
  simp [cstr_repr, Nat.toDigits_of_lt_base h]

theorem isdigit_digitChar {n : Nat} (h : n < 10) :
    isdigit (UInt8.ofNat n.digitChar.toNat) = true := by
  interval_cases n <;> rfl

theorem isdigit_of_mem_repr {n : Nat} {b : UInt8} (hb : b ∈ cstr n.repr) : isdigit b = true := by
  induction n using Nat.strong_induction_on with
  | _ n ih =>
    by_cases h : n < 10
    · rw [cstr_repr_of_lt h, List.mem_singleton] at hb
      exact hb ▸ isdigit_digitChar h
    · rw [cstr_repr_step (Nat.le_of_not_lt h), List.mem_append, List.mem_singleton] at hb
      rcases hb with hb | rfl
      · exact ih (n / 10) (Nat.div_lt_self (by omega) (by decide)) hb
      · exact isdigit_digitChar (Nat.mod_lt n (by decide))

/-- Printed digits are read back. -/
theorem leadingDecimal_repr (n : Nat) : leadingDecimal (cstr n.repr) = n := by
  have hall : (cstr n.repr).takeWhile isdigit = cstr n.repr :=
    List.takeWhile_eq_self_iff.mpr fun b hb => isdigit_of_mem_repr hb
  rw [leadingDecimal, hall]
  induction n using Nat.strong_induction_on with
  | _ n ih =>
    by_cases h : n < 10
    · simp [cstr_repr_of_lt h, toNat_digitChar h]
    · have hlt : n / 10 < n := Nat.div_lt_self (by omega) (by decide)
      have hpre := ih (n / 10) hlt
        (List.takeWhile_eq_self_iff.mpr fun b hb => isdigit_of_mem_repr hb)
      rw [cstr_repr_step (Nat.le_of_not_lt h), List.foldl_append, hpre, List.foldl_cons,
        List.foldl_nil, toNat_digitChar (Nat.mod_lt n (by decide))]
      omega

/-- A number is printed with digits, and perhaps a minus sign. -/
theorem mem_cstr_toString {z : Int} {b : UInt8} (hb : b ∈ cstr (toString z)) :
    isdigit b = true ∨ b = 45 := by
  rw [Int.toString_eq_repr, Int.repr_eq_if] at hb
  split at hb
  · exact .inl (isdigit_of_mem_repr hb)
  · rw [cstr_append, List.mem_append] at hb
    rcases hb with hb | hb
    · exact .inr (by simpa [cstr] using hb)
    · exact .inl (isdigit_of_mem_repr hb)

theorem cstr_toString_ne_nil (z : Int) : cstr (toString z) ≠ [] := by
  rw [Int.toString_eq_repr, Int.repr_eq_if]
  split
  · exact cstr_repr_ne_nil _
  · rw [cstr_append]
    exact List.append_ne_nil_of_right_ne_nil _ (cstr_repr_ne_nil _)

/-- A number of up to `k` digits. -/
theorem length_cstr_toString_le {z : Int} {k : Nat} (hk : 0 < k) (hz : 0 ≤ z) (hlt : z < 10 ^ k) :
    (cstr (toString z)).length ≤ k := by
  obtain ⟨n, rfl⟩ := Int.eq_ofNat_of_zero_le hz
  have hn : n < 10 ^ k := by exact_mod_cast hlt
  rw [Int.toString_eq_repr, Int.repr_eq_if, if_pos hz, Int.toNat_natCast, cstr_repr,
    List.length_map]
  exact (Nat.length_toDigits_le_iff (by decide) hk).mpr hn

/-- A number of up to `k` digits, and perhaps a minus sign. -/
theorem length_cstr_toString_le_succ {z : Int} {k : Nat} (hk : 0 < k) (hlo : -10 ^ k < z)
    (hhi : z < 10 ^ k) : (cstr (toString z)).length ≤ k + 1 := by
  rcases le_or_gt 0 z with hz | hz
  · exact Nat.le_succ_of_le (length_cstr_toString_le hk hz hhi)
  · have hneg : toString z = "-" ++ toString (-z) := by
      rw [Int.toString_eq_repr, Int.repr_eq_if, if_neg (by omega), Int.toString_eq_repr,
        Int.repr_eq_if, if_pos (by omega)]
    rw [hneg, cstr_append, List.length_append, Nat.add_comm]
    exact Nat.succ_le_succ (length_cstr_toString_le hk (by omega) (by omega))

theorem toNat_of_isdigit {b : UInt8} (h : isdigit b = true) : 48 ≤ b.toNat ∧ b.toNat ≤ 57 := by
  simpa [isdigit, UInt8.le_iff_toNat_le] using h

theorem not_isspace_of_isdigit {b : UInt8} (h : isdigit b = true) : isspace b = false := by
  have := toNat_of_isdigit h
  simp only [isspace, Bool.or_eq_false_iff, beq_eq_false_iff_ne, Bool.and_eq_false_iff,
    decide_eq_false_iff_not, UInt8.le_iff_toNat_le, ne_eq, ← UInt8.toNat_inj]
  simp only [UInt8.reduceToNat]
  omega

/-- `strtol` of digits -/
theorem strtol_of_isdigit {b : UInt8} {s : CString} (h : isdigit b = true) :
    strtol (b :: s) = max (-2 ^ 63) (min (leadingDecimal (b :: s) : Int) (2 ^ 63 - 1)) := by
  have hrange := toNat_of_isdigit h
  have hminus : b ≠ 45 := fun heq => by simp [heq] at hrange
  have hplus : b ≠ 43 := fun heq => by simp [heq] at hrange
  rw [strtol, List.dropWhile_cons_of_neg (by simp [not_isspace_of_isdigit h])]
  split
  · next heq => exact absurd (List.cons.inj heq).1 hminus
  · next heq => exact absurd (List.cons.inj heq).1 hplus
  · rfl

theorem strtol_minus (s : CString) :
    strtol (45 :: s) = max (-2 ^ 63) (min (-(leadingDecimal s : Int)) (2 ^ 63 - 1)) := by
  rw [strtol, List.dropWhile_cons_of_neg (by decide)]
  rfl

theorem strtol_repr (n : Nat) : strtol (cstr n.repr) = min (n : Int) (2 ^ 63 - 1) := by
  obtain ⟨b, s, hs⟩ := List.exists_cons_of_ne_nil (cstr_repr_ne_nil n)
  have hb : isdigit b = true := isdigit_of_mem_repr (hs ▸ List.mem_cons_self)
  rw [hs, strtol_of_isdigit hb, ← hs, leadingDecimal_repr]
  omega

/-- `atoi` reads back what `%d` has printed. -/
theorem atoi_toString {z : Int} (hlo : -2 ^ 31 ≤ z) (hhi : z < 2 ^ 31) :
    atoi (cstr (toString z)) = z := by
  have hstrtol : strtol (cstr (toString z)) = z := by
    rw [Int.toString_eq_repr, Int.repr_eq_if]
    split
    · rw [strtol_repr]
      omega
    · rw [cstr_append, show cstr "-" = [45] from rfl, List.singleton_append, strtol_minus,
        leadingDecimal_repr]
      omega
  rw [atoi, hstrtol]
  exact Int.bmod_eq_of_le (by omega) (by omega)

/-! ## Tokens -/

section Tokens

variable {delim : UInt8 → Bool}

/-- A token is not empty and has no delimiter in it. -/
theorem strtokR_eq_some {s token rest : CString} (h : strtokR delim s = (some token, rest)) :
    token ≠ [] ∧ ∀ b ∈ token, delim b = false := by
  simp only [strtokR] at h
  split at h
  · cases h
  · next hstart =>
    obtain ⟨heq, -⟩ := Prod.mk.inj h
    obtain rfl := Option.some.inj heq
    refine ⟨fun hnil => ?_, fun b hb => by simpa using List.mem_takeWhile_imp hb⟩
    obtain ⟨b, t, hbt⟩ := List.exists_cons_of_ne_nil hstart
    have hb : delim b = false := by
      have := List.head?_dropWhile_not delim s
      rw [hbt] at this
      simpa using this
    rw [hbt, List.takeWhile_cons_of_pos (by simp [hb])] at hnil
    exact List.cons_ne_nil _ _ hnil

/-- A token in front of a delimiter. -/
theorem strtokR_append {token : CString} {d : UInt8} (htoken : token ≠ [])
    (hclean : ∀ b ∈ token, delim b = false) (hd : delim d = true) (rest : CString) :
    strtokR delim (token ++ d :: rest) = (some token, rest) := by
  have hdrop : (token ++ d :: rest).dropWhile delim = token ++ d :: rest := by
    obtain ⟨b, t, rfl⟩ := List.exists_cons_of_ne_nil htoken
    rw [List.cons_append, List.dropWhile_cons_of_neg (by simp [hclean b List.mem_cons_self])]
  have htake : (token ++ d :: rest).takeWhile (fun b => !delim b) = token := by
    rw [List.takeWhile_append_of_pos fun b hb => by simp [hclean b hb],
      List.takeWhile_cons_of_neg (by simp [hd]), List.append_nil]
  simp [strtokR, hdrop, htake, htoken]

/-- Without delimiters, what is left is one token. -/
theorem strtokR_rest (s : CString) : (strtokR (fun _ => false) s).1.getD [] = s := by
  have hdrop : s.dropWhile (fun _ => false) = s := by cases s <;> rfl
  by_cases hs : s = []
  · simp [strtokR, hs]
  · simp [strtokR, hdrop, hs]

end Tokens

end Profiling
