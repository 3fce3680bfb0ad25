import Profiling.CString

/-!
# Profiling.Hex

Hexadecimal numbers as `printf` writes them and `strtoul` reads them.

* `hexNumber_hexText` — what is printed is read back;
* `hexText_inj` — two numbers are printed alike with the same width just when
  they are equal.
-/

namespace Profiling

/-- `isxdigit` -/
def isxdigit (b : UInt8) : Bool := isdigit b || (97 ≤ b && b ≤ 102) || (65 ≤ b && b ≤ 70)

/-- What a hexadecimal digit stands for. -/
def hexValue (b : UInt8) : Nat :=
  if b ≤ 57 then b.toNat - 48 else if b ≤ 70 then b.toNat - 55 else b.toNat - 87

/-- The number that a text of hexadecimal digits stands for. -/
def hexNumber (s : CString) : Nat := s.foldl (fun n b => 16 * n + hexValue b) 0

/-- `%x` -/
def hexDigits (n : Nat) : CString := (Nat.toDigits 16 n).map fun c => UInt8.ofNat c.toNat

/-- `%0wx` -/
def hexText (width : Nat) (n : Nat) : CString :=
  List.replicate (width - (hexDigits n).length) 48 ++ hexDigits n

example : hexText 8 0x64fb = cstr "000064fb" := by decide

/-! ## One digit -/

theorem toNat_hexDigit {n : Nat} (h : n < 16) :
    hexValue (UInt8.ofNat n.digitChar.toNat) = n := by
  interval_cases n <;> rfl

theorem isxdigit_digitChar {n : Nat} (h : n < 16) :
    isxdigit (UInt8.ofNat n.digitChar.toNat) = true := by
  interval_cases n <;> rfl

theorem not_isspace_of_isxdigit {b : UInt8} (h : isxdigit b = true) : isspace b = false := by
  simp only [isxdigit, isdigit, isspace, Bool.or_eq_true, Bool.and_eq_true, decide_eq_true_eq,
    Bool.or_eq_false_iff, beq_eq_false_iff_ne, Bool.and_eq_false_iff, decide_eq_false_iff_not,
    UInt8.le_iff_toNat_le, ne_eq, ← UInt8.toNat_inj] at *
  simp only [UInt8.reduceToNat] at *
  omega

/-- No digit is a sign or the `x` of a prefix. -/
theorem ne_of_isxdigit {b : UInt8} (h : isxdigit b = true) :
    b ≠ 43 ∧ b ≠ 45 ∧ b ≠ 120 ∧ b ≠ 88 := by
  refine ⟨?_, ?_, ?_, ?_⟩ <;> rintro rfl <;> simp [isxdigit, isdigit] at h

/-! ## Numbers -/

theorem hexDigits_of_lt {n : Nat} (h : n < 16) :
    hexDigits n = [UInt8.ofNat n.digitChar.toNat] := by
  simp [hexDigits, Nat.toDigits_of_lt_base h]

/-- The digits of a number, the last one behind the others. -/
theorem hexDigits_step {n : Nat} (h : 16 ≤ n) :
    hexDigits n = hexDigits (n / 16) ++ [UInt8.ofNat (n % 16).digitChar.toNat] := by
  simp [hexDigits, Nat.toDigits_of_base_le (by decide) h]

theorem hexDigits_ne_nil (n : Nat) : hexDigits n ≠ [] := by
  simp [hexDigits]

theorem isxdigit_of_mem_hexDigits {n : Nat} {b : UInt8} (hb : b ∈ hexDigits n) :
    isxdigit b = true := by
  induction n using Nat.strong_induction_on with
  | _ n ih =>
    by_cases h : n < 16
    · rw [hexDigits_of_lt h, List.mem_singleton] at hb
      exact hb ▸ isxdigit_digitChar h
    · rw [hexDigits_step (Nat.le_of_not_lt h), List.mem_append, List.mem_singleton] at hb
      rcases hb with hb | rfl
      · exact ih (n / 16) (Nat.div_lt_self (by omega) (by decide)) hb
      · exact isxdigit_digitChar (Nat.mod_lt n (by decide))

theorem isxdigit_of_mem_hexText {width n : Nat} {b : UInt8} (hb : b ∈ hexText width n) :
    isxdigit b = true := by
  rw [hexText, List.mem_append] at hb
  rcases hb with hb | hb
  · rw [List.eq_of_mem_replicate hb]
    rfl
  · exact isxdigit_of_mem_hexDigits hb

theorem hexText_ne_nil (width n : Nat) : hexText width n ≠ [] :=
  List.append_ne_nil_of_right_ne_nil _ (hexDigits_ne_nil n)

theorem hexNumber_append (s t : CString) :
    hexNumber (s ++ t) = t.foldl (fun n b => 16 * n + hexValue b) (hexNumber s) := by
  rw [hexNumber, List.foldl_append]
  rfl

theorem hexNumber_hexDigits (n : Nat) : hexNumber (hexDigits n) = n := by
  induction n using Nat.strong_induction_on with
  | _ n ih =>
    by_cases h : n < 16
    · rw [hexDigits_of_lt h, hexNumber, List.foldl_cons, List.foldl_nil, toNat_hexDigit h]
      omega
    · have hlt : n / 16 < n := Nat.div_lt_self (by omega) (by decide)
      rw [hexDigits_step (Nat.le_of_not_lt h), hexNumber_append, ih (n / 16) hlt,
        List.foldl_cons, List.foldl_nil, toNat_hexDigit (Nat.mod_lt n (by decide))]
      omega

theorem hexNumber_replicate_zero (k : Nat) : hexNumber (List.replicate k 48) = 0 := by
  induction k with
  | zero => rfl
  | succ k ih =>
      rw [List.replicate_succ', hexNumber_append, ih]
      rfl

/-- **Printed digits are read back**, with the zeros in front of them. -/
theorem hexNumber_hexText (width n : Nat) : hexNumber (hexText width n) = n := by
  rw [hexText, hexNumber_append, hexNumber_replicate_zero]
  exact hexNumber_hexDigits n

theorem hexText_inj {width m n : Nat} : hexText width m = hexText width n ↔ m = n := by
  constructor
  · intro h
    rw [← hexNumber_hexText width m, h, hexNumber_hexText]
  · rintro rfl
    rfl

theorem length_hexDigits_le {k n : Nat} (hk : 0 < k) (h : n < 16 ^ k) :
    (hexDigits n).length ≤ k := by
  rw [hexDigits, List.length_map]
  exact (Nat.length_toDigits_le_iff (by decide) hk).mpr h

/-- A number that fits takes up just the width. -/
theorem length_hexText {width n : Nat} (hwidth : 0 < width) (h : n < 16 ^ width) :
    (hexText width n).length = width := by
  have := length_hexDigits_le hwidth h
  rw [hexText, List.length_append, List.length_replicate]
  omega

end Profiling
