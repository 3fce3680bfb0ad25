import Profiling.Hex
import Profiling.Scanf

/-!
# Profiling.Scanf.Line

Text files that are read line by line, with `fgets` or `getline`, and the
conversions that `sscanf` takes such a line apart with.

* `readLines_line` — a line that fits into the buffer is read as it is;
* `length_readLines_eq_iff` — a file is read in as many pieces as it has lines
  just when every line fits;
* `scanHex_hexText` — `%lx` reads what `%0wx` has printed.
-/

namespace Profiling

/-! ## Lines -/

/-- The bytes that are read into the buffer one call after another; `line` holds
those of the call that is going on, and `full` says when the buffer is. -/
def readLines (full : Nat → Bool) (line : CString) : CString → List CString
  | [] => if line = [] then [] else [line]
  | b :: rest =>
      if b = 10 || full (line.length + 1) then (line ++ [b]) :: readLines full [] rest
      else readLines full (line ++ [b]) rest

/-- `while ((read = getline(&line, &len, file)) != -1)` -/
def getlines (text : CString) : List CString := readLines (fun _ => false) [] text

/-- `while (fgets(line, size, file))`, where a byte of the buffer is for the NUL. -/
def fgetsLines (size : Nat) (text : CString) : List CString :=
  readLines (fun length => length + 1 == size) [] text

/-- The string in a buffer. -/
def bufferString (buffer : CString) : CString := buffer.takeWhile fun b => b != 0

/-! ## Conversions -/

/-- What a conversion assigns. -/
inductive Scanned where
  | number (n : UInt64)
  | char (b : UInt8)
  | string (s : CString)
  deriving DecidableEq, Repr

/-- A conversion of a format, or what stands between two of them. -/
inductive Conversion where
  /-- a blank -/
  | space
  /-- a byte that is no blank -/
  | literal (b : UInt8)
  /-- `%lx` -/
  | readHex
  /-- `%c` -/
  | readChar
  /-- `%ws` -/
  | readString (width : Nat)
  /-- `%*s` -/
  | skipString
  /-- `%*d` -/
  | skipInt
  deriving DecidableEq, Repr

/-- A `0x` in front of the digits, of which the zero counts as one. -/
def scanBase : CString → CString × CString
  | 48 :: b :: rest => if b = 120 ∨ b = 88 then ([48], rest) else ([], 48 :: b :: rest)
  | body => ([], body)

/-- `strtoul` of a sign and hexadecimal digits. -/
def strtoulHex (sign digits : CString) : UInt64 :=
  if 2 ^ 64 ≤ hexNumber digits then UInt64.ofNat (2 ^ 64 - 1)
  else if sign = [45] then -UInt64.ofNat (hexNumber digits)
  else UInt64.ofNat (hexNumber digits)

/-- The hexadecimal number, and what is behind it. -/
def scanHex (input : CString) : Option (UInt64 × CString) :=
  let (sign, signed) := scanSign (input.dropWhile isspace)
  let (zero, body) := scanBase signed
  let digits := body.takeWhile isxdigit
  if zero ++ digits = [] then none
  else some (strtoulHex sign (zero ++ digits), body.drop digits.length)

/-- The bytes up to the next blank behind the blanks. -/
def scanToken (input : CString) : CString :=
  (input.dropWhile isspace).takeWhile fun b => !isspace b

/-- One conversion: what it assigns, and what is behind it, if it matches. -/
def Conversion.run : Conversion → CString → Option (Option Scanned × CString)
  | .space, input => some (none, input.dropWhile isspace)
  | .literal _, [] => none
  | .literal b, c :: rest => if c = b then some (none, rest) else none
  | .readHex, input => (scanHex input).map fun scanned => (some (.number scanned.1), scanned.2)
  | .readChar, [] => none
  | .readChar, b :: rest => some (some (.char b), rest)
  | .readString width, input =>
      let token := (scanToken input).take width
      if token = [] then none
      else some (some (.string token), (input.dropWhile isspace).drop token.length)
  | .skipString, input =>
      let token := scanToken input
      if token = [] then none else some (none, (input.dropWhile isspace).drop token.length)
  | .skipInt, input => (scanNumber input).map fun scanned => (none, scanned.2)

/-- `sscanf`: what is assigned, in this order. -/
def sscanf : List Conversion → CString → List Scanned
  | [], _ => []
  | conversion :: format, input =>
      match conversion.run input with
      | none => []
      | some (assigned, rest) => assigned.toList ++ sscanf format rest

/-! ## Reading lines -/

section Lines

variable {full : Nat → Bool}

/-- A line without a newline in it that fits, and its newline. -/
theorem readLines_append {line body rest : CString} (hbody : 10 ∉ body)
    (hfull : ∀ n, line.length < n → n ≤ line.length + body.length → full n = false) :
    readLines full line (body ++ 10 :: rest) = (line ++ body ++ [10]) :: readLines full [] rest := by
  induction body generalizing line with
  | nil => simp [readLines]
  | cons b body ih =>
      have hb : b ≠ 10 := fun h => hbody (h ▸ List.mem_cons_self)
      have hroom : full (line.length + 1) = false := hfull _ (by omega) (by simp)
      rw [List.cons_append, readLines, if_neg (by simp [hb, hroom])]
      rw [ih fun h => hbody (List.mem_cons_of_mem b h)]
      · simp
      · intro n hlt hle
        rw [List.length_append, List.length_singleton] at hlt hle
        exact hfull n (by omega) (by rw [List.length_cons]; omega)

/-- A line that fits is read as it is. -/
theorem readLines_line {body rest : CString} (hbody : 10 ∉ body)
    (hfull : ∀ n, 0 < n → n ≤ body.length → full n = false) :
    readLines full [] (body ++ 10 :: rest) = (body ++ [10]) :: readLines full [] rest := by
  have hempty : ∀ n, ([] : CString).length < n → n ≤ ([] : CString).length + body.length →
      full n = false := fun n hlt hle => hfull n hlt (by simpa using hle)
  rw [readLines_append hbody hempty]
  rfl

theorem readLines_lines {bodies : List CString} (hbodies : ∀ body ∈ bodies, 10 ∉ body)
    (hfull : ∀ body ∈ bodies, ∀ n, 0 < n → n ≤ body.length → full n = false) :
    readLines full [] (bodies.flatMap (· ++ [10])) = bodies.map (· ++ [10]) := by
  induction bodies with
  | nil => rfl
  | cons body bodies ih =>
      rw [List.flatMap_cons, List.append_assoc, List.singleton_append,
        readLines_line (hbodies body List.mem_cons_self) (hfull body List.mem_cons_self),
        ih (fun b hb => hbodies b (List.mem_cons_of_mem body hb))
          (fun b hb => hfull b (List.mem_cons_of_mem body hb))]
      rfl

/-- `getline` reads the lines as they are. -/
theorem getlines_lines {bodies : List CString} (hbodies : ∀ body ∈ bodies, 10 ∉ body) :
    getlines (bodies.flatMap (· ++ [10])) = bodies.map (· ++ [10]) :=
  readLines_lines hbodies fun _ _ _ _ _ => rfl

/-- However the line is cut, a piece ends with its newline. -/
theorem readLines_cut (full : Nat → Bool) (line rest : CString) {body : CString}
    (hbody : 10 ∉ body) :
    ∃ pieces : List CString, pieces ≠ [] ∧
      readLines full line (body ++ 10 :: rest) = pieces ++ readLines full [] rest := by
  induction body generalizing line with
  | nil => exact ⟨[line ++ [10]], List.cons_ne_nil _ _, by simp [readLines]⟩
  | cons b body ih =>
      have htail : 10 ∉ body := fun h => hbody (List.mem_cons_of_mem b h)
      rw [List.cons_append, readLines]
      split
      · obtain ⟨pieces, -, heq⟩ := ih [] htail
        exact ⟨(line ++ [b]) :: pieces, List.cons_ne_nil _ _, by rw [heq]; rfl⟩
      · exact ih (line ++ [b]) htail

/-- A line that does not fit is read in two pieces at least. -/
theorem readLines_cut_two (rest : CString) {line body : CString} (hbody : 10 ∉ body)
    (hfull : ∃ n, line.length < n ∧ n ≤ line.length + body.length ∧ full n = true) :
    ∃ pieces : List CString, 2 ≤ pieces.length ∧
      readLines full line (body ++ 10 :: rest) = pieces ++ readLines full [] rest := by
  induction body generalizing line with
  | nil =>
      obtain ⟨n, hlt, hle, -⟩ := hfull
      exact absurd hlt (Nat.not_lt.mpr hle)
  | cons b body ih =>
      have htail : 10 ∉ body := fun h => hbody (List.mem_cons_of_mem b h)
      rw [List.cons_append, readLines]
      split
      · obtain ⟨pieces, hne, heq⟩ := readLines_cut full [] rest htail
        refine ⟨(line ++ [b]) :: pieces, ?_, by rw [heq]; rfl⟩
        rw [List.length_cons]
        exact Nat.succ_le_succ (List.length_pos_iff.mpr hne)
      · next hnot =>
        obtain ⟨n, hlt, hle, hn⟩ := hfull
        rw [List.length_cons] at hle
        -- the buffer is not full with this byte in it, so it is full later
        have hlater : n ≠ line.length + 1 := by
          rintro rfl
          simp [hn] at hnot
        exact ih htail ⟨n, by rw [List.length_append, List.length_singleton]; omega,
          by rw [List.length_append, List.length_singleton]; omega, hn⟩

theorem length_readLines_ge (full : Nat → Bool) {bodies : List CString}
    (hbodies : ∀ body ∈ bodies, 10 ∉ body) :
    bodies.length ≤ (readLines full [] (bodies.flatMap (· ++ [10]))).length := by
  induction bodies with
  | nil => exact Nat.zero_le _
  | cons body bodies ih =>
      obtain ⟨pieces, hne, heq⟩ := readLines_cut full [] (bodies.flatMap (· ++ [10]))
        (hbodies body List.mem_cons_self)
      have hpos := List.length_pos_iff.mpr hne
      have hrest := ih fun b hb => hbodies b (List.mem_cons_of_mem body hb)
      rw [List.flatMap_cons, List.append_assoc, List.singleton_append, heq, List.length_append,
        List.length_cons]
      omega

/-- With as many pieces as lines, every line fits. -/
theorem fits_of_length_readLines {bodies : List CString} (hbodies : ∀ body ∈ bodies, 10 ∉ body)
    (hlength : (readLines full [] (bodies.flatMap (· ++ [10]))).length = bodies.length) :
    ∀ body ∈ bodies, ∀ n, 0 < n → n ≤ body.length → full n = false := by
  induction bodies with
  | nil => simp
  | cons first bodies ih =>
      have hrest : ∀ body ∈ bodies, 10 ∉ body :=
        fun b hb => hbodies b (List.mem_cons_of_mem first hb)
      have hge := length_readLines_ge full hrest
      rw [List.flatMap_cons, List.append_assoc, List.singleton_append, List.length_cons] at hlength
      have hfirst : ∀ n, 0 < n → n ≤ first.length → full n = false := by
        intro n hpos hle
        by_contra hn
        have hlong : ∃ n, ([] : CString).length < n ∧ n ≤ ([] : CString).length + first.length ∧
            full n = true := ⟨n, hpos, by simpa using hle, by simpa using hn⟩
        obtain ⟨pieces, htwo, heq⟩ := readLines_cut_two (bodies.flatMap (· ++ [10]))
          (hbodies first List.mem_cons_self) hlong
        rw [heq, List.length_append] at hlength
        omega
      rw [readLines_line (hbodies first List.mem_cons_self) hfirst, List.length_cons] at hlength
      intro body hbody
      obtain rfl | hbody := List.mem_cons.mp hbody
      · exact hfirst
      · exact ih hrest (Nat.succ.inj hlength) body hbody

/-- **Lines and pieces.**  There are as many pieces as lines just when every line
fits. -/
theorem length_readLines_eq_iff {bodies : List CString} (hbodies : ∀ body ∈ bodies, 10 ∉ body) :
    (readLines full [] (bodies.flatMap (· ++ [10]))).length = bodies.length ↔
      ∀ body ∈ bodies, ∀ n, 0 < n → n ≤ body.length → full n = false := by
  refine ⟨fits_of_length_readLines hbodies, fun hfull => ?_⟩
  rw [readLines_lines hbodies hfull, List.length_map]

end Lines

/-! ## Scanning -/

section Scan

variable {rest : CString} {format : List Conversion}

/-- No hexadecimal number goes on with this byte. -/
def EndsHex (input : CString) : Prop :=
  ∀ b ∈ input.head?, isxdigit b = false ∧ b ≠ 120 ∧ b ≠ 88

/-- No token goes on with this byte. -/
def EndsToken (input : CString) : Prop := ∀ b ∈ input.head?, isspace b = true

/-- The bytes in front of the first that is no part of it. -/
theorem takeWhile_append_head {p : UInt8 → Bool} {token : CString}
    (htoken : ∀ b ∈ token, p b = true) (hrest : ∀ b ∈ rest.head?, p b = false) :
    (token ++ rest).takeWhile p = token := by
  rw [List.takeWhile_append_of_pos htoken]
  cases rest with
  | nil => rw [List.takeWhile_nil, List.append_nil]
  | cons b rest => rw [List.takeWhile_cons_of_neg (by simp [hrest b rfl]), List.append_nil]

/-- No blank is in front of a token. -/
theorem dropWhile_isspace_token {token : CString} (hne : token ≠ [])
    (htoken : ∀ b ∈ token, isspace b = false) :
    (token ++ rest).dropWhile isspace = token ++ rest := by
  obtain ⟨b, t, rfl⟩ := List.exists_cons_of_ne_nil hne
  exact List.dropWhile_cons_of_neg (by simp [htoken b List.mem_cons_self])

theorem scanSign_of_isxdigit {b : UInt8} {s : CString} (h : isxdigit b = true) :
    scanSign (b :: s) = ([], b :: s) := by
  obtain ⟨hplus, hminus, -, -⟩ := ne_of_isxdigit h
  unfold scanSign
  split
  · next heq => exact absurd (List.cons.inj heq).1 hplus
  · next heq => exact absurd (List.cons.inj heq).1 hminus
  · rfl

/-- Digits are not taken for a `0x`. -/
theorem scanBase_digits {digits : CString} (hdigits : ∀ b ∈ digits, isxdigit b = true)
    (hrest : EndsHex rest) : scanBase (digits ++ rest) = ([], digits ++ rest) := by
  unfold scanBase
  split
  · next b tail heq =>
    have hx : ¬(b = 120 ∨ b = 88) := by
      intro hx
      rcases digits with _ | ⟨c, _ | ⟨d, digits⟩⟩
      · have hhead : rest.head? = some 48 := by rw [← List.nil_append rest, heq]; rfl
        exact absurd (hrest 48 hhead).1 (by decide)
      · have htail : rest = b :: tail := (List.cons.inj heq).2
        have hb := (hrest b (by rw [htail]; rfl)).2
        exact hx.elim hb.1 hb.2
      · obtain ⟨rfl, -⟩ := List.cons.inj (List.cons.inj heq).2
        obtain ⟨-, -, h120, h88⟩ := ne_of_isxdigit (hdigits d (by simp))
        exact hx.elim h120 h88
    rw [if_neg hx, heq]
  · rfl

/-- **A printed number is scanned** up to its end. -/
theorem scanHex_hexText {n : Nat} (hn : n < 2 ^ 64) (width : Nat) (hrest : EndsHex rest) :
    scanHex (hexText width n ++ rest) = some (UInt64.ofNat n, rest) := by
  have hdigits : ∀ b ∈ hexText width n, isxdigit b = true := fun b => isxdigit_of_mem_hexText
  have hdrop : (hexText width n ++ rest).dropWhile isspace = hexText width n ++ rest :=
    dropWhile_isspace_token (hexText_ne_nil width n)
      fun b hb => not_isspace_of_isxdigit (hdigits b hb)
  have hsign : scanSign (hexText width n ++ rest) = ([], hexText width n ++ rest) := by
    obtain ⟨b, s, hs⟩ := List.exists_cons_of_ne_nil (hexText_ne_nil width n)
    rw [hs]
    exact scanSign_of_isxdigit (hdigits b (hs ▸ List.mem_cons_self))
  have htake : (hexText width n ++ rest).takeWhile isxdigit = hexText width n :=
    takeWhile_append_head hdigits fun b hb => (hrest b hb).1
  simp only [scanHex, hdrop, hsign, scanBase_digits hdigits hrest, htake, List.nil_append,
    hexText_ne_nil, if_false, List.drop_left]
  rw [strtoulHex, hexNumber_hexText, if_neg (Nat.not_le.mpr hn), if_neg (by decide)]

theorem scanToken_append {token : CString} (hne : token ≠ [])
    (htoken : ∀ b ∈ token, isspace b = false) (hrest : EndsToken rest) :
    scanToken (token ++ rest) = token := by
  rw [scanToken, dropWhile_isspace_token hne htoken]
  exact takeWhile_append_head (fun b hb => by simp [htoken b hb]) fun b hb => by simp [hrest b hb]

theorem sscanf_space (input : CString) :
    sscanf (.space :: format) input = sscanf format (input.dropWhile isspace) := rfl

/-- A blank in the format, and one in front of a token. -/
theorem sscanf_space_token {token : CString} (hne : token ≠ [])
    (htoken : ∀ b ∈ token, isspace b = false) :
    sscanf (.space :: format) (32 :: (token ++ rest)) = sscanf format (token ++ rest) := by
  rw [sscanf_space, List.dropWhile_cons_of_pos (by decide), dropWhile_isspace_token hne htoken]

theorem sscanf_literal (b : UInt8) :
    sscanf (.literal b :: format) (b :: rest) = sscanf format rest := by
  rw [sscanf, Conversion.run, if_pos rfl]
  rfl

theorem sscanf_readHex {n : Nat} (hn : n < 2 ^ 64) (width : Nat) (hrest : EndsHex rest) :
    sscanf (.readHex :: format) (hexText width n ++ rest) =
      .number (UInt64.ofNat n) :: sscanf format rest := by
  rw [sscanf, Conversion.run, scanHex_hexText hn width hrest]
  rfl

theorem sscanf_readChar (b : UInt8) :
    sscanf (.readChar :: format) (b :: rest) = .char b :: sscanf format rest := rfl

/-- A string is read up to the next blank, or up to the width. -/
theorem sscanf_readString {token : CString} {width : Nat} (hwidth : 0 < width) (hne : token ≠ [])
    (htoken : ∀ b ∈ token, isspace b = false) (hrest : EndsToken rest) :
    sscanf (.readString width :: format) (token ++ rest) =
      .string (token.take width) :: sscanf format (token.drop width ++ rest) := by
  have htake : token.take width ≠ [] := by
    rw [ne_eq, List.take_eq_nil_iff]
    exact not_or.mpr ⟨Nat.pos_iff_ne_zero.mp hwidth, hne⟩
  have hdrop : (token ++ rest).drop (token.take width).length = token.drop width ++ rest := by
    rw [List.length_take, List.drop_append_of_le_length (Nat.min_le_right _ _)]
    rcases Nat.le_total width token.length with hle | hle
    · rw [Nat.min_eq_left hle]
    · rw [Nat.min_eq_right hle, List.drop_length, List.drop_of_length_le hle]
  simp only [sscanf, Conversion.run, scanToken_append hne htoken hrest, htake, if_false,
    dropWhile_isspace_token hne htoken, hdrop]
  rfl

theorem sscanf_skipString {token : CString} (hne : token ≠ [])
    (htoken : ∀ b ∈ token, isspace b = false) (hrest : EndsToken rest) :
    sscanf (.skipString :: format) (token ++ rest) = sscanf format rest := by
  simp only [sscanf, Conversion.run, scanToken_append hne htoken hrest, hne, if_false,
    dropWhile_isspace_token hne htoken, List.drop_left]
  rfl

theorem sscanf_skipInt (z : Int) (hrest : EndsNumber rest) :
    sscanf (.skipInt :: format) (cstr (toString z) ++ rest) = sscanf format rest := by
  rw [sscanf, Conversion.run, scanNumber_toString z hrest]
  rfl

end Scan

end Profiling
