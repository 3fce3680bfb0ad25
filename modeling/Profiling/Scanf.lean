import Profiling.CString

/-!
# Profiling.Scanf

The directives of `fscanf` that the program uses, on the bytes of a file.

A number is read behind blanks, with a sign and as many digits as there are; a
directive that does not match ends the scan.  What is printed with blanks in
between is read back (`fscanf_numbers`), and a scan for more numbers than there
are bytes in front of one that is no part of a number assigns nothing
(`fscanf_stuck`).
-/

namespace Profiling

/-! ## Directives -/

/-- A directive of a format; one with a `*` assigns nothing. -/
inductive Directive where
  /-- a blank -/
  | space
  /-- `%*d` -/
  | skipInt
  /-- `%*u` -/
  | skipUint
  /-- `%*s` -/
  | skipString
  /-- `%*c` -/
  | skipChar
  /-- `%llu` -/
  | readUll
  deriving DecidableEq, Repr

/-- The directive as it is written. -/
def Directive.text : Directive → CString
  | .space => cstr " "
  | .skipInt => cstr "%*d"
  | .skipUint => cstr "%*u"
  | .skipString => cstr "%*s"
  | .skipChar => cstr "%*c"
  | .readUll => cstr "%llu"

/-- A sign in front of a number. -/
def scanSign : CString → CString × CString
  | 43 :: rest => ([43], rest)
  | 45 :: rest => ([45], rest)
  | rest => ([], rest)

/-- The text of a number, and what is behind it. -/
def scanNumber (input : CString) : Option (CString × CString) :=
  let (sign, body) := scanSign (input.dropWhile isspace)
  let digits := body.takeWhile isdigit
  if digits = [] then none else some (sign ++ digits, body.drop digits.length)

/-- `strtoull` of the text of a number -/
def strtoull (text : CString) : Nat :=
  let (sign, digits) := scanSign text
  if 2 ^ 64 ≤ leadingDecimal digits then 2 ^ 64 - 1
  else if sign = [45] then (2 ^ 64 - leadingDecimal digits) % 2 ^ 64
  else leadingDecimal digits

/-- One directive: what it assigns, and what is behind it, if it matches. -/
def Directive.run : Directive → CString → Option (Option Nat × CString)
  | .space, input => some (none, input.dropWhile isspace)
  | .skipInt, input => (scanNumber input).map fun scanned => (none, scanned.2)
  | .skipUint, input => (scanNumber input).map fun scanned => (none, scanned.2)
  | .skipString, input =>
      let start := input.dropWhile isspace
      let token := start.takeWhile fun b => !isspace b
      if token = [] then none else some (none, start.drop token.length)
  | .skipChar, [] => none
  | .skipChar, _ :: rest => some (none, rest)
  | .readUll, input => (scanNumber input).map fun scanned => (some (strtoull scanned.1), scanned.2)

/-- `fscanf`: the values that are assigned. -/
def fscanf : List Directive → CString → List Nat
  | [], _ => []
  | directive :: format, input =>
      match directive.run input with
      | none => []
      | some (assigned, rest) => assigned.toList ++ fscanf format rest

/-- A directive that reads a number and drops it. -/
def Directive.SkipsNumber (directive : Directive) : Prop :=
  directive = .skipInt ∨ directive = .skipUint

/-- Directives with a blank in front of each. -/
def spaced (directives : List Directive) : List Directive :=
  directives.flatMap fun directive => [.space, directive]

/-- Numbers with a blank in front of each. -/
def printNumbers (numbers : List Int) : CString :=
  numbers.flatMap fun z => 32 :: cstr (toString z)

/-- No number goes on with this byte. -/
def EndsNumber (input : CString) : Prop := ∀ b ∈ input.head?, isdigit b = false

/-! ## Reading a number -/

section

variable {rest : CString} {directive : Directive} {format : List Directive}

theorem scanSign_of_isdigit {b : UInt8} {s : CString} (h : isdigit b = true) :
    scanSign (b :: s) = ([], b :: s) := by
  have hrange := toNat_of_isdigit h
  unfold scanSign
  split
  · next heq => simp [(List.cons.inj heq).1] at hrange
  · next heq => simp [(List.cons.inj heq).1] at hrange
  · rfl

theorem takeWhile_isdigit_repr (n : Nat) (h : EndsNumber rest) :
    (cstr n.repr ++ rest).takeWhile isdigit = cstr n.repr := by
  rw [List.takeWhile_append_of_pos fun b hb => isdigit_of_mem_repr hb]
  cases rest with
  | nil => rw [List.takeWhile_nil, List.append_nil]
  | cons b rest =>
      rw [List.takeWhile_cons_of_neg (by simp [h b rfl]), List.append_nil]

/-- A number is read up to its end. -/
theorem scanNumber_toString (z : Int) (h : EndsNumber rest) :
    scanNumber (cstr (toString z) ++ rest) = some (cstr (toString z), rest) := by
  rw [Int.toString_eq_repr, Int.repr_eq_if]
  split
  · obtain ⟨b, s, hs⟩ := List.exists_cons_of_ne_nil (cstr_repr_ne_nil z.toNat)
    have hb : isdigit b = true := isdigit_of_mem_repr (hs ▸ List.mem_cons_self)
    have hdigits := takeWhile_isdigit_repr z.toNat h
    rw [hs, List.cons_append] at hdigits ⊢
    rw [scanNumber, List.dropWhile_cons_of_neg (by simp [not_isspace_of_isdigit hb]),
      scanSign_of_isdigit hb]
    simp only [hdigits, List.cons_ne_nil, if_false, List.nil_append]
    rw [← List.cons_append, List.drop_left]
  · have hdigits := takeWhile_isdigit_repr (-z).toNat h
    rw [cstr_append, show cstr "-" = [45] from rfl, List.singleton_append, List.cons_append,
      scanNumber, List.dropWhile_cons_of_neg (by decide)]
    simp only [scanSign, hdigits, cstr_repr_ne_nil, if_false]
    rw [List.drop_left]
    rfl

/-- A printed number is converted back. -/
theorem strtoull_repr {n : Nat} (h : n < 2 ^ 64) : strtoull (cstr n.repr) = n := by
  obtain ⟨b, s, hs⟩ := List.exists_cons_of_ne_nil (cstr_repr_ne_nil n)
  have hb : isdigit b = true := isdigit_of_mem_repr (hs ▸ List.mem_cons_self)
  have hsign : scanSign (cstr n.repr) = ([], cstr n.repr) := by
    rw [hs]
    exact scanSign_of_isdigit hb
  simp only [strtoull, hsign, leadingDecimal_repr]
  rw [if_neg (Nat.not_le.mpr h), if_neg (by decide)]

theorem dropWhile_isspace_toString (z : Int) (rest : CString) :
    (cstr (toString z) ++ rest).dropWhile isspace = cstr (toString z) ++ rest := by
  obtain ⟨b, s, hs⟩ := List.exists_cons_of_ne_nil (cstr_toString_ne_nil z)
  have hb : isspace b = false := by
    rcases mem_cstr_toString (z := z) (hs ▸ List.mem_cons_self) with hb | rfl
    · exact not_isspace_of_isdigit hb
    · decide
  rw [hs, List.cons_append, List.dropWhile_cons_of_neg (by simp [hb])]

theorem fscanf_skipNumber (hskip : directive.SkipsNumber) (input : CString) :
    fscanf (directive :: format) input =
      ((scanNumber input).map fun scanned => fscanf format scanned.2).getD [] := by
  have hrun : directive.run input = (scanNumber input).map fun scanned => (none, scanned.2) := by
    rcases hskip with rfl | rfl <;> rfl
  rw [fscanf, hrun]
  cases scanNumber input <;> rfl

/-- A string is skipped up to the first blank. -/
theorem fscanf_skipString {token : CString} {w : UInt8} (hne : token ≠ [])
    (htoken : ∀ b ∈ token, isspace b = false) (hw : isspace w = true) :
    fscanf (.skipString :: format) (token ++ w :: rest) = fscanf format (w :: rest) := by
  obtain ⟨b, t, rfl⟩ := List.exists_cons_of_ne_nil hne
  have hdrop : (b :: t ++ w :: rest).dropWhile isspace = b :: t ++ w :: rest :=
    List.dropWhile_cons_of_neg (by simp [htoken b List.mem_cons_self])
  have htake : (b :: t ++ w :: rest).takeWhile (fun x => !isspace x) = b :: t := by
    rw [List.takeWhile_append_of_pos fun x hx => by simp [htoken x hx],
      List.takeWhile_cons_of_neg (by simp [hw]), List.append_nil]
  simp only [fscanf, Directive.run, hdrop, htake, List.cons_ne_nil, if_false]
  rw [List.drop_left]
  rfl

theorem fscanf_skipChar (b : UInt8) :
    fscanf (.skipChar :: format) (b :: rest) = fscanf format rest := rfl

theorem fscanf_space (input : CString) :
    fscanf (.space :: format) input = fscanf format (input.dropWhile isspace) := rfl

/-- **What is printed is skipped.** -/
theorem fscanf_numbers {directives : List Directive} {numbers : List Int}
    (hskip : ∀ directive ∈ directives, directive.SkipsNumber)
    (hlength : directives.length = numbers.length) (h : EndsNumber rest) :
    fscanf (spaced directives ++ format) (printNumbers numbers ++ rest) = fscanf format rest := by
  induction directives generalizing numbers with
  | nil =>
      obtain rfl := List.eq_nil_of_length_eq_zero hlength.symm
      rfl
  | cons directive directives ih =>
      obtain ⟨z, numbers, rfl⟩ := List.exists_cons_of_length_eq_add_one hlength.symm
      have hend : EndsNumber (printNumbers numbers ++ rest) := by
        cases numbers with
        | nil => exact h
        | cons z' numbers => simp [EndsNumber, printNumbers, isdigit]
      have hsplit : spaced (directive :: directives) ++ format =
          .space :: directive :: (spaced directives ++ format) := rfl
      have hprinted : printNumbers (z :: numbers) ++ rest =
          32 :: (cstr (toString z) ++ (printNumbers numbers ++ rest)) := by
        simp [printNumbers]
      rw [hsplit, hprinted, fscanf_space, List.dropWhile_cons_of_pos (by decide),
        dropWhile_isspace_toString, fscanf_skipNumber (hskip directive List.mem_cons_self),
        scanNumber_toString z hend]
      exact ih (fun d hd => hskip d (List.mem_cons_of_mem directive hd)) (Nat.succ.inj hlength)

/-- And what is read is what was printed. -/
theorem fscanf_readUll {n : Nat} (hlt : n < 2 ^ 64) (h : EndsNumber rest) :
    fscanf (spaced [.readUll]) (printNumbers [(n : Int)] ++ rest) = [n] := by
  have hprinted : printNumbers [(n : Int)] ++ rest = 32 :: (cstr (toString (n : Int)) ++ rest) := by
    simp [printNumbers]
  have htext : cstr (toString (n : Int)) = cstr n.repr := rfl
  rw [hprinted, spaced, List.flatMap_singleton, fscanf_space,
    List.dropWhile_cons_of_pos (by decide), dropWhile_isspace_toString, fscanf, Directive.run,
    scanNumber_toString n h, Option.map_some, htext, strtoull_repr hlt]
  rfl

/-! ## Getting stuck -/

/-- A byte that is neither a blank nor a part of a number. -/
def StopsScan (b : UInt8) : Prop :=
  isspace b = false ∧ isdigit b = false ∧ b ≠ 43 ∧ b ≠ 45

theorem dropWhile_append_stop {b : UInt8} (hb : isspace b = false) (front rest : CString) :
    (front ++ b :: rest).dropWhile isspace = front.dropWhile isspace ++ b :: rest := by
  induction front with
  | nil => rw [List.nil_append, List.dropWhile_cons_of_neg (by simp [hb])]; rfl
  | cons x front ih =>
      cases hx : isspace x with
      | true => simpa [List.dropWhile_cons, hx] using ih
      | false => simp [hx]

theorem takeWhile_append_stop {b : UInt8} (hb : isdigit b = false) (front rest : CString) :
    (front ++ b :: rest).takeWhile isdigit = front.takeWhile isdigit := by
  induction front with
  | nil => rw [List.nil_append, List.takeWhile_cons_of_neg (by simp [hb])]; rfl
  | cons x front ih =>
      cases hx : isdigit x with
      | true => simpa [List.takeWhile_cons, hx] using ih
      | false => simp [hx]

/-- The sign is in front of a byte that is none. -/
theorem scanSign_append_stop {b : UInt8} (hb : StopsScan b) (front rest : CString) :
    ∃ sign body, scanSign (front ++ b :: rest) = (sign, body ++ b :: rest) ∧
      body.length ≤ front.length := by
  obtain ⟨-, -, hplus, hminus⟩ := hb
  unfold scanSign
  split
  · next heq =>
    cases front with
    | nil => exact absurd (List.cons.inj heq).1 hplus
    | cons x front =>
        obtain ⟨rfl, rfl⟩ := List.cons.inj heq
        exact ⟨_, front, rfl, Nat.le_succ _⟩
  · next heq =>
    cases front with
    | nil => exact absurd (List.cons.inj heq).1 hminus
    | cons x front =>
        obtain ⟨rfl, rfl⟩ := List.cons.inj heq
        exact ⟨_, front, rfl, Nat.le_succ _⟩
  · exact ⟨[], front, rfl, Nat.le_refl _⟩

/-- A number in front of such a byte takes up a byte at least. -/
theorem scanNumber_append_stop {b : UInt8} (hb : StopsScan b) (front rest : CString) :
    scanNumber (front ++ b :: rest) = none ∨ ∃ text front',
      scanNumber (front ++ b :: rest) = some (text, front' ++ b :: rest) ∧
        front'.length < front.length := by
  obtain ⟨sign, body, hsign, hle⟩ := scanSign_append_stop hb (front.dropWhile isspace) rest
  have hdropped := (List.dropWhile_sublist isspace (l := front)).length_le
  have hdigits := takeWhile_append_stop hb.2.1 body rest
  have htaken := (List.takeWhile_sublist isdigit (l := body)).length_le
  simp only [scanNumber, dropWhile_append_stop hb.1, hsign, hdigits]
  split
  · exact .inl rfl
  · next hne =>
    have hpos := List.length_pos_iff.mpr hne
    refine .inr ⟨sign ++ body.takeWhile isdigit, body.drop (body.takeWhile isdigit).length, ?_, ?_⟩
    · rw [List.drop_append_of_le_length htaken]
    · rw [List.length_drop]
      omega

/-- **A scan that gets stuck.**  With more numbers to skip than there are bytes in
front of one that stops the scan, nothing is assigned. -/
theorem fscanf_stuck {b : UInt8} (hb : StopsScan b) {directives : List Directive}
    (hskip : ∀ directive ∈ directives, directive.SkipsNumber) {front : CString}
    (hlength : front.length < directives.length) :
    fscanf (spaced directives ++ format) (front ++ b :: rest) = [] := by
  induction directives generalizing front with
  | nil => exact absurd hlength (Nat.not_lt_zero _)
  | cons directive directives ih =>
      have hsplit : spaced (directive :: directives) ++ format =
          .space :: directive :: (spaced directives ++ format) := rfl
      have hdropped := (List.dropWhile_sublist isspace (l := front)).length_le
      rw [hsplit, fscanf_space, dropWhile_append_stop hb.1,
        fscanf_skipNumber (hskip directive List.mem_cons_self)]
      obtain hnone | ⟨text, front', hsome, hlt⟩ :=
        scanNumber_append_stop hb (front.dropWhile isspace) rest
      · rw [hnone]
        rfl
      · rw [hsome]
        rw [List.length_cons] at hlength
        exact ih (fun d hd => hskip d (List.mem_cons_of_mem directive hd)) (by omega)

end

end Profiling
