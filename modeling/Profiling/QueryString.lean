import Profiling.Hex
import Profiling.Tally

/-!
# Profiling.QueryString

Query strings as a server reads them: arguments `key=value` with `&` in between,
in which `+` is a blank and `%XX` is a byte.

Decoding makes a text shorter where it changes its length at all, so a text is
what is read of it just if there is nothing in it to decode
(`unescape_eq_self_iff`), and the arguments that are found in a query string take
up at least as much of it as they would if they were written as they are
(`length_le_of_found`).
-/

namespace Profiling

/-- An argument as it is written. -/
def argumentText (argument : CString × CString) : CString :=
  argument.1 ++ cstr "=" ++ argument.2

/-- `+` is a blank. -/
def unplus (b : UInt8) : UInt8 := if b = 43 then 32 else b

/-- `%XX` -/
def isEscape (b h l : UInt8) : Bool := b == 37 && isxdigit h && isxdigit l

/-- A text with its `+` and `%XX` decoded. -/
def unescape : CString → CString
  | [] => []
  | [b] => [unplus b]
  | [b, b'] => [unplus b, unplus b']
  | b :: h :: l :: s =>
      if isEscape b h l then UInt8.ofNat (16 * hexValue h + hexValue l) :: unescape s
      else unplus b :: unescape (h :: l :: s)

/-- There is a `%XX` in the text. -/
def hasEscape : CString → Bool
  | b :: h :: l :: s => isEscape b h l || hasEscape (h :: l :: s)
  | _ => false

/-- The key and the value of an argument; without a `=` there is no value. -/
def parseArgument (piece : CString) : CString × Option CString :=
  (unescape (piece.takeWhile (· != 61)),
    if 61 ∈ piece then some (unescape ((piece.dropWhile (· != 61)).drop 1)) else none)

/-- The value of the first argument with this key. -/
def lookupArgument (query key : CString) : Option CString :=
  (((query.splitOn 38).map parseArgument).lookup key).join

section

variable {s t query : CString}

/-! ## Decoding -/

theorem unescape_of_not_hasEscape (h : hasEscape s = false) : unescape s = s.map unplus := by
  fun_induction unescape s with
  | case1 => rfl
  | case2 b => rfl
  | case3 b b' => rfl
  | case4 b h l s hescape ih => simp [hasEscape, hescape] at h
  | case5 b x l s hescape ih =>
      simp only [hasEscape, hescape, Bool.false_or] at h
      rw [ih h]
      rfl

/-- An escape makes the text longer. -/
theorem length_unescape_le (s : CString) :
    (unescape s).length ≤ s.length ∧
      (hasEscape s = true → (unescape s).length < s.length) := by
  fun_induction unescape s with
  | case1 => simp [hasEscape]
  | case2 b => simp [hasEscape]
  | case3 b b' => simp [hasEscape]
  | case4 b h l s hescape ih =>
      simp only [List.length_cons]
      omega
  | case5 b h l s hescape ih =>
      simp only [hasEscape, hescape, Bool.false_or, List.length_cons] at ih ⊢
      exact ⟨by omega, fun h => by have := ih.2 h; omega⟩

theorem map_unplus_eq_self_iff : s.map unplus = s ↔ 43 ∉ s := by
  induction s with
  | nil => simp
  | cons b s ih =>
      have hb : unplus b = b ↔ 43 ≠ b := by
        unfold unplus
        split
        · next h => simp [h]
        · next h => simp [Ne.symm h]
      rw [List.map_cons, List.cons.injEq, ih, hb, List.mem_cons, not_or]

/-- **Decoding.**  A text is what is read of it just if there is nothing to decode. -/
theorem unescape_eq_self_iff : unescape s = s ↔ 43 ∉ s ∧ hasEscape s = false := by
  cases hescape : hasEscape s with
  | true =>
      have hlt := (length_unescape_le s).2 hescape
      simp only [Bool.true_eq_false, and_false, iff_false]
      exact fun heq => absurd (congrArg List.length heq) (Nat.ne_of_lt hlt)
  | false => rw [unescape_of_not_hasEscape hescape, map_unplus_eq_self_iff, and_iff_left rfl]

/-! ## Arguments -/

/-- An argument is parsed up to its first `=`. -/
theorem parseArgument_argumentText {key : CString} (hkey : 61 ∉ key) (value : CString) :
    parseArgument (argumentText (key, value)) = (unescape key, some (unescape value)) := by
  have hfront : ∀ b ∈ key, (b != 61) = true := fun b hb => by
    simpa using fun h : b = 61 => hkey (h ▸ hb)
  have htext : argumentText (key, value) = key ++ 61 :: value := by
    simp [argumentText, cstr]
  rw [htext, parseArgument, List.takeWhile_append_of_pos hfront,
    List.dropWhile_append_of_pos hfront, if_pos (by simp)]
  simp

/-- What is found in a piece is not longer than it. -/
theorem length_parseArgument_le {piece key value : CString}
    (h : parseArgument piece = (key, some value)) : key.length + 1 + value.length ≤ piece.length := by
  rw [parseArgument] at h
  obtain ⟨rfl, hvalue⟩ := Prod.mk.inj h
  split at hvalue
  · next hmem =>
    obtain ⟨front, back, rfl, hfront⟩ := List.eq_append_cons_of_mem hmem
    have hpos : ∀ b ∈ front, (b != 61) = true := fun b hb => by
      simpa using fun h : b = 61 => hfront (h ▸ hb)
    rw [List.dropWhile_append_of_pos hpos] at hvalue
    obtain rfl := Option.some.inj hvalue
    have hkey := (length_unescape_le front).1
    have hback := (length_unescape_le back).1
    rw [List.takeWhile_append_of_pos hpos]
    simp
    omega
  · cases hvalue

/-- The value that is found is that of a piece. -/
theorem exists_piece {key value : CString} (h : lookupArgument query key = some value) :
    ∃ piece ∈ query.splitOn 38, parseArgument piece = (key, some value) := by
  obtain ⟨front, back, hsplit, -⟩ := List.lookup_eq_some_iff.mp (Option.join_eq_some_iff.mp h)
  exact List.mem_map.mp (hsplit ▸ List.mem_append_right front List.mem_cons_self)

/-- Texts with a separator behind each. -/
theorem flatten_map_append {α : Type*} (sep : α) {texts : List (List α)} (h : texts ≠ []) :
    (texts.map (· ++ [sep])).flatten = [sep].intercalate texts ++ [sep] := by
  induction texts with
  | nil => exact absurd rfl h
  | cons text texts ih =>
      cases texts with
      | nil => simp
      | cons next texts =>
          rw [List.map_cons, List.flatten_cons, ih (by simp), List.intercalate_cons_cons]
          simp

theorem mem_intercalate {α : Type*} {sep b : α} {texts : List (List α)}
    (h : b ∈ [sep].intercalate texts) : b = sep ∨ ∃ text ∈ texts, b ∈ text := by
  by_cases hnil : texts = []
  · simp [hnil] at h
  · have hmem : b ∈ (texts.map (· ++ [sep])).flatten :=
      flatten_map_append sep hnil ▸ List.mem_append_left [sep] h
    obtain ⟨text, htext, hb⟩ := List.mem_flatMap.mp (List.flatMap_def ▸ hmem)
    rcases List.mem_append.mp hb with hb | hb
    · exact .inr ⟨text, htext, hb⟩
    · exact .inl (List.mem_singleton.mp hb)

/-- What some texts with a separator behind each take up. -/
def separatedLength (texts : List CString) : Nat := (texts.map fun text => text.length + 1).sum

theorem separatedLength_eq {texts : List CString} (h : texts ≠ []) :
    separatedLength texts = ([38].intercalate texts).length + 1 := by
  have hlen := congrArg List.length (flatten_map_append 38 h)
  rw [List.length_flatten, List.map_map, List.length_append] at hlen
  rw [separatedLength, ← List.length_singleton (a := (38 : UInt8)), ← hlen]
  exact congrArg List.sum (List.map_congr_left fun text _ => (List.length_append).symm)

theorem separatedLength_perm {texts texts' : List CString} (h : texts.Perm texts') :
    separatedLength texts = separatedLength texts' := (h.map _).sum_eq

/-- **Finding all arguments.**  A query string in which a value is found for each of
some keys is at least as long as that of the arguments. -/
theorem length_le_of_found {arguments : List (CString × CString)}
    (hkeys : (arguments.map Prod.fst).Nodup)
    (hfound : ∀ argument ∈ arguments, ∃ value, lookupArgument query argument.1 = some value ∧
      argument.2.length ≤ value.length) :
    ([38].intercalate (arguments.map argumentText)).length ≤ query.length := by
  let pieces := query.splitOn 38
  have hgroups : ∀ argument ∈ arguments, (argumentText argument).length + 1 ≤
      separatedLength (pieces.filter fun piece => (parseArgument piece).1 = argument.1) := by
    intro argument hargument
    obtain ⟨value, hvalue, hlen⟩ := hfound argument hargument
    obtain ⟨piece, hpiece, hparse⟩ := exists_piece hvalue
    have hmem : piece ∈ pieces.filter fun piece => (parseArgument piece).1 = argument.1 :=
      List.mem_filter.mpr ⟨hpiece, by simp [hparse]⟩
    have hbound := length_parseArgument_le hparse
    have hone : piece.length + 1 ≤ separatedLength (pieces.filter fun piece =>
        (parseArgument piece).1 = argument.1) :=
      List.single_le_sum (by simp) _ (List.mem_map_of_mem hmem)
    have htext : (argumentText argument).length = argument.1.length + 1 + argument.2.length := by
      rw [argumentText, List.length_append, List.length_append]
      rfl
    omega
  have hsum : separatedLength (arguments.map argumentText) ≤ separatedLength pieces := by
    let groups := fun key : CString => pieces.filter fun piece => (parseArgument piece).1 = key
    have hperm := flatMap_filter_perm (fun piece => (parseArgument piece).1) hkeys pieces
    calc separatedLength (arguments.map argumentText)
        ≤ (arguments.map fun argument => separatedLength (groups argument.1)).sum := by
          rw [separatedLength, List.map_map]
          exact List.sum_le_sum hgroups
      _ = separatedLength ((arguments.map Prod.fst).flatMap groups) := by
          simp [separatedLength, List.flatMap_def, List.sum_flatten, Function.comp_def]
      _ ≤ separatedLength pieces := by
          rw [separatedLength_perm hperm]
          exact (List.filter_sublist.map _).sum_le_sum fun _ _ => Nat.zero_le _
  have hpieces : separatedLength pieces = query.length + 1 := by
    rw [separatedLength_eq (List.splitOn_ne_nil 38 query), List.intercalate_splitOn]
  by_cases hnil : arguments = []
  · simp [hnil]
  · rw [separatedLength_eq (by simpa using hnil), hpieces] at hsum
    omega

/-! ## Arguments as they are written -/

/-- Nothing in the text is decoded or splits the query string. -/
def QueryPlain (text : CString) : Prop := 38 ∉ text ∧ 43 ∉ text ∧ hasEscape text = false

instance (text : CString) : Decidable (QueryPlain text) := inferInstanceAs (Decidable (_ ∧ _))

theorem QueryPlain.unescape_eq (h : QueryPlain s) : unescape s = s := unescape_eq_self_iff.mpr h.2

theorem hasEscape_of_not_mem (h : 37 ∉ s) : hasEscape s = false := by
  fun_induction hasEscape s with
  | case1 b x l s ih =>
      rw [List.mem_cons, not_or] at h
      simp [isEscape, Ne.symm h.1, ih h.2]
  | case2 => rfl

theorem queryPlain_of_isdigit (h : ∀ b ∈ s, isdigit b = true) : QueryPlain s := by
  have hne : ∀ b : UInt8, isdigit b = false → b ∉ s := fun b hb hmem => by simp [h b hmem] at hb
  exact ⟨hne 38 rfl, hne 43 rfl, hasEscape_of_not_mem (hne 37 rfl)⟩

/-- Key and value are read as they are written. -/
def PlainArgument (argument : CString × CString) : Prop :=
  QueryPlain argument.1 ∧ 61 ∉ argument.1 ∧ QueryPlain argument.2

variable {arguments : List (CString × CString)} {key : CString}

theorem parseArgument_of_plain {argument : CString × CString} (h : PlainArgument argument) :
    parseArgument (argumentText argument) = (argument.1, some argument.2) := by
  rw [← Prod.mk.eta (p := argument), parseArgument_argumentText h.2.1, h.1.unescape_eq,
    h.2.2.unescape_eq]

theorem PlainArgument.not_mem {argument : CString × CString} (h : PlainArgument argument) :
    38 ∉ argumentText argument :=
  List.not_mem_append (List.not_mem_append h.1.1 (by decide)) h.2.2.1

/-- Looking up what is found in plain arguments. -/
theorem lookup_map_parseArgument (hplain : ∀ argument ∈ arguments, PlainArgument argument)
    (k : CString) :
    ((arguments.map argumentText).map parseArgument).lookup k = (arguments.lookup k).map some := by
  induction arguments with
  | nil => rfl
  | cons argument arguments ih =>
      obtain ⟨hargument, harguments⟩ := List.forall_mem_cons.mp hplain
      rw [List.map_cons, List.map_cons, parseArgument_of_plain hargument, List.lookup_cons,
        List.lookup_cons, ih harguments]
      split <;> rfl

/-- The pieces are the arguments, and those of a last one that may be split. -/
theorem splitOn_arguments (hplain : ∀ argument ∈ arguments, PlainArgument argument)
    (last : CString) :
    ([38].intercalate (arguments.map argumentText ++ [last])).splitOn 38 =
      arguments.map argumentText ++ last.splitOn 38 := by
  induction arguments with
  | nil => simp
  | cons argument arguments ih =>
      obtain ⟨hargument, harguments⟩ := List.forall_mem_cons.mp hplain
      rw [List.map_cons, List.cons_append, List.intercalate_cons_of_ne_nil (by simp),
        List.append_assoc, List.singleton_append, List.splitOn_append_cons_self_of_not_mem
          hargument.not_mem, ih harguments, List.cons_append]

/-- **Plain arguments** are found as they are written. -/
theorem lookupArgument_of_plain (hplain : ∀ argument ∈ arguments, PlainArgument argument)
    (k : CString) :
    lookupArgument ([38].intercalate (arguments.map argumentText)) k = arguments.lookup k := by
  by_cases hnil : arguments = []
  · subst hnil
    cases k <;> simp [lookupArgument, parseArgument, unescape, List.lookup]
  · have hsplit : ([38].intercalate (arguments.map argumentText)).splitOn 38 =
        arguments.map argumentText :=
      List.splitOn_intercalate 38 (List.forall_mem_map.mpr fun argument hargument =>
        (hplain argument hargument).not_mem) (by simpa using hnil)
    rw [lookupArgument, hsplit, lookup_map_parseArgument hplain]
    cases arguments.lookup k <;> rfl

theorem splitOn_front (s : CString) :
    ∃ rest, s.splitOn 38 = s.takeWhile (· != 38) :: rest := by
  by_cases hmem : 38 ∈ s
  · obtain ⟨front, back, rfl, hfront⟩ := List.eq_append_cons_of_mem hmem
    have hpos : ∀ b ∈ front, (b != 38) = true := fun b hb => by
      simpa using fun h : b = 38 => hfront (h ▸ hb)
    exact ⟨back.splitOn 38, by
      rw [List.splitOn_append_cons_self_of_not_mem hfront, List.takeWhile_append_of_pos hpos]
      simp⟩
  · have hpos : ∀ b ∈ s, (b != 38) = true := fun b hb => by
      simpa using fun h : b = 38 => hmem (h ▸ hb)
    exact ⟨[], by rw [List.splitOn_eq_singleton hmem, List.takeWhile_eq_self_iff.mpr hpos]⟩

/-- **The last argument**, whatever is in its value, is found up to the first `&`. -/
theorem lookupArgument_last (hplain : ∀ argument ∈ arguments, PlainArgument argument)
    (hkey : QueryPlain key) (hequals : 61 ∉ key) (hnone : arguments.lookup key = none)
    (value : CString) :
    lookupArgument ([38].intercalate ((arguments ++ [(key, value)]).map argumentText)) key =
      some (unescape (value.takeWhile (· != 38))) := by
  have hpos : ∀ b ∈ key ++ cstr "=", (b != 38) = true := by
    refine List.forall_mem_append.mpr ⟨fun b hb => ?_, by simp [cstr]⟩
    simpa using fun h : b = 38 => hkey.1 (h ▸ hb)
  have htake : (argumentText (key, value)).takeWhile (· != 38) =
      argumentText (key, value.takeWhile (· != 38)) := by
    rw [argumentText, List.takeWhile_append_of_pos hpos]
    rfl
  obtain ⟨rest, hrest⟩ := splitOn_front (argumentText (key, value))
  rw [lookupArgument, List.map_append, List.map_singleton, splitOn_arguments hplain, List.map_append,
    List.lookup_append, lookup_map_parseArgument hplain, hnone, hrest, htake, List.map_cons,
    parseArgument_argumentText hequals, hkey.unescape_eq, List.lookup_cons_self]
  rfl

end

end Profiling
