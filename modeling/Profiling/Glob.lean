import Profiling.CString

/-!
# Profiling.Glob

Shell patterns, and the expansions that cut a string by them.

* `globMatch_back`, `globMatch_front`, `globMatch_inside` — what the patterns
  with one text and `*` around it match;
* `withoutFront_sep`, `withoutBack_sep` — the shortest cut at a separator: in
  front at the first one, at the back at the last one.
-/

namespace Profiling

/-- A part of a pattern. -/
inductive GlobPart where
  /-- a quoted text -/
  | exact (text : CString)
  /-- `*` -/
  | any
  deriving DecidableEq, Repr

/-- A pattern of `case`, of `[[ … == … ]]` or of an expansion. -/
abbrev Glob := List GlobPart

/-- The pattern matches the whole string. -/
def globMatch : Glob → CString → Bool
  | [], s => s.isEmpty
  | .exact text :: glob, s => text.isPrefixOf s && globMatch glob (s.drop text.length)
  | .any :: glob, s => s.tails.any (globMatch glob)

/-- `${s#glob}`: without the shortest beginning that matches. -/
def withoutFront (glob : Glob) (s : CString) : CString :=
  match (List.range (s.length + 1)).find? fun n => globMatch glob (s.take n) with
  | some n => s.drop n
  | none => s

/-- `${s%glob}`: without the shortest end that matches. -/
def withoutBack (glob : Glob) (s : CString) : CString :=
  match (List.range (s.length + 1)).find? fun n => globMatch glob (s.drop (s.length - n)) with
  | some n => s.take (s.length - n)
  | none => s

example : withoutFront [.any, .exact (cstr "-")] (cstr "09-22-23") = cstr "22-23" := by decide

example : withoutBack [.exact (cstr "-"), .any] (cstr "09-22-23") = cstr "09-22" := by decide

section

variable {glob : Glob} {text front back s : CString} {b : UInt8}

/-! ## Matching -/

theorem globMatch_nil : globMatch [] s = true ↔ s = [] := List.isEmpty_iff

theorem globMatch_exact :
    globMatch (.exact text :: glob) s = true ↔
      ∃ rest, s = text ++ rest ∧ globMatch glob rest = true := by
  rw [globMatch, Bool.and_eq_true, List.isPrefixOf_iff_prefix]
  constructor
  · rintro ⟨⟨rest, rfl⟩, hrest⟩
    exact ⟨rest, rfl, by rwa [List.drop_left] at hrest⟩
  · rintro ⟨rest, rfl, hrest⟩
    exact ⟨⟨rest, rfl⟩, by rwa [List.drop_left]⟩

theorem globMatch_any :
    globMatch (.any :: glob) s = true ↔ ∃ skipped rest, s = skipped ++ rest ∧
      globMatch glob rest = true := by
  rw [globMatch, List.any_eq_true]
  constructor
  · rintro ⟨rest, hrest, hmatch⟩
    obtain ⟨skipped, hs⟩ := (List.mem_tails _ _).mp hrest
    exact ⟨skipped, rest, hs.symm, hmatch⟩
  · rintro ⟨skipped, rest, hs, hmatch⟩
    exact ⟨rest, (List.mem_tails _ _).mpr ⟨skipped, hs.symm⟩, hmatch⟩

/-- `*` at the end matches whatever there is. -/
theorem globMatch_any_nil (s : CString) : globMatch [.any] s = true :=
  globMatch_any.mpr ⟨s, [], (List.append_nil s).symm, rfl⟩

theorem globMatch_exact_nil : globMatch [.exact text] s = true ↔ s = text := by
  simp [globMatch_exact, globMatch_nil]

theorem globMatch_back : globMatch [.any, .exact text] s = true ↔ text <:+ s := by
  simp only [globMatch_any, globMatch_exact_nil]
  constructor
  · rintro ⟨skipped, rest, hs, rfl⟩
    exact ⟨skipped, hs.symm⟩
  · rintro ⟨skipped, hs⟩
    exact ⟨skipped, text, hs.symm, rfl⟩

theorem globMatch_front : globMatch [.exact text, .any] s = true ↔ text <+: s := by
  simp only [globMatch_exact, globMatch_any_nil, and_true]
  exact ⟨fun ⟨rest, hs⟩ => ⟨rest, hs.symm⟩, fun ⟨rest, hs⟩ => ⟨rest, hs.symm⟩⟩

theorem globMatch_inside : globMatch [.any, .exact text, .any] s = true ↔ text <:+: s := by
  rw [globMatch_any]
  simp only [globMatch_front]
  constructor
  · rintro ⟨skipped, rest, rfl, back, rfl⟩
    exact ⟨skipped, back, (List.append_assoc _ _ _)⟩
  · rintro ⟨skipped, back, hs⟩
    exact ⟨skipped, text ++ back, by rw [← hs, List.append_assoc], ⟨back, rfl⟩⟩

/-- `text*` with anything behind it begins with the text. -/
theorem globMatch_of_exact (h : globMatch (.exact text :: glob) s = true) : text <+: s := by
  obtain ⟨rest, hs, -⟩ := globMatch_exact.mp h
  exact ⟨rest, hs.symm⟩

/-! ## Cutting -/

/-- A beginning that matches, and none shorter does. -/
theorem withoutFront_eq (hmatch : globMatch glob front = true)
    (hleast : ∀ n < front.length, globMatch glob (front.take n) = false) :
    withoutFront glob (front ++ back) = back := by
  have hfind : ((List.range ((front ++ back).length + 1)).find? fun n =>
      globMatch glob ((front ++ back).take n)) = some front.length := by
    refine List.find?_range_eq_some.mpr ⟨?_, ?_, fun n hn => ?_⟩
    · rwa [List.take_left]
    · rw [List.mem_range, List.length_append]
      omega
    · rw [List.take_append_of_le_length (Nat.le_of_lt hn), hleast n hn]
      rfl
  rw [withoutFront, hfind]
  exact List.drop_left

/-- An end that matches, and none shorter does. -/
theorem withoutBack_eq (hmatch : globMatch glob back = true)
    (hleast : ∀ rest, rest <:+ back → rest ≠ back → globMatch glob rest = false) :
    withoutBack glob (front ++ back) = front := by
  have hlen : (front ++ back).length = front.length + back.length := List.length_append
  have hfind : ((List.range ((front ++ back).length + 1)).find? fun n =>
      globMatch glob ((front ++ back).drop ((front ++ back).length - n))) = some back.length := by
    refine List.find?_range_eq_some.mpr ⟨?_, ?_, fun n hn => ?_⟩
    · rwa [hlen, Nat.add_sub_cancel, List.drop_left]
    · rw [List.mem_range]
      omega
    · have hdrop : (front ++ back).drop ((front ++ back).length - n) =
          back.drop (back.length - n) := by
        have hsplit : (front ++ back).length - n = front.length + (back.length - n) := by omega
        rw [hsplit, List.drop_length_add_append]
      rw [hdrop, hleast _ (List.drop_suffix _ _) fun heq => ?_]
      · rfl
      · have hshort := congrArg List.length heq
        rw [List.length_drop] at hshort
        omega
  rw [withoutBack, hfind]
  dsimp only
  rw [hlen, Nat.add_sub_cancel, List.take_left]

/-- `${s#text}` -/
theorem withoutFront_exact (text back : CString) :
    withoutFront [.exact text] (text ++ back) = back := by
  refine withoutFront_eq (globMatch_exact_nil.mpr rfl) fun n hn => ?_
  rw [← Bool.not_eq_true, globMatch_exact_nil]
  intro heq
  have hlen := congrArg List.length heq
  rw [List.length_take] at hlen
  omega

/-- `${s#*text}`, where the text is in front. -/
theorem withoutFront_text (text back : CString) :
    withoutFront [.any, .exact text] (text ++ back) = back := by
  refine withoutFront_eq (globMatch_back.mpr List.suffix_rfl) fun n hn => ?_
  rw [← Bool.not_eq_true, globMatch_back]
  intro hsuffix
  have hlen := hsuffix.length_le
  rw [List.length_take] at hlen
  omega

/-- `${s%text*}`, where the text is at the end. -/
theorem withoutBack_text (front text : CString) :
    withoutBack [.exact text, .any] (front ++ text) = front := by
  refine withoutBack_eq (globMatch_front.mpr List.prefix_rfl) fun rest hrest hne => ?_
  rw [← Bool.not_eq_true, globMatch_front]
  exact fun hbegin => hne (hrest.eq_of_length_le hbegin.length_le)

/-- `${s#*b}` cuts behind the first separator. -/
theorem withoutFront_sep (hfront : b ∉ front) (back : CString) :
    withoutFront [.any, .exact [b]] (front ++ b :: back) = back := by
  have hsplit : front ++ b :: back = (front ++ [b]) ++ back := by simp
  rw [hsplit]
  refine withoutFront_eq (globMatch_back.mpr (List.suffix_append front [b])) fun n hn => ?_
  rw [← Bool.not_eq_true, globMatch_back]
  intro hsuffix
  rw [List.length_append, List.length_singleton] at hn
  rw [List.take_append_of_le_length (Nat.le_of_lt_succ hn)] at hsuffix
  exact hfront (List.mem_of_mem_take (hsuffix.subset (List.mem_singleton_self b)))

/-- `${s%b*}` cuts in front of the last separator. -/
theorem withoutBack_sep (front : CString) (hback : b ∉ back) :
    withoutBack [.exact [b], .any] (front ++ b :: back) = front := by
  refine withoutBack_eq (globMatch_front.mpr ⟨back, rfl⟩) fun rest hrest hne => ?_
  rw [← Bool.not_eq_true, globMatch_front]
  intro hbegin
  rcases List.suffix_cons_iff.mp hrest with heq | hrest
  · exact hne heq
  · exact hback (hrest.subset (hbegin.subset (List.mem_singleton_self b)))

end

end Profiling
