import Profiling.CString

/-!
# Profiling.SqlLiteral

String literals in the text of an SQL statement.

A literal is between two quotes, and a quote in it is doubled (`sqlLiteral`).
`sqlScan` goes through a text from quote to quote.  It gives up at a byte with
which a comment, another kind of quotes, a variable or the end of the statement
may begin, so a text that it ends in a literal of has a literal without an end.
-/

namespace Profiling

/-- A text with its quotes doubled. -/
def escapeQuotes (text : CString) : CString :=
  text.flatMap fun b => if b = 39 then [39, 39] else [b]

/-- The literal of a text. -/
def sqlLiteral (text : CString) : CString := 39 :: escapeQuotes text ++ [39]

/-- Where a byte of a statement is. -/
inductive SqlContext where
  | code
  | literal
  /-- not known -/
  | other
  deriving DecidableEq, Repr

/-- A comment, an identifier in quotes or in brackets, a variable or the end of
the statement may begin with it. -/
def sqlSpecial (b : UInt8) : Bool :=
  b == 45 || b == 47 || b == 34 || b == 96 || b == 91 || b == 35 || b == 36 || b == 58 ||
    b == 64 || b == 59

/-- The context behind a byte. -/
def SqlContext.next : SqlContext → UInt8 → SqlContext
  | .code, b => if b = 39 then .literal else if sqlSpecial b then .other else .code
  | .literal, b => if b = 39 then .code else .literal
  | .other, _ => .other

/-- The context behind a text. -/
def sqlScan (context : SqlContext) (text : CString) : SqlContext := text.foldl .next context

/-- The text ends in a literal that has no end. -/
def OpensLiteral (text : CString) : Prop := sqlScan .code text = .literal

instance (text : CString) : Decidable (OpensLiteral text) :=
  inferInstanceAs (Decidable (_ = _))

/-- No byte has a meaning of its own. -/
def SqlPlain (text : CString) : Prop := (text.all fun b => b != 39 && !sqlSpecial b) = true

section

variable {s t : CString}

@[simp] theorem escapeQuotes_nil : escapeQuotes [] = [] := rfl

theorem escapeQuotes_cons (b : UInt8) (s : CString) :
    escapeQuotes (b :: s) = (if b = 39 then [39, 39] else [b]) ++ escapeQuotes s :=
  List.flatMap_cons

/-- Each quote makes the text longer. -/
theorem length_escapeQuotes (s : CString) :
    (escapeQuotes s).length = s.length + s.count 39 := by
  induction s with
  | nil => rfl
  | cons b s ih => by_cases hb : b = 39 <;> simp [escapeQuotes_cons, hb, ih] <;> omega

theorem escapeQuotes_eq_self (h : 39 ∉ s) : escapeQuotes s = s := by
  induction s with
  | nil => rfl
  | cons b s ih =>
      rw [List.mem_cons, not_or] at h
      rw [escapeQuotes_cons, if_neg (Ne.symm h.1), ih h.2]
      rfl

theorem escapeQuotes_eq_self_iff : escapeQuotes s = s ↔ 39 ∉ s := by
  refine ⟨fun h => ?_, escapeQuotes_eq_self⟩
  have hlen := congrArg List.length h
  rw [length_escapeQuotes] at hlen
  exact List.count_eq_zero.mp (by omega)

theorem mem_escapeQuotes {b : UInt8} : b ∈ escapeQuotes s ↔ b ∈ s := by
  simp only [escapeQuotes, List.mem_flatMap]
  constructor
  · rintro ⟨c, hc, hb⟩
    split at hb <;> simp_all
  · intro hb
    refine ⟨b, hb, ?_⟩
    split <;> simp_all

/-- What is left of an escaped text that is cut: an escaped text, or one with the
first of two quotes behind it. -/
theorem take_escapeQuotes (s : CString) (k : Nat) :
    ∃ s', s' <+: s ∧ ((escapeQuotes s).take k = escapeQuotes s' ∨
      (escapeQuotes s).take k = escapeQuotes s' ++ [39] ∧ s'.length < k) := by
  induction s generalizing k with
  | nil => exact ⟨[], List.prefix_rfl, .inl (by simp)⟩
  | cons b s ih =>
      by_cases hb : b = 39
      · rcases k with _ | _ | k
        · exact ⟨[], List.nil_prefix, .inl rfl⟩
        · exact ⟨[], List.nil_prefix, .inr ⟨by simp [escapeQuotes_cons, hb], by simp⟩⟩
        · obtain ⟨s', hpre, h⟩ := ih k
          refine ⟨b :: s', List.cons_prefix_cons.mpr ⟨rfl, hpre⟩, ?_⟩
          simp only [escapeQuotes_cons, hb, if_true, List.cons_append, List.nil_append,
            List.take_succ_cons, List.cons.injEq, true_and, List.length_cons]
          exact h.imp_right fun h => ⟨h.1, by omega⟩
      · cases k with
        | zero => exact ⟨[], List.nil_prefix, .inl rfl⟩
        | succ k =>
            obtain ⟨s', hpre, h⟩ := ih k
            refine ⟨b :: s', List.cons_prefix_cons.mpr ⟨rfl, hpre⟩, ?_⟩
            simp only [escapeQuotes_cons, hb, if_false, List.cons_append, List.nil_append,
              List.take_succ_cons, List.cons.injEq, true_and, List.length_cons]
            exact h.imp_right fun h => ⟨h.1, by omega⟩

theorem sqlPlain_iff : SqlPlain s ↔ ∀ b ∈ s, b ≠ 39 ∧ sqlSpecial b = false := by
  simp [SqlPlain]

theorem sqlPlain_append (hs : SqlPlain s) (ht : SqlPlain t) : SqlPlain (s ++ t) :=
  sqlPlain_iff.mpr (List.forall_mem_append.mpr ⟨sqlPlain_iff.mp hs, sqlPlain_iff.mp ht⟩)

theorem sqlPlain_of_isdigit (h : ∀ b ∈ s, isdigit b = true) : SqlPlain s := by
  refine sqlPlain_iff.mpr fun b hb => ?_
  have hrange := toNat_of_isdigit (h b hb)
  simp only [sqlSpecial, Bool.or_eq_false_iff, beq_eq_false_iff_ne, ne_eq, ← UInt8.toNat_inj,
    UInt8.reduceToNat]
  omega

/-! ## Scanning -/

theorem sqlScan_append (context : SqlContext) (s t : CString) :
    sqlScan context (s ++ t) = sqlScan (sqlScan context s) t := List.foldl_append

theorem sqlScan_code (h : SqlPlain s) : sqlScan .code s = .code := by
  induction s with
  | nil => rfl
  | cons b s ih =>
      obtain ⟨⟨hquote, hspecial⟩, hs⟩ := List.forall_mem_cons.mp (sqlPlain_iff.mp h)
      rw [sqlScan, List.foldl_cons, SqlContext.next, if_neg hquote, hspecial]
      exact ih (sqlPlain_iff.mpr hs)

/-- An escaped text does not leave its literal. -/
theorem sqlScan_escapeQuotes (s : CString) : sqlScan .literal (escapeQuotes s) = .literal := by
  induction s with
  | nil => rfl
  | cons b s ih =>
      by_cases hb : b = 39
      · subst hb
        exact ih
      · rw [escapeQuotes_cons, if_neg hb, List.singleton_append, sqlScan, List.foldl_cons,
          SqlContext.next, if_neg hb]
        exact ih

/-- Behind a literal is code. -/
theorem sqlScan_sqlLiteral (s : CString) : sqlScan .code (sqlLiteral s) = .code := by
  rw [sqlLiteral, List.cons_append, sqlScan, List.foldl_cons, ← sqlScan, sqlScan_append]
  change sqlScan (sqlScan .literal (escapeQuotes s)) [39] = .code
  rw [sqlScan_escapeQuotes]
  rfl

/-- A literal that is begun and not ended. -/
theorem opensLiteral_of_begun (hs : SqlPlain s) (t : CString) {rest : CString} (hrest : 39 ∉ rest) :
    OpensLiteral (s ++ 39 :: escapeQuotes t ++ rest) := by
  have hbegin : sqlScan .code (s ++ [39]) = .literal := by
    rw [sqlScan_append, sqlScan_code hs]
    rfl
  have hsplit : s ++ 39 :: escapeQuotes t ++ rest =
      (s ++ [39]) ++ (escapeQuotes t ++ escapeQuotes rest) := by
    simp [escapeQuotes_eq_self hrest]
  rw [OpensLiteral, hsplit, sqlScan_append, hbegin, sqlScan_append, sqlScan_escapeQuotes,
    sqlScan_escapeQuotes]

end

end Profiling
