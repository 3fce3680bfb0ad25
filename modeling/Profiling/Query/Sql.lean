import Profiling.Query.Command
import Profiling.Scanf
import Profiling.SqlLiteral

/-!
# Profiling.Query.Sql

The statements of `perform_historical_query`, as SQLite reads them.

SQLite is a parameter: what `sqlite3_prepare_v2` makes of a text.  Of its dialect
two things are used (`SqlDialect`): what a conjunction of conditions selects, and
that a text with an open literal is refused.  A reader that goes through these
statements from condition to condition has both (`sqlDialect_readStatement`).
-/

namespace Profiling

/-- A group of rows, and how many they are. -/
abbrev StackGroup := (Int × CString × CString) × Nat

/-- A statement that is prepared: what it makes of the rows of `call_stacks`. -/
abbrev Prepared := List CallStackRow → List StackGroup

/-- The columns that the rows are grouped by. -/
def groupKey (row : CallStackRow) : Int × CString × CString :=
  (row.pid, row.processName, row.fullStack)

namespace Condition

/-- The condition, with its name as a literal. -/
def sqlText : Condition → CString
  | timestampGe bound => text (.timestampGe bound)
  | timestampLe bound => text (.timestampLe bound)
  | pidEq pid => text (.pidEq pid)
  | processNameEq name => cstr " AND process_name = " ++ sqlLiteral name

/-- Its numbers are not negative and are integers of SQL, its name is a C string. -/
def Readable : Condition → Prop
  | timestampGe bound => 0 ≤ bound ∧ bound < 2 ^ 63
  | timestampLe bound => 0 ≤ bound ∧ bound < 2 ^ 63
  | pidEq pid => 0 ≤ pid ∧ pid < 2 ^ 63
  | processNameEq name => 0 ∉ name

/-- The row meets all of these conditions. -/
def meetsAll (conditions : List Condition) (row : CallStackRow) : Bool :=
  conditions.all (·.holds row)

end Condition

/-- The statement that asks for the rows that meet these conditions. -/
def sqlStatement (conditions : List Condition) : CString :=
  QueryCommand.selectText (cstr " WHERE 1=1 " ++ conditions.flatMap Condition.sqlText)

/-- What is used of SQLite. -/
structure SqlDialect (prepare : CString → Option Prepared) : Prop where
  /-- conditions with `AND` in between select the rows that meet all of them -/
  select : ∀ conditions : List Condition, (∀ c ∈ conditions, c.Readable) →
    (sqlStatement conditions).length < 1024 →
    ∃ run, prepare (sqlStatement conditions) = some run ∧ ∀ rows, (run rows).Perm
      (groupCount ((rows.filter (Condition.meetsAll conditions)).map groupKey))
  /-- a literal without an end is an error -/
  openLiteral : ∀ text : CString, 0 ∉ text → OpensLiteral text → prepare text = none

/-! ## Reading the statement back -/

/-- What is behind a text. -/
def afterText (text s : CString) : Option CString :=
  if text.isPrefixOf s then some (s.drop text.length) else none

/-- A number, and what is behind it. -/
def readNumber (s : CString) : Option (Int × CString) :=
  (scanNumber s).map fun scanned => (leadingDecimal scanned.1, scanned.2)

/-- A literal behind its first quote, and what is behind its last one. -/
def readLiteral : CString → Option (CString × CString)
  | [] => none
  | [b] => if b = 39 then some ([], []) else none
  | b :: b' :: s =>
      if b = 39 then
        if b' = 39 then (readLiteral s).map fun (text, rest) => (39 :: text, rest)
        else some ([], b' :: s)
      else (readLiteral (b' :: s)).map fun (text, rest) => (b :: text, rest)

/-- A condition, and what is behind it. -/
def readCondition (s : CString) : Option (Condition × CString) :=
  ((afterText (cstr " AND timestamp >= ") s).bind readNumber).map
      (fun (bound, rest) => (.timestampGe bound, rest)) <|>
    ((afterText (cstr " AND timestamp <= ") s).bind readNumber).map
      (fun (bound, rest) => (.timestampLe bound, rest)) <|>
    ((afterText (cstr " AND pid = ") s).bind readNumber).map
      (fun (pid, rest) => (.pidEq pid, rest)) <|>
    ((afterText (cstr " AND process_name = '") s).bind readLiteral).map
      fun (name, rest) => (.processNameEq name, rest)

/-- All conditions in front of the grouping. -/
def readConditions : Nat → CString → Option (List Condition)
  | 0, _ => none
  | fuel + 1, s =>
      if s = cstr " GROUP BY pid, process_name, full_stack;" then some []
      else (readCondition s).bind fun (c, rest) => (readConditions fuel rest).map (c :: ·)

/-- `sqlite3_prepare_v2`, for these statements alone. -/
def readStatement (text : CString) : Option Prepared :=
  if OpensLiteral text then none
  else
    ((afterText (cstr "SELECT pid, process_name, full_stack, COUNT(*) FROM call_stacks  WHERE 1=1 ")
        text).bind fun rest => readConditions (rest.length + 1) rest).map
      fun conditions rows =>
        groupCount ((rows.filter (Condition.meetsAll conditions)).map groupKey)

section

variable {rest : CString}

theorem afterText_append (text rest : CString) : afterText text (text ++ rest) = some rest := by
  simp [afterText]

theorem sqlPlain_toString {n : Int} (hn : 0 ≤ n) : SqlPlain (cstr (toString n)) := by
  obtain ⟨n, rfl⟩ := Int.eq_ofNat_of_zero_le hn
  rw [Int.toString_eq_repr, Int.repr_eq_if, if_pos (Int.natCast_nonneg n), Int.toNat_natCast]
  exact sqlPlain_of_isdigit fun b => isdigit_of_mem_repr

/-- The statement up to the clauses is code. -/
theorem sqlPlain_select :
    SqlPlain (cstr "SELECT pid, process_name, full_stack, COUNT(*) FROM call_stacks ") := rfl

theorem sqlPlain_where : SqlPlain (cstr " WHERE 1=1 ") := rfl

theorem readNumber_toString {n : Int} (hn : 0 ≤ n) (hrest : EndsNumber rest) :
    readNumber (cstr (toString n) ++ rest) = some (n, rest) := by
  obtain ⟨k, rfl⟩ := Int.eq_ofNat_of_zero_le hn
  have hvalue : leadingDecimal (cstr (toString (k : Int))) = k := by
    rw [Int.toString_eq_repr, Int.repr_eq_if, if_pos hn, Int.toNat_natCast, leadingDecimal_repr]
  rw [readNumber, scanNumber_toString k hrest, Option.map_some]
  dsimp only
  rw [hvalue]

theorem readLiteral_cons {b : UInt8} (hb : b ≠ 39) {s : CString} (hs : s ≠ []) :
    readLiteral (b :: s) = (readLiteral s).map fun (text, rest) => (b :: text, rest) := by
  cases s with
  | nil => exact absurd rfl hs
  | cons b' s => rw [readLiteral, if_neg hb]

/-- A literal is read up to its end. -/
theorem readLiteral_escapeQuotes (text : CString) (hrest : rest.head? ≠ some 39) :
    readLiteral (escapeQuotes text ++ 39 :: rest) = some (text, rest) := by
  induction text with
  | nil =>
      cases rest with
      | nil => rfl
      | cons b rest =>
          have hb : b ≠ 39 := fun heq => hrest (by rw [heq]; rfl)
          simp [readLiteral, hb]
  | cons b text ih =>
      by_cases hb : b = 39
      · simp [escapeQuotes_cons, hb, readLiteral, ih]
      · rw [escapeQuotes_cons, if_neg hb, List.singleton_append, List.cons_append,
          readLiteral_cons hb (by simp), ih]
        rfl

/-- A condition is read back. -/
theorem readCondition_sqlText {c : Condition} (hc : c.Readable) (hrest : rest.head? = some 32) :
    readCondition (c.sqlText ++ rest) = some (c, rest) := by
  have hends : EndsNumber rest := by
    intro b hb
    rw [hrest] at hb
    cases hb
    decide
  -- the four texts differ, so only the reader of the condition itself gets past its text
  cases c with
  | timestampGe bound =>
      rw [Condition.sqlText, Condition.text, List.append_assoc, readCondition, afterText_append,
        Option.bind_some, readNumber_toString hc.1 hends]
      rfl
  | timestampLe bound =>
      have hge : ∀ s, afterText (cstr " AND timestamp >= ") (cstr " AND timestamp <= " ++ s) =
        none := fun _ => rfl
      rw [Condition.sqlText, Condition.text, List.append_assoc, readCondition, hge,
        afterText_append, Option.bind_some, readNumber_toString hc.1 hends]
      rfl
  | pidEq pid =>
      have hge : ∀ s, afterText (cstr " AND timestamp >= ") (cstr " AND pid = " ++ s) = none :=
        fun _ => rfl
      have hle : ∀ s, afterText (cstr " AND timestamp <= ") (cstr " AND pid = " ++ s) = none :=
        fun _ => rfl
      rw [Condition.sqlText, Condition.text, List.append_assoc, readCondition, hge, hle,
        afterText_append, Option.bind_some, readNumber_toString hc.1 hends]
      rfl
  | processNameEq name =>
      have hge : ∀ s, afterText (cstr " AND timestamp >= ") (cstr " AND process_name = '" ++ s) =
        none := fun _ => rfl
      have hle : ∀ s, afterText (cstr " AND timestamp <= ") (cstr " AND process_name = '" ++ s) =
        none := fun _ => rfl
      have hpid : ∀ s, afterText (cstr " AND pid = ") (cstr " AND process_name = '" ++ s) =
        none := fun _ => rfl
      have hliteral : cstr " AND process_name = " ++ sqlLiteral name ++ rest =
          cstr " AND process_name = '" ++ (escapeQuotes name ++ 39 :: rest) := by
        have hquote : cstr " AND process_name = '" = cstr " AND process_name = " ++ [39] := rfl
        simp [hquote, sqlLiteral]
      have hquote : rest.head? ≠ some 39 := by
        rw [hrest]
        decide
      rw [Condition.sqlText, hliteral, readCondition, hge, hle, hpid, afterText_append,
        Option.bind_some, readLiteral_escapeQuotes name hquote]
      rfl

/-- A condition begins unlike the grouping. -/
theorem sqlText_front (c : Condition) : ∃ s, c.sqlText = 32 :: 65 :: s := by
  cases c <;> exact ⟨_, rfl⟩

/-- All conditions are read back. -/
theorem readConditions_flatMap {conditions : List Condition}
    (hreadable : ∀ c ∈ conditions, c.Readable) {fuel : Nat} (hfuel : conditions.length < fuel) :
    readConditions fuel (conditions.flatMap Condition.sqlText ++
      cstr " GROUP BY pid, process_name, full_stack;") = some conditions := by
  induction conditions generalizing fuel with
  | nil =>
      obtain ⟨fuel, rfl⟩ := Nat.exists_eq_add_of_lt hfuel
      rfl
  | cons c conditions ih =>
      obtain ⟨hc, hconditions⟩ := List.forall_mem_cons.mp hreadable
      obtain ⟨fuel, rfl⟩ : ∃ n, fuel = n + 1 := ⟨fuel - 1, by omega⟩
      have hrest : (conditions.flatMap Condition.sqlText ++
          cstr " GROUP BY pid, process_name, full_stack;").head? = some 32 := by
        cases conditions with
        | nil => rfl
        | cons c' conditions =>
            obtain ⟨s, hs⟩ := sqlText_front c'
            rw [List.flatMap_cons, hs]
            rfl
      have hne : c.sqlText ++ (conditions.flatMap Condition.sqlText ++
          cstr " GROUP BY pid, process_name, full_stack;") ≠
            cstr " GROUP BY pid, process_name, full_stack;" := by
        obtain ⟨s, hs⟩ := sqlText_front c
        have hgroup : cstr " GROUP BY pid, process_name, full_stack;" =
          32 :: 71 :: cstr "ROUP BY pid, process_name, full_stack;" := rfl
        rw [hs, hgroup]
        intro heq
        exact absurd (List.cons.inj (List.cons.inj heq).2).1 (by decide)
      rw [List.flatMap_cons, List.append_assoc, readConditions, if_neg hne,
        readCondition_sqlText hc hrest, Option.bind_some]
      dsimp only
      rw [ih hconditions (by simpa using hfuel), Option.map_some]

theorem length_le_flatMap_sqlText (conditions : List Condition) :
    conditions.length ≤ (conditions.flatMap Condition.sqlText).length := by
  induction conditions with
  | nil => exact Nat.le_refl 0
  | cons c conditions ih =>
      obtain ⟨s, hs⟩ := sqlText_front c
      rw [List.flatMap_cons, List.length_append, List.length_cons, hs, List.length_cons]
      omega

/-- A condition ends in code. -/
theorem sqlScan_sqlText {c : Condition} (hc : c.Readable) : sqlScan .code c.sqlText = .code := by
  cases c with
  | timestampGe bound =>
      exact sqlScan_code (sqlPlain_append rfl (sqlPlain_toString hc.1))
  | timestampLe bound =>
      exact sqlScan_code (sqlPlain_append rfl (sqlPlain_toString hc.1))
  | pidEq pid =>
      exact sqlScan_code (sqlPlain_append rfl (sqlPlain_toString hc.1))
  | processNameEq name =>
      have hplain : SqlPlain (cstr " AND process_name = ") := rfl
      rw [Condition.sqlText, sqlScan_append, sqlScan_code hplain]
      exact sqlScan_sqlLiteral name

/-- The statements do not end in a literal. -/
theorem not_opensLiteral_sqlStatement {conditions : List Condition}
    (hreadable : ∀ c ∈ conditions, c.Readable) : ¬OpensLiteral (sqlStatement conditions) := by
  have hconditions : sqlScan .code (conditions.flatMap Condition.sqlText) = .code := by
    induction conditions with
    | nil => rfl
    | cons c conditions ih =>
        obtain ⟨hc, hconditions⟩ := List.forall_mem_cons.mp hreadable
        rw [List.flatMap_cons, sqlScan_append, sqlScan_sqlText hc, ih hconditions]
  have hgroup : sqlScan .code (cstr " GROUP BY pid, process_name, full_stack;") = .other := rfl
  rw [OpensLiteral, sqlStatement, QueryCommand.selectText, sqlScan_append, sqlScan_append,
    sqlScan_append, sqlScan_code sqlPlain_select, sqlScan_code sqlPlain_where, hconditions, hgroup]
  exact SqlContext.noConfusion

/-- **The reader** has what is used of SQLite. -/
theorem sqlDialect_readStatement : SqlDialect readStatement := by
  constructor
  · intro conditions hreadable _
    have hsplit : sqlStatement conditions =
        cstr "SELECT pid, process_name, full_stack, COUNT(*) FROM call_stacks  WHERE 1=1 " ++
          (conditions.flatMap Condition.sqlText ++
            cstr " GROUP BY pid, process_name, full_stack;") := by
      simp [sqlStatement, QueryCommand.selectText, cstr]
    refine ⟨_, ?_, fun rows => List.Perm.refl _⟩
    have hfuel := length_le_flatMap_sqlText conditions
    rw [readStatement, if_neg (not_opensLiteral_sqlStatement hreadable), hsplit, afterText_append,
      Option.bind_some, readConditions_flatMap hreadable (by rw [List.length_append]; omega),
      Option.map_some]
  · intro text _ hopen
    rw [readStatement, if_pos hopen]

end

end Profiling
