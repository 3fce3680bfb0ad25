import Profiling.Query.Sql

/-!
# Profiling.Query.Historical

What the statement of `perform_historical_query` selects.

The name goes into the statement as it is.  So the statement asks for the name
if there is no quote in it and it is not cut off (`historicalSql_selects`).  A name
with quotes that are all doubled is another name, and one that is cut in its
literal is refused.  Other names leave the literal, and what they select is up to
the SQL in them.
-/

namespace Profiling

namespace QueryCommand

/-- The statement is accepted and selects the rows that are asked for. -/
def Selects (prepare : CString → Option Prepared) (sql : CharBuffer 1024) (q : QueryCommand) :
    Prop :=
  ∃ text run, q.historicalSql sql = some text ∧ prepare text = some run ∧
    ∀ rows, (run rows).Perm
      (groupCount ((rows.filter fun row => q.Wants row).map groupKey))

/-- There is no quote in the name. -/
def Quoteless (q : QueryCommand) : Prop := ∀ text ∈ q.name, 39 ∉ text

instance (q : QueryCommand) : Decidable q.Quoteless :=
  inferInstanceAs (Decidable (∀ _ ∈ _, _))

/-- The end of the range is not in front of its start. -/
def RangeNonempty (q : QueryCommand) : Prop :=
  0 < q.startTime → 0 < q.endTime → q.startTime ≤ q.endTime

/-- The name does not end its literal, as all its quotes are doubled; or the text
ends in a literal all the same. -/
def StaysInLiteral (q : QueryCommand) : Prop :=
  ∀ text ∈ q.name, (∃ escaped, text = escapeQuotes escaped) ∨
    OpensLiteral (selectText (q.whereText.take 511))

/-! ## The conditions -/

section

variable {q : QueryCommand}

/-- A condition that may be left out. -/
theorem all_optional {p : Prop} [Decidable p] (c : Condition) (f : Condition → Bool) :
    (if p then [c] else []).all f = true ↔ (p → f c = true) := by
  by_cases hp : p <;> simp [hp]

theorem meetsAll_fixedConditions (q : QueryCommand) (row : CallStackRow) :
    Condition.meetsAll (fixedConditions q.startTime q.endTime q.pid) row = true ↔
      (0 < q.startTime → q.startTime * 1000000000 ≤ row.timestamp) ∧
        (0 < q.endTime → row.timestamp ≤ q.endTime * 1000000000) ∧
        (0 < q.pid → row.pid = q.pid) := by
  rw [fixedConditions, Condition.meetsAll]
  simp only [List.all_append, Bool.and_eq_true, all_optional, and_assoc, Condition.holds,
    decide_eq_true_iff]

theorem meetsAll_conditions (q : QueryCommand) (row : CallStackRow) :
    Condition.meetsAll q.conditions row = decide (q.Wants row) := by
  have hname : ((q.name.map Condition.processNameEq).toList.all (·.holds row)) = true ↔
      ∀ text ∈ q.name, row.processName = text := by
    cases q.name <;> simp [Condition.holds]
  rw [Bool.eq_iff_iff, decide_eq_true_iff, conditions, Condition.meetsAll, List.all_append,
    Bool.and_eq_true, ← Condition.meetsAll, meetsAll_fixedConditions, hname, Wants, and_assoc,
    and_assoc]

/-- The conditions on times and the pid are readable, and have no name. -/
theorem fixedConditions_readable (hfit : q.ProductsFit) :
    ∀ c ∈ fixedConditions q.startTime q.endTime q.pid,
      c.Readable ∧ c.sqlText = c.text ∧ SqlPlain c.text := by
  intro c hc
  have hpid := q.pid_lt
  rcases mem_fixedConditions hc with ⟨rfl, h⟩ | ⟨rfl, h⟩ | ⟨rfl, h⟩
  · have := hfit.1 h
    exact ⟨⟨by omega, this⟩, rfl,
      sqlPlain_append rfl (sqlPlain_toString (by omega))⟩
  · have := hfit.2 h
    exact ⟨⟨by omega, this⟩, rfl,
      sqlPlain_append rfl (sqlPlain_toString (by omega))⟩
  · exact ⟨⟨by omega, by omega⟩, rfl,
      sqlPlain_append rfl (sqlPlain_toString (by omega))⟩

/-- `where_clauses` in front of the literal of the name. -/
def whereHead (q : QueryCommand) : CString :=
  cstr " WHERE 1=1 " ++
    (fixedConditions q.startTime q.endTime q.pid).flatMap Condition.sqlText ++
    cstr " AND process_name = "

theorem flatMap_sqlText_fixed (hfit : q.ProductsFit) :
    (fixedConditions q.startTime q.endTime q.pid).flatMap Condition.sqlText =
      (fixedConditions q.startTime q.endTime q.pid).flatMap Condition.text :=
  List.flatMap_congr fun c hc => (fixedConditions_readable hfit c hc).2.1

theorem sqlPlain_whereHead (hfit : q.ProductsFit) : SqlPlain q.whereHead := by
  rw [whereHead, flatMap_sqlText_fixed hfit]
  refine sqlPlain_append (sqlPlain_append sqlPlain_where ?_) rfl
  refine sqlPlain_iff.mpr fun b hb => ?_
  obtain ⟨c, hc, hb⟩ := List.mem_flatMap.mp hb
  exact sqlPlain_iff.mp (fixedConditions_readable hfit c hc).2.2 b hb

theorem length_whereHead (hfit : q.ProductsFit) : q.whereHead.length ≤ 126 := by
  have hlen := length_fixedConditions hfit.1 hfit.2 q.pid_lt
  have hhead : (cstr " WHERE 1=1 ").length = 11 := rfl
  have hname : (cstr " AND process_name = ").length = 20 := rfl
  rw [whereHead, flatMap_sqlText_fixed hfit, List.length_append, List.length_append]
  omega

/-- Without a name, the clauses are those of the fixed conditions, and have room. -/
theorem whereText_of_none (hfit : q.ProductsFit) (hname : q.name = none) :
    q.WhereFits ∧ selectText q.whereText =
      sqlStatement (fixedConditions q.startTime q.endTime q.pid) := by
  have hlen := length_fixedConditions hfit.1 hfit.2 q.pid_lt
  have hhead : (cstr " WHERE 1=1 ").length = 11 := rfl
  have hwhere : q.whereText = cstr " WHERE 1=1 " ++
      (fixedConditions q.startTime q.endTime q.pid).flatMap Condition.text := by
    rw [whereText, map_conditions, hname, Option.map_none, Option.toList_none, List.append_nil,
      List.flatMap_def]
  refine ⟨?_, by rw [hwhere, sqlStatement, flatMap_sqlText_fixed hfit]⟩
  rw [WhereFits, hwhere, List.length_append]
  omega

/-- With a name, it is between quotes at the end. -/
theorem whereText_of_some (hfit : q.ProductsFit) {text : CString} (hname : q.name = some text) :
    q.whereText = q.whereHead ++ 39 :: text ++ [39] := by
  have hquote : cstr " AND process_name = '" = cstr " AND process_name = " ++ [39] := rfl
  have hclose : cstr "'" = [39] := rfl
  rw [whereText, map_conditions, hname, whereHead, flatMap_sqlText_fixed hfit]
  simp [Condition.text, hquote, hclose, List.flatMap_def]

/-- The statement for a name. -/
theorem sqlStatement_concat (q : QueryCommand) (text : CString) :
    sqlStatement (fixedConditions q.startTime q.endTime q.pid ++ [.processNameEq text]) =
      selectText (q.whereHead ++ 39 :: escapeQuotes text ++ [39]) := by
  simp [sqlStatement, whereHead, Condition.sqlText, sqlLiteral]

/-- What becomes of a name whose quotes are doubled: the name with single ones, or
a beginning of it, is asked for; or the literal is cut open. -/
theorem selectText_of_escaped (hfit : q.ProductsFit) {text : CString}
    (hname : q.name = some (escapeQuotes text)) :
    (∃ text', text' <+: text ∧ (q.WhereFits → text' = text) ∧
        (¬q.WhereFits → text'.length < (escapeQuotes text).length) ∧
        selectText (q.whereText.take 511) = sqlStatement
          (fixedConditions q.startTime q.endTime q.pid ++ [.processNameEq text'])) ∨
      ¬q.WhereFits ∧ OpensLiteral (selectText (q.whereText.take 511)) := by
  have hwhere := whereText_of_some hfit hname
  have hhead := length_whereHead hfit
  by_cases hroom : q.WhereFits
  · refine .inl ⟨text, List.prefix_rfl, fun _ => rfl, fun h => absurd hroom h, ?_⟩
    rw [sqlStatement_concat, ← hwhere, List.take_of_length_le (Nat.le_of_lt_succ hroom)]
  · -- the cut is in the literal, or in front of the quote that ends it
    have hlen : 511 ≤ (q.whereHead ++ 39 :: escapeQuotes text).length := by
      rw [WhereFits, hwhere, List.length_append, List.length_singleton] at hroom
      omega
    obtain ⟨k, hk⟩ : ∃ k, 511 = q.whereHead.length + (k + 1) :=
      ⟨511 - q.whereHead.length - 1, by omega⟩
    have hcut : q.whereText.take 511 = q.whereHead ++ 39 :: (escapeQuotes text).take k := by
      rw [hwhere, List.take_append_of_le_length hlen, hk, List.take_length_add_append,
        List.take_succ_cons]
    have hk' : k ≤ (escapeQuotes text).length := by
      rw [List.length_append, List.length_cons] at hlen
      omega
    obtain ⟨text', hbegin, hopen | ⟨hclosed, hshort⟩⟩ := take_escapeQuotes text k
    · refine .inr ⟨hroom, ?_⟩
      have hplain : SqlPlain (cstr "SELECT pid, process_name, full_stack, COUNT(*) FROM call_stacks "
          ++ q.whereHead) := sqlPlain_append sqlPlain_select (sqlPlain_whereHead hfit)
      have hopens := @opensLiteral_of_begun _ hplain text'
        (cstr " GROUP BY pid, process_name, full_stack;") (by simp [cstr])
      rw [hcut, hopen, selectText]
      simpa using hopens
    · refine .inl ⟨text', hbegin, fun h => absurd h hroom, fun _ => by omega, ?_⟩
      rw [sqlStatement_concat, hcut, hclosed]
      simp

/-! ## What is selected -/

/-- A row of the range, for a name. -/
def sampleRow (q : QueryCommand) (text : CString) : CallStackRow where
  timestamp := if 0 < q.startTime then q.startTime * 1000000000 else q.endTime * 1000000000
  pid := q.pid
  processName := text
  fullStack := []

theorem times_sampleRow (hrange : q.RangeNonempty) (text : CString) :
    (0 < q.startTime → q.startTime * 1000000000 ≤ (q.sampleRow text).timestamp) ∧
      (0 < q.endTime → (q.sampleRow text).timestamp ≤ q.endTime * 1000000000) ∧
      (0 < q.pid → (q.sampleRow text).pid = q.pid) := by
  unfold RangeNonempty at hrange
  refine ⟨?_, ?_, fun _ => rfl⟩
  · simp only [sampleRow]
    split <;> omega
  · simp only [sampleRow]
    split <;> omega

/-- Filters that always leave the same groups are the same. -/
theorem eq_of_same_groups {p p' : CallStackRow → Bool}
    (h : ∀ rows : List CallStackRow, (groupCount ((rows.filter p).map groupKey)).Perm
      (groupCount ((rows.filter p').map groupKey))) : p = p' := by
  funext row
  have hsame := (h [row]).length_eq
  cases hp : p row <;> cases hp' : p' row <;> simp [groupCount, hp, hp'] at hsame ⊢

/-- A statement that asks for another name selects other rows. -/
theorem eq_of_selects (hrange : q.RangeNonempty) {text name : CString} (hname : q.name = some name)
    {run : Prepared} (hrun : ∀ rows, (run rows).Perm (groupCount ((rows.filter
      (Condition.meetsAll (fixedConditions q.startTime q.endTime q.pid ++
        [.processNameEq text]))).map groupKey)))
    (hselects : ∀ rows, (run rows).Perm
      (groupCount ((rows.filter fun row => q.Wants row).map groupKey))) : text = name := by
  have hsame := congrFun (eq_of_same_groups fun rows => (hrun rows).symm.trans (hselects rows))
    (q.sampleRow text)
  have hmeets : Condition.meetsAll (fixedConditions q.startTime q.endTime q.pid ++
      [.processNameEq text]) (q.sampleRow text) = true := by
    rw [Condition.meetsAll, List.all_append, Bool.and_eq_true, ← Condition.meetsAll,
      meetsAll_fixedConditions]
    exact ⟨times_sampleRow hrange text, by simp [Condition.holds, sampleRow]⟩
  have hwants : q.Wants (q.sampleRow text) := of_decide_eq_true (hsame.symm.trans hmeets)
  exact hwants.2.2.2 name hname

/-- The statement is that of conditions that SQLite reads. -/
theorem exists_run {prepare : CString → Option Prepared} (hsqlite : SqlDialect prepare)
    (hfit : q.ProductsFit) {conditions : List Condition} (hreadable : ∀ c ∈ conditions, c.Readable)
    (htext : selectText (q.whereText.take 511) = sqlStatement conditions)
    (sql : CharBuffer 1024) :
    ∃ run : Prepared, (∀ rows, (run rows).Perm
        (groupCount ((rows.filter (Condition.meetsAll conditions)).map groupKey))) ∧
      (q.Selects prepare sql ↔ ∀ rows, (run rows).Perm
        (groupCount ((rows.filter fun row => q.Wants row).map groupKey))) := by
  have hlen : (sqlStatement conditions).length < 1024 :=
    htext ▸ length_selectText q
  obtain ⟨run, hprepare, hrun⟩ := hsqlite.select conditions hreadable hlen
  refine ⟨run, hrun, ?_⟩
  rw [Selects, historicalSql_eq hfit, htext]
  simp [hprepare]

theorem readable_concat (hfit : q.ProductsFit) {text : CString} (hnul : 0 ∉ text) :
    ∀ c ∈ fixedConditions q.startTime q.endTime q.pid ++ [.processNameEq text], c.Readable :=
  List.forall_mem_append.mpr ⟨fun c hc => (fixedConditions_readable hfit c hc).1,
    List.forall_mem_singleton.mpr hnul⟩

/-- A text that ends in a literal is refused. -/
theorem not_selects_of_open {prepare : CString → Option Prepared} (hsqlite : SqlDialect prepare)
    (hfit : q.ProductsFit) (hopen : OpensLiteral (selectText (q.whereText.take 511)))
    (sql : CharBuffer 1024) : ¬q.Selects prepare sql := by
  have hrefused := hsqlite.openLiteral _ (zero_notMem_selectText q) hopen
  rw [Selects, historicalSql_eq hfit]
  simp [hrefused]

/-- A statement with the conditions of the query selects what is asked for. -/
theorem selects_of_eq {prepare : CString → Option Prepared} (hsqlite : SqlDialect prepare)
    (hfit : q.ProductsFit) (htext : selectText (q.whereText.take 511) = sqlStatement q.conditions)
    (sql : CharBuffer 1024) : q.Selects prepare sql := by
  have hreadable : ∀ c ∈ q.conditions, c.Readable := by
    cases hname : q.name with
    | none => simpa [conditions, hname] using fun c hc => (fixedConditions_readable hfit c hc).1
    | some text =>
        simpa [conditions, hname] using readable_concat hfit (q.name_noNul text hname)
  obtain ⟨run, hrun, hselects⟩ := exists_run hsqlite hfit hreadable htext sql
  refine hselects.mpr fun rows => ?_
  rw [← funext (meetsAll_conditions q)]
  exact hrun rows

/-- **The statement.**  It is accepted and selects what is asked for, if there is no
quote in the name, it is not cut and no product overflows.  A name that stays in
its literal has to be like that. -/
theorem historicalSql_selects {prepare : CString → Option Prepared} (hsqlite : SqlDialect prepare)
    (sql : CharBuffer 1024) (q : QueryCommand) :
    (q.Quoteless ∧ q.WhereFits ∧ q.ProductsFit → q.Selects prepare sql) ∧
      (q.StaysInLiteral → q.RangeNonempty → q.Selects prepare sql →
        q.Quoteless ∧ q.WhereFits ∧ q.ProductsFit) := by
  constructor
  · rintro ⟨hquote, hroom, hfit⟩
    refine selects_of_eq hsqlite hfit ?_ sql
    cases hname : q.name with
    | none =>
        rw [List.take_of_length_le (Nat.le_of_lt_succ hroom), (whereText_of_none hfit hname).2]
        simp [conditions, hname]
    | some text =>
        have hescaped := escapeQuotes_eq_self (hquote text hname)
        rcases selectText_of_escaped hfit (hescaped.symm ▸ hname) with
          ⟨text', -, hwhole, -, htext⟩ | ⟨hcut, -⟩
        · rw [htext, hwhole hroom]
          simp [conditions, hname]
        · exact absurd hroom hcut
  · intro hstays hrange hselects
    have hfit : q.ProductsFit := by
      by_contra hfit
      obtain ⟨text, run, hsql, -⟩ := hselects
      simp [historicalSql_eq_none hfit] at hsql
    cases hname : q.name with
    | none => exact ⟨by simp [Quoteless, hname], (whereText_of_none hfit hname).1, hfit⟩
    | some name =>
        rcases hstays name hname with ⟨text, rfl⟩ | hopen
        · rcases selectText_of_escaped hfit hname with
            ⟨text', hbegin, hwhole, hshort, htext⟩ | ⟨-, hopen⟩
          · have hnul : 0 ∉ text' := fun h =>
              q.name_noNul _ hname (mem_escapeQuotes.mpr (hbegin.subset h))
            obtain ⟨run, hrun, hiff⟩ :=
              exists_run hsqlite hfit (readable_concat hfit hnul) htext sql
            have hsame := eq_of_selects hrange hname hrun (hiff.mp hselects)
            have hroom : q.WhereFits := by
              by_contra hroom
              exact absurd (congrArg List.length hsame) (Nat.ne_of_lt (hshort hroom))
            refine ⟨?_, hroom, hfit⟩
            have hself : escapeQuotes text = text := hsame.symm.trans (hwhole hroom)
            simpa [Quoteless, hname, hself] using escapeQuotes_eq_self_iff.mp hself
          · exact absurd hselects (not_selects_of_open hsqlite hfit hopen sql)
        · exact absurd hselects (not_selects_of_open hsqlite hfit hopen sql)

/-- A name with a blank and a percent sign. -/
theorem historicalSql_selects_worker :
    let q := exampleCommand (cstr "worker 100%") (by simp [cstr])
    (q.Quoteless ∧ q.WhereFits ∧ q.ProductsFit →
        q.Selects readStatement (CharBuffer.ofText 1024 [])) ∧
      (q.StaysInLiteral → q.RangeNonempty → q.Selects readStatement (CharBuffer.ofText 1024 []) →
        q.Quoteless ∧ q.WhereFits ∧ q.ProductsFit) :=
  historicalSql_selects sqlDialect_readStatement _ _

/-- The quote in a name like `O'Brien` ends its literal, and the one behind the name
begins another, which has no end: the statement is refused. -/
theorem not_selects_obrien :
    (∃ prepare, SqlDialect prepare) ∧ ∀ prepare, SqlDialect prepare → ∀ sql,
      ¬(exampleCommand (cstr "O'Brien") (by simp [cstr])).Selects prepare sql :=
  ⟨⟨readStatement, sqlDialect_readStatement⟩, fun _ hsqlite =>
    not_selects_of_open hsqlite (by decide) (by decide +kernel)⟩

end

end QueryCommand

end Profiling
