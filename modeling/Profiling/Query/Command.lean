import Profiling.Query.Live
import Profiling.QueryString
import Profiling.Snprintf

/-!
# Profiling.Query.Command

What `main` of `config/query_tool.c` hands to the two queries, and the texts that
they put together of it in fixed buffers: the statement of
`perform_historical_query` and the URL of `perform_live_query`.

The clauses and the parameters in front of the name are short, so the offset is
in the buffer whenever `snprintf` is called (`whereClauses_eq`, `queryParams_eq`).
The name may be longer than what is left.
-/

namespace Profiling

/-- The arguments of a query.  Times that are not positive, a pid that is not
positive and a name that is `NULL` do not filter. -/
structure QueryCommand where
  startTime : Int
  endTime : Int
  pid : Int
  name : Option CString
  startTime_lt : startTime < 2 ^ 63
  endTime_lt : endTime < 2 ^ 63
  pid_lt : pid < 2 ^ 31
  name_noNul : ∀ text ∈ name, 0 ∉ text

namespace QueryCommand

/-- What `--start-time 5 --end-time 10 --pid 7 --name …` gives. -/
def exampleCommand (text : CString) (htext : 0 ∉ text) : QueryCommand where
  startTime := 5
  endTime := 10
  pid := 7
  name := some text
  startTime_lt := by decide
  endTime_lt := by decide
  pid_lt := by decide
  name_noNul := by simpa using htext

/-- The row is asked for. -/
def Wants (q : QueryCommand) (row : CallStackRow) : Prop :=
  (0 < q.startTime → q.startTime * 1000000000 ≤ row.timestamp) ∧
    (0 < q.endTime → row.timestamp ≤ q.endTime * 1000000000) ∧
    (0 < q.pid → row.pid = q.pid) ∧ ∀ text ∈ q.name, row.processName = text

instance (q : QueryCommand) (row : CallStackRow) : Decidable (q.Wants row) :=
  inferInstanceAs (Decidable (_ ∧ _))

/-! ## The statement -/

/-- The conditions, in the order they are appended in. -/
def conditions (q : QueryCommand) : List Condition :=
  fixedConditions q.startTime q.endTime q.pid ++ (q.name.map .processNameEq).toList

/-- The products in the conditions are `long long`s. -/
def ProductsFit (q : QueryCommand) : Prop :=
  (0 < q.startTime → q.startTime * 1000000000 < 2 ^ 63) ∧
    (0 < q.endTime → q.endTime * 1000000000 < 2 ^ 63)

instance (q : QueryCommand) : Decidable q.ProductsFit := inferInstanceAs (Decidable (_ ∧ _))

/-- What `where_clauses` would be in a buffer without end. -/
def whereText (q : QueryCommand) : CString :=
  cstr " WHERE 1=1 " ++ (q.conditions.map Condition.text).flatten

/-- `where_clauses` is the whole text. -/
def WhereFits (q : QueryCommand) : Prop := q.whereText.length < 512

instance (q : QueryCommand) : Decidable q.WhereFits := inferInstanceAs (Decidable (_ < _))

/-- `where_clauses`; `none` if a product overflows. -/
def whereClauses (q : QueryCommand) : Option (CharBuffer 512) :=
  let head := cstr " WHERE 1=1 "
  if q.ProductsFit then
    (CharBuffer.appendAll (CharBuffer.ofText 512 head, head.length)
      (q.conditions.map Condition.text)).map (·.1)
  else none

/-- The statement with these clauses. -/
def selectText (whereClauses : CString) : CString :=
  cstr "SELECT pid, process_name, full_stack, COUNT(*) FROM call_stacks " ++ whereClauses ++
    cstr " GROUP BY pid, process_name, full_stack;"

/-- `sql`, which was `sql` in front of it. -/
def historicalSql (sql : CharBuffer 1024) (q : QueryCommand) : Option CString :=
  q.whereClauses.bind fun whereClauses =>
    (sql.snprintf 0 1024 (selectText whereClauses.text)).map (·.text)

/-! ## The URL -/

/-- The arguments that the URL gets. -/
def arguments (q : QueryCommand) : List (CString × CString) :=
  fixedArguments q.startTime q.endTime q.pid ++ (q.name.map fun text => (cstr "name", text)).toList

/-- What is appended to `query_params`. -/
def paramTexts (q : QueryCommand) : List CString :=
  cstr "?" :: q.arguments.map fun argument => argumentText argument ++ cstr "&"

/-- `query_params`; `none` if the terminator that replaces the last `&` is written
behind it. -/
def queryParams (q : QueryCommand) : Option (CharBuffer 512) :=
  (CharBuffer.appendAll (CharBuffer.ofText 512 [], 0) q.paramTexts).bind
    fun (queryParams, offset) =>
      if 1 < offset then queryParams.write (offset - 1) [0] else some queryParams

/-- `url_buffer`, which was `urlBuffer` in front of it. -/
def liveUrl (urlBuffer : CharBuffer 1024) (serverUrl : CString) (q : QueryCommand) :
    Option CString :=
  q.queryParams.bind fun queryParams =>
    (urlBuffer.snprintf 0 1024 (serverUrl ++ cstr "/query" ++ queryParams.text)).map (·.text)

/-- `query_params` is not longer than its buffer, with the `&` that is replaced. -/
def ParamsFit (q : QueryCommand) : Prop := q.paramTexts.flatten.length ≤ 512

instance (q : QueryCommand) : Decidable q.ParamsFit := inferInstanceAs (Decidable (_ ≤ _))

/-- The query string of the URL. -/
def queryText (q : QueryCommand) : CString := [38].intercalate (q.arguments.map argumentText)

/-! ## What the buffers hold -/

section

variable {q : QueryCommand}

theorem map_conditions (q : QueryCommand) :
    q.conditions.map Condition.text =
      (fixedConditions q.startTime q.endTime q.pid).map Condition.text ++
        (q.name.map fun text => Condition.text (.processNameEq text)).toList := by
  cases h : q.name <;> simp [conditions, h]

/-- `where_clauses` is what there is room for of the whole text. -/
theorem whereClauses_eq (hfit : q.ProductsFit) :
    ∃ buffer, q.whereClauses = some buffer ∧ buffer.Holds (q.whereText.take 511) := by
  have hhead : (cstr " WHERE 1=1 ").length = 11 := rfl
  have hstart : (CharBuffer.ofText 512 (cstr " WHERE 1=1 ")).Holds (cstr " WHERE 1=1 ") :=
    CharBuffer.holds_ofText (by rw [hhead]; decide)
  have hfixed := length_fixedConditions hfit.1 hfit.2 q.pid_lt
  rw [List.flatMap_def] at hfixed
  obtain ⟨buffer, hrun, hholds⟩ := hstart.appendOptional (by decide)
    ((fixedConditions q.startTime q.endTime q.pid).map Condition.text)
    (q.name.map fun text => Condition.text (.processNameEq text))
    (by rw [List.length_append, hhead]; omega)
  rw [← map_conditions] at hrun hholds
  refine ⟨buffer, ?_, hholds⟩
  rw [whereClauses, if_pos hfit, hrun, Option.map_some]

theorem zero_notMem_toString (n : Int) : 0 ∉ cstr (toString n) := by
  intro h
  rcases mem_cstr_toString h with hdigit | hminus
  · exact absurd hdigit (by decide)
  · exact absurd hminus (by decide)

theorem zero_notMem_text {c : Condition} (hc : ∀ name, c = .processNameEq name → 0 ∉ name) :
    0 ∉ c.text := by
  cases c with
  | timestampGe bound =>
      exact List.not_mem_append (by simp [cstr]) (zero_notMem_toString bound)
  | timestampLe bound =>
      exact List.not_mem_append (by simp [cstr]) (zero_notMem_toString bound)
  | pidEq pid => exact List.not_mem_append (by simp [cstr]) (zero_notMem_toString pid)
  | processNameEq name =>
      exact List.not_mem_append (List.not_mem_append (by simp [cstr]) (hc name rfl))
        (by simp [cstr])

theorem zero_notMem_whereText (q : QueryCommand) : 0 ∉ q.whereText := by
  refine List.not_mem_append (by simp [cstr]) ?_
  simp only [List.mem_flatten, List.mem_map, not_exists, not_and]
  rintro _ ⟨c, hc, rfl⟩
  refine zero_notMem_text fun name heq => ?_
  subst heq
  rcases List.mem_append.mp hc with hfixed | hname
  · rcases mem_fixedConditions hfixed with ⟨h, -⟩ | ⟨h, -⟩ | ⟨h, -⟩ <;> cases h
  · obtain ⟨text, htext, heq⟩ := Option.map_eq_some_iff.mp (Option.mem_toList.mp hname)
    cases heq
    exact q.name_noNul name htext

theorem length_selectText (q : QueryCommand) :
    (selectText (q.whereText.take 511)).length < 1024 := by
  have hhead : (cstr "SELECT pid, process_name, full_stack, COUNT(*) FROM call_stacks ").length =
    64 := rfl
  have htail : (cstr " GROUP BY pid, process_name, full_stack;").length = 40 := rfl
  simp only [selectText, List.length_append, List.length_take]
  omega

theorem zero_notMem_selectText (q : QueryCommand) : 0 ∉ selectText (q.whereText.take 511) :=
  List.not_mem_append (List.not_mem_append (by simp [cstr]) fun h =>
    zero_notMem_whereText q (List.mem_of_mem_take h)) (by simp [cstr])

/-- The statement is that of the clauses there is room for. -/
theorem historicalSql_eq (hfit : q.ProductsFit) (sql : CharBuffer 1024) :
    q.historicalSql sql = some (selectText (q.whereText.take 511)) := by
  obtain ⟨buffer, hclauses, hholds⟩ := whereClauses_eq hfit
  have hnul : 0 ∉ q.whereText.take 511 := fun h =>
    zero_notMem_whereText q (List.mem_of_mem_take h)
  rw [historicalSql, hclauses, Option.bind_some, hholds.text_eq hnul,
    CharBuffer.snprintf_text sql (by decide) (zero_notMem_selectText q),
    List.take_of_length_le (Nat.le_of_lt_succ (length_selectText q))]

theorem historicalSql_eq_none (hfit : ¬q.ProductsFit) (sql : CharBuffer 1024) :
    q.historicalSql sql = none := by
  rw [historicalSql, whereClauses, if_neg hfit, Option.bind_none]

/-! ### The parameters -/

theorem paramTexts_flatten (q : QueryCommand) :
    q.paramTexts.flatten =
      if q.arguments = [] then cstr "?" else cstr "?" ++ q.queryText ++ cstr "&" := by
  have hmap : (q.arguments.map fun argument => argumentText argument ++ cstr "&") =
      (q.arguments.map argumentText).map (· ++ [38]) := by
    rw [List.map_map]
    rfl
  rw [paramTexts, hmap, List.flatten_cons]
  split
  · next h => simp [h]
  · next h =>
    rw [flatten_map_append 38 (by simpa using h), queryText, List.append_assoc]
    rfl

theorem queryText_of_nil (h : q.arguments = []) : q.queryText = [] := by simp [queryText, h]

theorem map_arguments (q : QueryCommand) :
    (q.arguments.map fun argument => argumentText argument ++ cstr "&") =
      ((fixedArguments q.startTime q.endTime q.pid).map fun argument => argumentText argument ++ cstr "&") ++
        (q.name.map fun text => argumentText (cstr "name", text) ++ cstr "&").toList := by
  cases h : q.name <;> simp [arguments, h]

/-- What an argument takes up that may be left out. -/
theorem length_optional_argument_le {p : Prop} [Decidable p] {a : CString × CString} {k : Nat}
    (h : p → (argumentText a).length < k) :
    ((if p then [a] else []).flatMap fun a => argumentText a ++ cstr "&").length ≤ k := by
  have hsep : (cstr "&").length = 1 := rfl
  split
  · next hp =>
    have := h hp
    simp only [List.flatMap_singleton, List.length_append]
    omega
  · exact Nat.zero_le k

/-- The arguments in front of the name have room. -/
theorem length_fixedArguments (q : QueryCommand) :
    ((fixedArguments q.startTime q.endTime q.pid).flatMap fun argument => argumentText argument ++ cstr "&").length ≤ 76 := by
  have htime : ∀ n : Int, 0 < n → n < 2 ^ 63 → (cstr (toString n)).length ≤ 19 := fun n hn hlt =>
    length_cstr_toString_le (k := 19) (by decide) (by omega) (by omega)
  have hstart := length_optional_argument_le (a := (cstr "start_time", cstr (toString q.startTime)))
    (k := 31) fun h : 0 < q.startTime => by
      have hlen := htime _ h q.startTime_lt
      have hkey : (cstr "start_time").length = 10 := rfl
      have heq : (cstr "=").length = 1 := rfl
      simp only [argumentText, List.length_append]
      omega
  have hend := length_optional_argument_le (a := (cstr "end_time", cstr (toString q.endTime)))
    (k := 29) fun h : 0 < q.endTime => by
      have hlen := htime _ h q.endTime_lt
      have hkey : (cstr "end_time").length = 8 := rfl
      have heq : (cstr "=").length = 1 := rfl
      simp only [argumentText, List.length_append]
      omega
  have hpid := length_optional_argument_le (a := (cstr "pid", cstr (toString q.pid)))
    (k := 15) fun h : 0 < q.pid => by
      have := q.pid_lt
      have hlen := length_cstr_toString_le (z := q.pid) (k := 10) (by decide) (by omega) (by omega)
      have hkey : (cstr "pid").length = 3 := rfl
      have heq : (cstr "=").length = 1 := rfl
      simp only [argumentText, List.length_append]
      omega
  rw [fixedArguments, List.flatMap_append, List.flatMap_append, List.length_append,
    List.length_append]
  omega

/-- What the calls leave in `query_params`, and the offset behind them. -/
theorem appendAll_paramTexts (q : QueryCommand) :
    ∃ buffer : CharBuffer 512,
      CharBuffer.appendAll (CharBuffer.ofText 512 [], 0) q.paramTexts =
        some (buffer, q.paramTexts.flatten.length) ∧
      buffer.Holds (q.paramTexts.flatten.take 511) := by
  have hstart : (CharBuffer.ofText 512 []).Holds [] := CharBuffer.holds_ofText (by decide)
  have hhead : (cstr "?").length = 1 := rfl
  have hfixed := length_fixedArguments q
  rw [List.flatMap_def] at hfixed
  have hrun := hstart.appendOptional (by decide)
    (cstr "?" :: (fixedArguments q.startTime q.endTime q.pid).map fun argument => argumentText argument ++ cstr "&")
    (q.name.map fun text => argumentText (cstr "name", text) ++ cstr "&")
    (by rw [List.nil_append, List.flatten_cons, List.length_append, hhead]; omega)
  rwa [List.cons_append, ← map_arguments, List.nil_append] at hrun

/-- `query_params` is the whole query string, or the terminator is written behind
the buffer. -/
theorem queryParams_eq (q : QueryCommand) :
    (q.ParamsFit → ∃ buffer, q.queryParams = some buffer ∧
      buffer.Holds (cstr "?" ++ q.queryText)) ∧
    (¬q.ParamsFit → q.queryParams = none) := by
  obtain ⟨buffer, hrun, hholds⟩ := appendAll_paramTexts q
  have hflatten := paramTexts_flatten q
  unfold ParamsFit queryParams
  rw [hrun, Option.bind_some]
  dsimp only
  by_cases hnil : q.arguments = []
  · rw [if_pos hnil] at hflatten
    rw [hflatten] at hholds ⊢
    rw [queryText_of_nil hnil, List.append_nil]
    exact ⟨fun _ => ⟨buffer, rfl, hholds⟩, fun h => absurd (by decide) h⟩
  · rw [if_neg hnil] at hflatten
    have hlen : q.paramTexts.flatten.length = (cstr "?" ++ q.queryText).length + 1 := by
      rw [hflatten, List.length_append]
      rfl
    have hone : 1 < q.paramTexts.flatten.length := by
      have hhead : (cstr "?").length = 1 := rfl
      rw [hlen, List.length_append]
      omega
    rw [if_pos hone]
    constructor
    · intro hfits
      obtain ⟨buffer', hwrite, hholds'⟩ := hholds.terminate (i := q.paramTexts.flatten.length - 1)
        (by rw [List.length_take]; omega)
      refine ⟨buffer', hwrite, ?_⟩
      rwa [List.take_take, min_eq_left (by omega), hlen, Nat.add_sub_cancel, hflatten,
        List.take_left] at hholds'
    · intro hbig
      exact dif_neg (by rw [List.length_singleton]; omega)

end

end QueryCommand

end Profiling
