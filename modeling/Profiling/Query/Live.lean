import Profiling.Query

/-!
# Profiling.Query.Live

The live query: `perform_live_query` of `config/query_tool.c` and
`request_handler` of `src/utils/http_server.c`, which answers it from the
connection of the writer.

What is between the two is a parameter: the request that libmicrohttpd makes of
the URL that curl is given.  The response is a value, not its JSON text.  As in
`Profiling.Query`, `none` is behaviour that C leaves undefined.
-/

namespace Profiling

/-! ## The server -/

/-- What `request_handler` gets of a request. -/
structure HttpRequest where
  method : CString
  url : CString
  /-- `MHD_lookup_connection_value`, for `MHD_GET_ARGUMENT_KIND` -/
  argument : CString → Option CString

/-- A JSON object with a text under `"error"`, or an array of objects with a
`"stack"` and a `"count"`. -/
inductive ResponseBody where
  | error (text : CString)
  | stacks (items : List (CString × Nat))
  deriving DecidableEq, Repr

structure HttpResponse where
  status : Nat
  body : ResponseBody
  deriving DecidableEq, Repr

/-- The conditions with their bindings. -/
def requestConditions (startTime endTime : Int) (pidStr nameStr : Option CString) :
    List Condition :=
  (if 0 < startTime then [.timestampGe (startTime * 1000000000)] else []) ++
    (if 0 < endTime then [.timestampLe (endTime * 1000000000)] else []) ++
    pidStr.toList.map (fun pidStr => .pidEq (atoi pidStr)) ++
    nameStr.toList.map .processNameEq

/-- The rows of `SELECT full_stack, COUNT(*) as count … GROUP BY full_stack
ORDER BY count DESC`. -/
def liveGroups (conditions : List Condition) (rows : List CallStackRow) : List (CString × Nat) :=
  (groupCount ((rows.filter fun row => conditions.all (·.holds row)).map (·.fullStack))).mergeSort
    fun group group' => group'.2 ≤ group.2

/-- The rows that a connection reads: those of the file and its own. -/
def Sqlite.rows {κ ρ : Type} (sqlite : Sqlite κ ρ) (h : Nat) : List ρ :=
  match sqlite.connections h with
  | some c => sqlite.durable c.file ++ c.pending
  | none => []

/-- `db_writer_get_db_handle` -/
def dbWriterGetDbHandle (w : DbWriter) : Option Nat := w.db

/-- `request_handler`; `now` is `time(NULL)`. -/
def requestHandler (now : Int) (w : DbWriter) (request : HttpRequest) : Option HttpResponse :=
  if request.method ≠ cstr "GET" ∨ request.url ≠ cstr "/query" then
    some ⟨404, .error (cstr "Not Found")⟩
  else
    let startTime := (request.argument (cstr "start_time")).elim 0 strtol
    let endTime := (request.argument (cstr "end_time")).elim now strtol
    let pidStr := request.argument (cstr "pid")
    let nameStr := request.argument (cstr "name")
    match dbWriterGetDbHandle w with
    | none => some ⟨500, .error (cstr "Database not available")⟩
    | some db =>
        if (0 < startTime → startTime * 1000000000 < 2 ^ 63) ∧
            (0 < endTime → endTime * 1000000000 < 2 ^ 63) then
          some ⟨200, .stacks (liveGroups (requestConditions startTime endTime pidStr nameStr)
            (w.sqlite.rows db))⟩
        else none

/-! ## The client -/

/-- The arguments in front of the name. -/
def fixedArguments (startTime endTime pid : Int) : List (CString × CString) :=
  (if 0 < startTime then [(cstr "start_time", cstr (toString startTime))] else []) ++
    (if 0 < endTime then [(cstr "end_time", cstr (toString endTime))] else []) ++
    if 0 < pid then [(cstr "pid", cstr (toString pid))] else []

namespace QueryArgs

/-- The arguments that the URL gets. -/
def arguments (q : QueryArgs) : List (CString × CString) :=
  (if 0 < q.startTime then [(cstr "start_time", cstr (toString q.startTime))] else []) ++
    (if 0 < q.endTime then [(cstr "end_time", cstr (toString q.endTime))] else []) ++
    (if 0 < q.pid then [(cstr "pid", cstr (toString q.pid))] else []) ++
    q.name.toList.map fun name => (cstr "name", name.text)

/-- What `query_params` would be in a buffer without end; `offset` is its length. -/
def paramsText (q : QueryArgs) : CString :=
  cstr "?" ++ q.arguments.flatMap fun (key, value) => key ++ cstr "=" ++ value ++ cstr "&"

/-- `query_params`.  The terminator that replaces the last `&` is written at
`offset - 1`, which may be behind the buffer. -/
def queryParams (q : QueryArgs) : Option CString :=
  let offset := q.paramsText.length
  if 1 < offset then if offset ≤ 512 then some q.paramsText.dropLast else none
  else some q.paramsText

/-- `url_buffer` -/
def urlBuffer (serverUrl queryParams : CString) : CString :=
  (serverUrl ++ cstr "/query" ++ queryParams).take 1023

end QueryArgs

/-- The items of the response go into the table; an object without a `"stack"`
and a `"count"` is passed over. -/
def aggregateResponse : ResponseBody → Ht
  | .error _ => fun _ => []
  | .stacks items => items.foldl (fun results item => htInsert results item.1 item.2) fun _ => []

/-- `perform_live_query`; `fetch` is the request that comes of a URL. -/
def performLiveQuery (fetch : CString → HttpRequest) (now : Int) (w : DbWriter)
    (serverUrl : CString) (q : QueryArgs) : Option (List (CString × Int)) :=
  q.queryParams.bind fun queryParams =>
    (requestHandler now w (fetch (QueryArgs.urlBuffer serverUrl queryParams))).map fun response =>
      htForeach (aggregateResponse response.body)

/-! ## What it comes to -/

/-- `isalnum`, in the C locale -/
def isalnum (b : UInt8) : Bool := isdigit b || (65 ≤ b && b ≤ 90) || (97 ≤ b && b ≤ 122)

/-- The name, if any, is of letters and digits, and needs no escape in a URL. -/
def QueryArgs.Plain (q : QueryArgs) : Prop := ∀ name ∈ q.name, ∀ b ∈ name.text, isalnum b = true

/-- Plain arguments arrive as they are in the URL. -/
def Delivers (fetch : CString → HttpRequest) (serverUrl : CString) (q : QueryArgs) : Prop :=
  q.Plain → ∀ queryParams ∈ q.queryParams,
    let request := fetch (QueryArgs.urlBuffer serverUrl queryParams)
    request.method = cstr "GET" ∧ request.url = cstr "/query" ∧
      ∀ key, request.argument key = q.arguments.lookup key

section

variable {q : QueryArgs}

/-- Looking a key up in what may be left out. -/
theorem lookup_optional {p : Prop} [Decidable p] (k k' v : CString) :
    (if p then [(k', v)] else []).lookup k = if k = k' ∧ p then some v else none := by
  by_cases hp : p <;> by_cases hk : k = k' <;> simp [hp, hk]

/-- The four keys of the arguments. -/
def argumentKeys : List CString := [cstr "start_time", cstr "end_time", cstr "pid", cstr "name"]

theorem nodup_argumentKeys : argumentKeys.Nodup := by decide

theorem mem_fixedArguments {startTime endTime pid : Int} {argument : CString × CString}
    (h : argument ∈ fixedArguments startTime endTime pid) :
    argument = (cstr "start_time", cstr (toString startTime)) ∧ 0 < startTime ∨
      argument = (cstr "end_time", cstr (toString endTime)) ∧ 0 < endTime ∨
      argument = (cstr "pid", cstr (toString pid)) ∧ 0 < pid := by
  simp only [fixedArguments, List.mem_append] at h
  grind

/-- What each argument in front of the name is looked up as. -/
theorem lookup_fixedArguments (startTime endTime pid : Int) :
    (fixedArguments startTime endTime pid).lookup (cstr "start_time") =
        (if 0 < startTime then some (cstr (toString startTime)) else none) ∧
      (fixedArguments startTime endTime pid).lookup (cstr "end_time") =
        (if 0 < endTime then some (cstr (toString endTime)) else none) ∧
      (fixedArguments startTime endTime pid).lookup (cstr "pid") =
        (if 0 < pid then some (cstr (toString pid)) else none) ∧
      (fixedArguments startTime endTime pid).lookup (cstr "name") = none := by
  have hkeys := nodup_argumentKeys
  simp only [argumentKeys, List.nodup_cons, List.mem_cons, List.not_mem_nil, not_or, or_false]
    at hkeys
  obtain ⟨⟨h₁, h₂, h₃⟩, ⟨h₄, h₅⟩, h₆, -⟩ := hkeys
  simp only [fixedArguments, List.lookup_append, lookup_optional]
  simp [h₁, h₂, h₄, Ne.symm h₁, Ne.symm h₂, Ne.symm h₃, Ne.symm h₄, Ne.symm h₅, Ne.symm h₆]

/-- What each argument is looked up as. -/
theorem lookup_arguments (q : QueryArgs) :
    q.arguments.lookup (cstr "start_time") =
        (if 0 < q.startTime then some (cstr (toString q.startTime)) else none) ∧
      q.arguments.lookup (cstr "end_time") =
        (if 0 < q.endTime then some (cstr (toString q.endTime)) else none) ∧
      q.arguments.lookup (cstr "pid") =
        (if 0 < q.pid then some (cstr (toString q.pid)) else none) ∧
      q.arguments.lookup (cstr "name") = q.name.map (·.text) := by
  have hname : ∀ k, (q.name.toList.map fun name => (cstr "name", name.text)).lookup k =
      if k = cstr "name" then q.name.map (·.text) else none := by
    intro k
    by_cases hk : k = cstr "name" <;> cases q.name <;> simp [hk]
  have hkeys := nodup_argumentKeys
  simp only [argumentKeys, List.nodup_cons, List.mem_cons, List.not_mem_nil, not_or, or_false]
    at hkeys
  obtain ⟨⟨-, -, h₃⟩, ⟨-, h₅⟩, h₆, -⟩ := hkeys
  obtain ⟨hstart, hend, hpid, hnone⟩ := lookup_fixedArguments q.startTime q.endTime q.pid
  have hsplit : q.arguments = fixedArguments q.startTime q.endTime q.pid ++
      q.name.toList.map fun name => (cstr "name", name.text) := rfl
  simp only [hsplit, List.lookup_append, hstart, hend, hpid, hnone, hname]
  simp [h₃, h₅, h₆]

/-- Times are read back from the URL, up to the ends of a `long long`. -/
theorem strtol_toString {n : Int} (hn : 0 < n) :
    strtol (cstr (toString n)) = min n (2 ^ 63 - 1) := by
  obtain ⟨n, rfl⟩ := Int.eq_ofNat_of_zero_le (Int.le_of_lt hn)
  rw [Int.toString_eq_repr, Int.repr_eq_if, if_pos (Int.natCast_nonneg n), Int.toNat_natCast,
    strtol_repr]

/-- A time as the handler reads it; one that is not positive is not sent. -/
theorem elim_time (n : Int) :
    (if 0 < n then some (cstr (toString n)) else none).elim 0 strtol =
      if 0 < n then min n (2 ^ 63 - 1) else 0 := by
  split
  · next hn => exact strtol_toString hn
  · rfl

/-- The handler finds the conditions of the query in the arguments. -/
theorem requestConditions_eq (hfit : q.ProductsFit) (hpid : q.pid < 2 ^ 31) :
    requestConditions (if 0 < q.startTime then min q.startTime (2 ^ 63 - 1) else 0)
        (if 0 < q.endTime then min q.endTime (2 ^ 63 - 1) else 0)
        (if 0 < q.pid then some (cstr (toString q.pid)) else none) (q.name.map (·.text)) =
      q.conditions := by
  obtain ⟨hstart, hend⟩ := hfit
  have htime : ∀ n : Int, (0 < n → n * 1000000000 < 2 ^ 63) →
      (if 0 < n then min n (2 ^ 63 - 1) else 0) = max n 0 := fun n hn => by
    split <;> omega
  have hpidEq : ((if 0 < q.pid then some (cstr (toString q.pid)) else none).toList.map fun pidStr =>
      Condition.pidEq (atoi pidStr)) = if 0 < q.pid then [.pidEq q.pid] else [] := by
    split
    · next h =>
      rw [Option.toList_some, List.map_singleton, atoi_toString (by omega) hpid]
    · rfl
  have hname : (q.name.map (·.text)).toList.map Condition.processNameEq =
      q.name.toList.map fun name => .processNameEq name.text := by
    cases q.name <;> rfl
  rw [requestConditions, QueryArgs.conditions, htime _ hstart, htime _ hend, hpidEq, hname]
  congr 3
  · by_cases h : 0 < q.startTime
    · rw [if_pos h, if_pos (lt_max_of_lt_left h), max_eq_left (Int.le_of_lt h)]
    · rw [if_neg h, if_neg (by omega)]
  · by_cases h : 0 < q.endTime
    · rw [if_pos h, if_pos (lt_max_of_lt_left h), max_eq_left (Int.le_of_lt h)]
    · rw [if_neg h, if_neg (by omega)]

/-- The answer to a request with the arguments of a query. -/
theorem requestHandler_eq (hend : 0 < q.endTime) (hpid : q.pid < 2 ^ 31) (now : Int)
    (w : DbWriter) {request : HttpRequest} (hmethod : request.method = cstr "GET")
    (hurl : request.url = cstr "/query")
    (hargument : ∀ key, request.argument key = q.arguments.lookup key) :
    requestHandler now w request =
      match w.db with
      | none => some ⟨500, .error (cstr "Database not available")⟩
      | some db =>
          if q.ProductsFit then
            some ⟨200, .stacks (liveGroups q.conditions (w.sqlite.rows db))⟩
          else none := by
  obtain ⟨hstartArg, hendArg, hpidArg, hnameArg⟩ := lookup_arguments q
  have hnow : (if 0 < q.endTime then some (cstr (toString q.endTime)) else none).elim now strtol =
      if 0 < q.endTime then min q.endTime (2 ^ 63 - 1) else 0 := by
    rw [if_pos hend, if_pos hend, Option.elim_some, strtol_toString hend]
  have hfit : ((0 < if 0 < q.startTime then min q.startTime (2 ^ 63 - 1) else 0) →
        (if 0 < q.startTime then min q.startTime (2 ^ 63 - 1) else 0) * 1000000000 < 2 ^ 63) ∧
      ((0 < if 0 < q.endTime then min q.endTime (2 ^ 63 - 1) else 0) →
        (if 0 < q.endTime then min q.endTime (2 ^ 63 - 1) else 0) * 1000000000 < 2 ^ 63) ↔
      q.ProductsFit := by
    unfold QueryArgs.ProductsFit
    split <;> omega
  unfold requestHandler
  rw [if_neg (by simp [hmethod, hurl])]
  simp only [hargument, hstartArg, hendArg, hpidArg, hnameArg, elim_time, hnow, hfit,
    dbWriterGetDbHandle]
  cases w.db with
  | none => rfl
  | some db =>
      dsimp only
      by_cases hproducts : q.ProductsFit
      · rw [if_pos hproducts, if_pos hproducts, requestConditions_eq hproducts hpid]
      · rw [if_neg hproducts, if_neg hproducts]

/-- The table counts the stacks of the response. -/
theorem counts_aggregate (rows : List CallStackRow) :
    (aggregateResponse (.stacks (liveGroups q.conditions rows))).Counts
      ((rows.filter q.selects).map (·.fullStack)) := by
  have hsorted := List.mergeSort_perm
    (groupCount ((rows.filter q.selects).map (·.fullStack))) fun group group' => group'.2 ≤ group.2
  have hpos : ∀ group ∈ liveGroups q.conditions rows, 0 < group.2 := fun group hgroup =>
    pos_of_mem_groupCount (hsorted.mem_iff.mp hgroup)
  have hgroups := Ht.counts_empty.insertGroups id hpos
  rw [List.nil_append, List.map_id] at hgroups
  exact hgroups.perm ((hsorted.flatMap_right _).trans (expand_groupCount _))

/-- The rows that the live query is answered from. -/
def DbWriter.handleRows (w : DbWriter) : List CallStackRow := w.db.elim [] w.sqlite.rows

/-- The end of the range is always sent. -/
theorem one_lt_offset (hend : 0 < q.endTime) : 1 < q.paramsText.length := by
  have hkey : 0 < (cstr "end_time").length := by decide
  have hhead : (cstr "?").length = 1 := rfl
  simp only [QueryArgs.paramsText, QueryArgs.arguments, if_pos hend, List.flatMap_append,
    List.length_append, List.flatMap_singleton]
  omega

/-- **What the live query comes to**: the count of the selected stacks in the
file of the current handle, unless something is written or computed out of
range. -/
theorem performLiveQuery_spec {fetch : CString → HttpRequest} {serverUrl : CString}
    (hend : 0 < q.endTime) (hpid : q.pid < 2 ^ 31) (hplain : q.Plain)
    (hfetch : Delivers fetch serverUrl q) (now : Int) (w : DbWriter) :
    (q.paramsText.length ≤ 512 ∧ (w.db = none ∨ q.ProductsFit) →
      ∃ lines, performLiveQuery fetch now w serverUrl q = some lines ∧
        IsTally lines ((w.handleRows.filter q.selects).map (·.fullStack))) ∧
    (¬(q.paramsText.length ≤ 512 ∧ (w.db = none ∨ q.ProductsFit)) →
      performLiveQuery fetch now w serverUrl q = none) := by
  have hoffset := one_lt_offset hend
  by_cases hlen : q.paramsText.length ≤ 512
  · have hparams : q.queryParams = some q.paramsText.dropLast := by
      rw [QueryArgs.queryParams, if_pos hoffset, if_pos hlen]
    obtain ⟨hmethod, hurl, hargument⟩ := hfetch hplain _ hparams
    have hhandler := requestHandler_eq hend hpid now w hmethod hurl hargument
    rw [performLiveQuery, hparams, Option.bind_some, hhandler, DbWriter.handleRows]
    cases hdb : w.db with
    | none =>
        refine ⟨fun _ => ⟨_, rfl, ?_⟩, fun h => absurd ⟨hlen, .inl rfl⟩ h⟩
        exact Ht.counts_empty.isTally
    | some db =>
        by_cases hfit : q.ProductsFit
        · refine ⟨fun _ => ⟨_, ?_, (counts_aggregate (w.sqlite.rows db)).isTally⟩,
            fun h => absurd ⟨hlen, .inr hfit⟩ h⟩
          dsimp only
          rw [if_pos hfit, Option.map_some]
        · refine ⟨fun h => absurd h.2 (by simp [hfit]), fun _ => ?_⟩
          dsimp only
          rw [if_neg hfit, Option.map_none]
  · refine ⟨fun h => absurd h.1 hlen, fun _ => ?_⟩
    rw [performLiveQuery, QueryArgs.queryParams, if_pos hoffset, if_neg hlen, Option.bind_none]

end

end Profiling
