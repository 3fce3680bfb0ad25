import Profiling.Query.Command

/-!
# Profiling.Query.Url

What `request_handler` reads of the URL of `perform_live_query`.

The server is one that takes the query string apart at `&` and the first `=` and
decodes `+` and `%XX`.  The name goes into the URL as it is, so it arrives if
nothing in it is decoded or ends it, and if the texts have room in their buffers
(`liveUrl_arrives_iff`).
-/

namespace Profiling

/-- The address of a server, which a path can be put behind. -/
structure ServerUrl where
  text : CString
  plain : 0 ∉ text ∧ 35 ∉ text ∧ 63 ∉ text

/-- What comes to `request_handler`, on the server at this address, of a URL.  What
is behind a `#` is not sent, and a value is a C string. -/
def serverRequest (server : ServerUrl) (url : CString) : HttpRequest :=
  let target := (url.drop server.text.length).takeWhile (· != 35)
  { method := cstr "GET"
    url := target.takeWhile (· != 63)
    argument := fun key =>
      (lookupArgument ((target.dropWhile (· != 63)).drop 1) key).map (·.takeWhile (· != 0)) }

namespace QueryCommand

/-- The parameters that `request_handler` reads are those of the query. -/
structure Arrives (q : QueryCommand) (request : HttpRequest) : Prop where
  url : request.url = cstr "/query"
  startTime : 0 < q.startTime →
    (request.argument (cstr "start_time")).map strtol = some q.startTime
  endTime : 0 < q.endTime → (request.argument (cstr "end_time")).map strtol = some q.endTime
  pid : 0 < q.pid → (request.argument (cstr "pid")).map atoi = some q.pid
  name : ∀ text ∈ q.name, request.argument (cstr "name") = some text

/-- `url_buffer` has room for the URL, up to the last argument. -/
def UrlFits (q : QueryCommand) (server : ServerUrl) : Prop :=
  server.text.length + 6 + (if q.arguments = [] then 0 else 1 + q.queryText.length) < 1024

instance (q : QueryCommand) (server : ServerUrl) : Decidable (q.UrlFits server) :=
  inferInstanceAs (Decidable (_ < _))

/-- There is no `#`, `&`, `+` or `%XX` in the name. -/
def NamePlain (q : QueryCommand) : Prop := ∀ text ∈ q.name, 35 ∉ text ∧ QueryPlain text

instance (q : QueryCommand) : Decidable q.NamePlain := inferInstanceAs (Decidable (∀ _ ∈ _, _))

end QueryCommand

/-! ## Numbers -/

/-- Decimal digits stand for less than what has one digit more. -/
theorem leadingDecimal_lt (s : CString) : leadingDecimal s < 10 ^ s.length := by
  have hfold : ∀ (digits : CString) (n : Nat), (∀ b ∈ digits, isdigit b = true) →
      digits.foldl (fun n b => 10 * n + (b.toNat - 48)) n < (n + 1) * 10 ^ digits.length := by
    intro digits
    induction digits with
    | nil => simp
    | cons b digits ih =>
        intro n hdigits
        obtain ⟨hb, hdigits⟩ := List.forall_mem_cons.mp hdigits
        have hrange := toNat_of_isdigit hb
        calc (b :: digits).foldl (fun n b => 10 * n + (b.toNat - 48)) n
            < (10 * n + (b.toNat - 48) + 1) * 10 ^ digits.length := ih _ hdigits
          _ ≤ ((n + 1) * 10) * 10 ^ digits.length := Nat.mul_le_mul_right _ (by omega)
          _ = (n + 1) * 10 ^ (b :: digits).length := by
              rw [List.length_cons, Nat.pow_succ']
              ring
  calc leadingDecimal s < (0 + 1) * 10 ^ (s.takeWhile isdigit).length :=
        hfold _ 0 fun b hb => (List.mem_takeWhile_imp hb)
    _ ≤ 10 ^ s.length := by
        rw [Nat.zero_add, Nat.one_mul]
        exact Nat.pow_le_pow_right (by decide) (List.takeWhile_sublist _).length_le

/-- A text stands for less than what has a digit more than it has bytes. -/
theorem natAbs_strtol_lt (s : CString) : (strtol s).natAbs < 10 ^ s.length := by
  have hdrop := (List.dropWhile_sublist isspace (l := s)).length_le
  have hbody : ∀ t : CString, t.length ≤ s.length → leadingDecimal t < 10 ^ s.length := fun t ht =>
    Nat.lt_of_lt_of_le (leadingDecimal_lt t) (Nat.pow_le_pow_right (by decide) ht)
  have hclip : ∀ value : Int, value.natAbs < 10 ^ s.length →
      (max (-2 ^ 63) (min value (2 ^ 63 - 1))).natAbs < 10 ^ s.length := fun value h => by omega
  refine hclip _ ?_
  split
  · next t ht =>
    rw [ht, List.length_cons] at hdrop
    have := hbody t (by omega)
    omega
  · next t ht =>
    rw [ht, List.length_cons] at hdrop
    have := hbody t (by omega)
    omega
  · have := hbody _ hdrop
    omega

/-- A number is not shorter than its decimal digits. -/
theorem length_toString_le {n : Int} (hn : 0 < n) {s : CString} (hlt : n.natAbs < 10 ^ s.length) :
    (cstr (toString n)).length ≤ s.length := by
  have hpos : 0 < s.length := by
    rcases Nat.eq_zero_or_pos s.length with h | h
    · rw [h] at hlt
      omega
    · exact h
  obtain ⟨n, rfl⟩ := Int.eq_ofNat_of_zero_le (Int.le_of_lt hn)
  rw [Int.natAbs_natCast] at hlt
  exact length_cstr_toString_le hpos (Int.le_of_lt hn) (by exact_mod_cast hlt)

theorem length_le_of_strtol {n : Int} (hn : 0 < n) {s : CString} (h : strtol s = n) :
    (cstr (toString n)).length ≤ s.length :=
  length_toString_le hn (h ▸ natAbs_strtol_lt s)

theorem length_le_of_atoi {n : Int} (hn : 0 < n) {s : CString} (h : atoi s = n) :
    (cstr (toString n)).length ≤ s.length := by
  have hlt := natAbs_strtol_lt s
  have hle : n.natAbs ≤ (strtol s).natAbs := by
    rw [atoi, Int.bmod_eq_emod] at h
    split at h <;> omega
  exact length_toString_le hn (Nat.lt_of_le_of_lt hle hlt)

namespace QueryCommand

section

variable {q : QueryCommand}

/-! ## The arguments -/

theorem mem_arguments {argument : CString × CString} (h : argument ∈ q.arguments) :
    argument ∈ fixedArguments q.startTime q.endTime q.pid ∨
      ∃ text, q.name = some text ∧ argument = (cstr "name", text) := by
  rcases List.mem_append.mp h with h | h
  · exact .inl h
  · obtain ⟨text, htext, heq⟩ := Option.map_eq_some_iff.mp (Option.mem_toList.mp h)
    exact .inr ⟨text, htext, heq.symm⟩

/-- Keys are read as they are. -/
theorem plain_argumentKeys :
    ∀ key ∈ argumentKeys, QueryPlain key ∧ 61 ∉ key ∧ 0 ∉ key ∧ 35 ∉ key := by decide

/-- Numbers are read as they are. -/
theorem plain_toString {n : Int} (hn : 0 < n) :
    QueryPlain (cstr (toString n)) ∧ 35 ∉ cstr (toString n) := by
  obtain ⟨n, rfl⟩ := Int.eq_ofNat_of_zero_le (Int.le_of_lt hn)
  rw [Int.toString_eq_repr, Int.repr_eq_if, if_pos (Int.natCast_nonneg n), Int.toNat_natCast]
  exact ⟨queryPlain_of_isdigit fun b => isdigit_of_mem_repr,
    fun h => absurd (isdigit_of_mem_repr h) (by decide)⟩

/-- The arguments in front of the name have a key and a number. -/
theorem key_fixedArguments {argument : CString × CString}
    (h : argument ∈ fixedArguments q.startTime q.endTime q.pid) :
    argument.1 ∈ argumentKeys ∧ ∃ n : Int, 0 < n ∧ argument.2 = cstr (toString n) := by
  rcases mem_fixedArguments h with ⟨rfl, hn⟩ | ⟨rfl, hn⟩ | ⟨rfl, hn⟩
  · exact ⟨List.mem_of_mem_head? rfl, _, hn, rfl⟩
  · exact ⟨List.mem_of_mem_tail (List.mem_of_mem_head? rfl), _, hn, rfl⟩
  · exact ⟨List.mem_of_mem_tail (List.mem_of_mem_tail (List.mem_of_mem_head? rfl)), _, hn, rfl⟩

theorem plain_fixedArguments (q : QueryCommand) :
    ∀ argument ∈ fixedArguments q.startTime q.endTime q.pid, PlainArgument argument := by
  intro argument h
  obtain ⟨hkey, n, hn, hvalue⟩ := key_fixedArguments h
  have hplain := plain_argumentKeys _ hkey
  exact ⟨hplain.1, hplain.2.1, hvalue ▸ (plain_toString hn).1⟩

/-- A byte of the query string is a separator, is in a key or in a number, or is in
the name. -/
theorem mem_queryText {b : UInt8} (h : b ∈ q.queryText) :
    b = 38 ∨ b = 61 ∨ (∃ key ∈ argumentKeys, b ∈ key) ∨
      (∃ n : Int, 0 < n ∧ b ∈ cstr (toString n)) ∨ ∃ text ∈ q.name, b ∈ text := by
  rcases mem_intercalate h with h | ⟨_, htext, hb⟩
  · exact .inl h
  · obtain ⟨argument, hargument, rfl⟩ := List.mem_map.mp htext
    have hequals : cstr "=" = [61] := rfl
    rw [argumentText, hequals, List.mem_append, List.mem_append, List.mem_singleton] at hb
    rcases mem_arguments hargument with hfixed | ⟨text, hname, rfl⟩
    · obtain ⟨hkey, n, hn, hvalue⟩ := key_fixedArguments hfixed
      rw [hvalue] at hb
      rcases hb with (hb | hb) | hb
      · exact .inr (.inr (.inl ⟨_, hkey, hb⟩))
      · exact .inr (.inl hb)
      · exact .inr (.inr (.inr (.inl ⟨n, hn, hb⟩)))
    · rcases hb with (hb | hb) | hb
      · exact .inr (.inr (.inl ⟨cstr "name", by simp [argumentKeys], hb⟩))
      · exact .inr (.inl hb)
      · exact .inr (.inr (.inr (.inr ⟨text, hname, hb⟩)))

theorem nodup_keys (q : QueryCommand) : (q.arguments.map Prod.fst).Nodup := by
  have hoptional : ∀ (p : Prop) [Decidable p] (k v : CString),
      ((if p then [(k, v)] else []).map Prod.fst).Sublist [k] := fun p _ k v => by
    by_cases hp : p <;> simp [hp]
  have hname : ((q.name.map fun text => (cstr "name", text)).toList.map Prod.fst).Sublist
      [cstr "name"] := by
    cases q.name <;> simp
  refine List.Nodup.sublist ?_ nodup_argumentKeys
  rw [arguments, fixedArguments, List.map_append, List.map_append, List.map_append]
  exact (((hoptional _ _ _).append (hoptional _ _ _)).append (hoptional _ _ _)).append hname

theorem zero_notMem_queryText (q : QueryCommand) : 0 ∉ q.queryText := by
  intro h
  rcases mem_queryText h with h | h | ⟨key, hkey, hb⟩ | ⟨n, hn, hb⟩ | ⟨text, hname, hb⟩
  · cases h
  · cases h
  · exact (plain_argumentKeys key hkey).2.2.1 hb
  · exact zero_notMem_toString n hb
  · exact q.name_noNul text hname hb

/-- A `#` in the query string is one in the name. -/
theorem hash_mem_queryText (h : 35 ∈ q.queryText) : ∃ text ∈ q.name, 35 ∈ text := by
  rcases mem_queryText h with h | h | ⟨key, hkey, hb⟩ | ⟨n, hn, hb⟩ | hname
  · cases h
  · cases h
  · exact absurd hb (plain_argumentKeys key hkey).2.2.2
  · exact absurd hb (plain_toString hn).2
  · exact hname

/-! ## The URL -/

/-- `url_buffer` is what there is room for of the URL, if `query_params` is written in
its bounds. -/
theorem liveUrl_eq (urlBuffer : CharBuffer 1024) (server : ServerUrl) (q : QueryCommand) :
    (q.ParamsFit → q.liveUrl urlBuffer server.text =
      some ((server.text ++ (cstr "/query" ++ 63 :: q.queryText)).take 1023)) ∧
    (¬q.ParamsFit → q.liveUrl urlBuffer server.text = none) := by
  obtain ⟨hfits, hout⟩ := queryParams_eq q
  constructor
  · intro hparams
    obtain ⟨buffer, hbuffer, hholds⟩ := hfits hparams
    have hnul : 0 ∉ cstr "?" ++ q.queryText :=
      List.not_mem_append (by decide) (zero_notMem_queryText q)
    have hurl : 0 ∉ server.text ++ cstr "/query" ++ (cstr "?" ++ q.queryText) :=
      List.not_mem_append (List.not_mem_append server.plain.1 (by decide)) hnul
    rw [liveUrl, hbuffer, Option.bind_some, hholds.text_eq hnul,
      CharBuffer.snprintf_text urlBuffer (by decide) hurl, List.append_assoc]
    rfl
  · intro hparams
    rw [liveUrl, hout hparams, Option.bind_none]

/-- The URL as the server sees it, from the path on. -/
theorem drop_server (server : ServerUrl) (target : CString) :
    ((server.text ++ target).take 1023).drop server.text.length =
      target.take (1023 - server.text.length) := by
  rw [List.drop_take, List.drop_left]

/-- Without room for the path, nothing is read. -/
theorem serverRequest_url_ne {server : ServerUrl} {target : CString}
    (hroom : 1023 - server.text.length < 6) :
    (serverRequest server ((server.text ++ target).take 1023)).url ≠ cstr "/query" := by
  intro heq
  have hlen := congrArg List.length heq
  have hpath : (cstr "/query").length = 6 := rfl
  have htarget := (List.takeWhile_sublist (· != 63) (l := (target.take
    (1023 - server.text.length)).takeWhile (· != 35))).length_le
  have hsent := (List.takeWhile_sublist (· != 35) (l := target.take
    (1023 - server.text.length))).length_le
  have htake := List.length_take_le (1023 - server.text.length) target
  simp only [serverRequest, drop_server] at hlen
  omega

/-- With room for the path, the arguments are read from what there is room for of
the query string, up to a `#`. -/
theorem serverRequest_eq {server : ServerUrl} (query : CString) {j : Nat}
    (hroom : 1023 - server.text.length = j + 6) :
    let request := serverRequest server
      ((server.text ++ (cstr "/query" ++ 63 :: query)).take 1023)
    request.url = cstr "/query" ∧ ∀ key, request.argument key =
      (lookupArgument ((query.take (j - 1)).takeWhile (· != 35)) key).map
        (·.takeWhile (· != 0)) := by
  have hpath : ∀ b ∈ cstr "/query", (b != 35) = true ∧ (b != 63) = true := by simp [cstr]
  have hlen : (cstr "/query").length = 6 := rfl
  have htake : (cstr "/query" ++ 63 :: query).take (j + 6) =
      cstr "/query" ++ (63 :: query).take j := by
    rw [Nat.add_comm, ← hlen, List.take_length_add_append]
  simp only [serverRequest, drop_server, hroom, htake]
  rw [List.takeWhile_append_of_pos fun b hb => (hpath b hb).1,
    List.takeWhile_append_of_pos fun b hb => (hpath b hb).2,
    List.dropWhile_append_of_pos fun b hb => (hpath b hb).2]
  cases j with
  | zero => exact ⟨by simp, fun key => rfl⟩
  | succ j =>
      rw [List.take_succ_cons, List.takeWhile_cons_of_pos rfl]
      exact ⟨by simp, fun key => by simp⟩

/-! ## What arrives -/

/-- What arrives takes up the room of the query string. -/
theorem length_le_of_arrives {request : HttpRequest} {query : CString}
    (hargument : ∀ key, request.argument key = (lookupArgument query key).map
      (·.takeWhile (· != 0))) (h : q.Arrives request) : q.queryText.length ≤ query.length := by
  have hfound : ∀ key value, request.argument key = some value →
      ∃ value', lookupArgument query key = some value' ∧ value.length ≤ value'.length := by
    intro key value hvalue
    rw [hargument] at hvalue
    obtain ⟨value', hlookup, rfl⟩ := Option.map_eq_some_iff.mp hvalue
    exact ⟨value', hlookup, (List.takeWhile_sublist _).length_le⟩
  have hnumber : ∀ (key : CString) (read : CString → Int) (n : Int),
      (∀ s, read s = n → (cstr (toString n)).length ≤ s.length) →
      (request.argument key).map read = some n →
      ∃ value', lookupArgument query key = some value' ∧
        (cstr (toString n)).length ≤ value'.length := by
    intro key read n hread hvalue
    obtain ⟨value, hvalue, hn⟩ := Option.map_eq_some_iff.mp hvalue
    obtain ⟨value', hlookup, hlen⟩ := hfound key value hvalue
    exact ⟨value', hlookup, Nat.le_trans (hread value hn) hlen⟩
  refine length_le_of_found (nodup_keys q) fun argument hmem => ?_
  rcases mem_arguments hmem with hfixed | ⟨text, hname, rfl⟩
  · rcases mem_fixedArguments hfixed with ⟨rfl, hn⟩ | ⟨rfl, hn⟩ | ⟨rfl, hn⟩
    · exact hnumber _ strtol _ (fun s => length_le_of_strtol hn) (h.startTime hn)
    · exact hnumber _ strtol _ (fun s => length_le_of_strtol hn) (h.endTime hn)
    · exact hnumber _ atoi _ (fun s => length_le_of_atoi hn) (h.pid hn)
  · exact hfound _ _ (h.name text hname)

/-- From the whole query string, the name arrives just if nothing in it is decoded. -/
theorem name_arrives_iff {text : CString} (hname : q.name = some text) :
    (lookupArgument q.queryText (cstr "name")).map (·.takeWhile (· != 0)) = some text ↔
      QueryPlain text := by
  have hkey := plain_argumentKeys (cstr "name") (by simp [argumentKeys])
  have hlookup := lookupArgument_last (plain_fixedArguments q) hkey.1 hkey.2.1
    (lookup_fixedArguments q.startTime q.endTime q.pid).2.2.2 text
  have harguments : q.arguments =
      fixedArguments q.startTime q.endTime q.pid ++ [(cstr "name", text)] := by
    simp [arguments, hname]
  rw [queryText, harguments, hlookup, Option.map_some, Option.some.injEq]
  constructor
  · intro heq
    have hlen := congrArg List.length heq
    have hcut := (List.takeWhile_sublist (· != 0)
      (l := unescape (text.takeWhile (· != 38)))).length_le
    have hdecode := (length_unescape_le (text.takeWhile (· != 38))).1
    have hfront := List.takeWhile_sublist (· != 38) (l := text)
    have hwhole : text.takeWhile (· != 38) = text :=
      hfront.eq_of_length (by have := hfront.length_le; omega)
    have hamp : 38 ∉ text := fun h => by
      simpa using List.takeWhile_eq_self_iff.mp hwhole 38 h
    rw [hwhole] at heq hlen hcut hdecode
    have hnul : (unescape text).takeWhile (· != 0) = unescape text :=
      (List.takeWhile_sublist _).eq_of_length (by omega)
    exact ⟨hamp, unescape_eq_self_iff.mp (hnul ▸ heq)⟩
  · intro hplain
    have hwhole : text.takeWhile (· != 38) = text :=
      List.takeWhile_eq_self_iff.mpr fun b hb => by
        simpa using fun h : b = 38 => hplain.1 (h ▸ hb)
    rw [hwhole, hplain.unescape_eq]
    exact List.takeWhile_eq_self_iff.mpr fun b hb => by
      simpa using fun h : b = 0 => q.name_noNul text hname (h ▸ hb)

theorem queryText_ne_nil (h : q.arguments ≠ []) : 0 < q.queryText.length := by
  have hseparated : separatedLength (q.arguments.map argumentText) = _ :=
    separatedLength_eq (by simpa using h)
  obtain ⟨argument, arguments, hcons⟩ := List.exists_cons_of_ne_nil h
  have hequals : (cstr "=").length = 1 := rfl
  rw [queryText]
  simp only [hcons, separatedLength, List.map_cons, List.sum_cons, argumentText,
    List.length_append] at hseparated ⊢
  omega

/-- The name is in the query string. -/
theorem mem_queryText_of_name {text : CString} (hname : q.name = some text) {b : UInt8}
    (hb : b ∈ text) (hne : b ≠ 38) : b ∈ q.queryText := by
  have hmem : argumentText (cstr "name", text) ∈ q.arguments.map argumentText := by
    simp [arguments, hname]
  have htexts := flatten_map_append (38 : UInt8) (List.ne_nil_of_mem hmem)
  have hflat : b ∈ (q.arguments.map argumentText).flatMap (· ++ [38]) :=
    List.mem_flatMap.mpr ⟨_, hmem, List.mem_append_left _ (List.mem_append_right _ hb)⟩
  rw [List.flatMap_def, htexts, List.mem_append, List.mem_singleton] at hflat
  exact hflat.resolve_right hne

/-- Looking a number up among the arguments. -/
theorem read_fixedArgument (hplain : ∀ argument ∈ q.arguments, PlainArgument argument)
    {key : CString} {n : Int} (hlookup : (fixedArguments q.startTime q.endTime q.pid).lookup key =
      some (cstr (toString n))) :
    (lookupArgument q.queryText key).map (·.takeWhile (· != 0)) = some (cstr (toString n)) := by
  have hnul : (cstr (toString n)).takeWhile (· != 0) = cstr (toString n) :=
    List.takeWhile_eq_self_iff.mpr fun b hb => by
      simpa using fun h : b = 0 => zero_notMem_toString n (h ▸ hb)
  rw [queryText, lookupArgument_of_plain hplain, arguments, List.lookup_append, hlookup,
    Option.some_or, Option.map_some, hnul]

/-- A query string with a plain name is read as it is. -/
theorem arrives_of_plain (hplain : q.NamePlain) {request : HttpRequest}
    (hurl : request.url = cstr "/query")
    (hargument : ∀ key, request.argument key = (lookupArgument q.queryText key).map
      (·.takeWhile (· != 0))) : q.Arrives request := by
  have harguments : ∀ argument ∈ q.arguments, PlainArgument argument := by
    intro argument h
    rcases mem_arguments h with hfixed | ⟨text, hname, rfl⟩
    · exact plain_fixedArguments q argument hfixed
    · have hkey := plain_argumentKeys (cstr "name") (by simp [argumentKeys])
      exact ⟨hkey.1, hkey.2.1, (hplain text hname).2⟩
  obtain ⟨hstart, hend, hpid, -⟩ := lookup_fixedArguments q.startTime q.endTime q.pid
  refine ⟨hurl, fun hn => ?_, fun hn => ?_, fun hn => ?_, fun text hname => ?_⟩
  · rw [if_pos hn] at hstart
    rw [hargument, read_fixedArgument harguments hstart, Option.map_some, strtol_toString hn,
      min_eq_left (Int.le_sub_one_of_lt q.startTime_lt)]
  · rw [if_pos hn] at hend
    rw [hargument, read_fixedArgument harguments hend, Option.map_some, strtol_toString hn,
      min_eq_left (Int.le_sub_one_of_lt q.endTime_lt)]
  · rw [if_pos hn] at hpid
    rw [hargument, read_fixedArgument harguments hpid, Option.map_some,
      atoi_toString (by omega) q.pid_lt]
  · rw [hargument]
    exact (name_arrives_iff hname).mpr (hplain text hname).2

/-- What arrives was put together within the buffers and not cut, and nothing in the
name is decoded or ends it. -/
theorem fits_of_arrives {urlBuffer : CharBuffer 1024} {server : ServerUrl} {url : CString}
    (hurl : q.liveUrl urlBuffer server.text = some url)
    (harrives : q.Arrives (serverRequest server url)) :
    q.ParamsFit ∧ q.UrlFits server ∧ q.NamePlain := by
  obtain ⟨hfits, hout⟩ := liveUrl_eq urlBuffer server q
  have hparams : q.ParamsFit := by
    by_contra hparams
    simp [hout hparams] at hurl
  obtain rfl := Option.some.inj ((hfits hparams).symm.trans hurl)
  have hpath : ¬1023 - server.text.length < 6 := fun hroom =>
    serverRequest_url_ne hroom harrives.url
  obtain ⟨j, hj⟩ : ∃ j, 1023 - server.text.length = j + 6 :=
    ⟨1023 - server.text.length - 6, by omega⟩
  obtain ⟨-, hargument⟩ := serverRequest_eq q.queryText hj
  have hlen := length_le_of_arrives hargument harrives
  have hsent := (List.takeWhile_sublist (· != 35) (l := q.queryText.take (j - 1))).length_le
  have htake := List.length_take_le (j - 1) q.queryText
  have hshort : q.queryText.length ≤ j - 1 := by omega
  -- neither the end of the buffer nor a `#` has taken anything away
  have hwhole : q.queryText.take (j - 1) = q.queryText := List.take_of_length_le hshort
  rw [hwhole] at hargument hlen
  have hhash : q.queryText.takeWhile (· != 35) = q.queryText :=
    (List.takeWhile_sublist _).eq_of_length_le hlen
  rw [hhash] at hargument
  refine ⟨hparams, ?_, fun text hname => ⟨fun h => ?_, ?_⟩⟩
  · unfold UrlFits
    split
    · omega
    · next hne =>
      have := queryText_ne_nil hne
      omega
  · have hmem := mem_queryText_of_name hname h (by decide)
    simpa using List.takeWhile_eq_self_iff.mp hhash 35 hmem
  · refine (name_arrives_iff hname).mp ?_
    rw [← hargument]
    exact harrives.name text hname

/-- What has room is read as it is. -/
theorem exists_url_of_fits (urlBuffer : CharBuffer 1024) {server : ServerUrl}
    (hparams : q.ParamsFit) (hroom : q.UrlFits server) (hplain : q.NamePlain) :
    ∃ url, q.liveUrl urlBuffer server.text = some url ∧
      q.Arrives (serverRequest server url) := by
  unfold UrlFits at hroom
  obtain ⟨j, hj⟩ : ∃ j, 1023 - server.text.length = j + 6 :=
    ⟨1023 - server.text.length - 6, by omega⟩
  have hlen : q.queryText.length ≤ j - 1 := by
    by_cases hnil : q.arguments = []
    · rw [queryText_of_nil hnil]
      exact Nat.zero_le _
    · rw [if_neg hnil] at hroom
      omega
  obtain ⟨hurl, hargument⟩ := serverRequest_eq q.queryText hj
  have hhash : q.queryText.takeWhile (· != 35) = q.queryText :=
    List.takeWhile_eq_self_iff.mpr fun b hb => by
      simpa using fun h : b = 35 => by
        obtain ⟨text, hname, hmem⟩ := hash_mem_queryText (h ▸ hb)
        exact (hplain text hname).1 hmem
  rw [List.take_of_length_le hlen, hhash] at hargument
  exact ⟨_, (liveUrl_eq urlBuffer server q).1 hparams, arrives_of_plain hplain hurl hargument⟩

/-- **The URL.**  It is put together within the buffers and its parameters are those
of the query just if both texts have room and nothing in the name is decoded or
ends it. -/
theorem liveUrl_arrives_iff (urlBuffer : CharBuffer 1024) (server : ServerUrl)
    (q : QueryCommand) :
    (∃ url, q.liveUrl urlBuffer server.text = some url ∧ q.Arrives (serverRequest server url)) ↔
      q.ParamsFit ∧ q.UrlFits server ∧ q.NamePlain := by
  constructor
  · rintro ⟨url, hurl, harrives⟩
    exact fits_of_arrives hurl harrives
  · rintro ⟨hparams, hroom, hplain⟩
    exact exists_url_of_fits urlBuffer hparams hroom hplain

/-- The default of `--server` -/
def defaultServer : ServerUrl where
  text := cstr "http://localhost:8081"
  plain := by simp [cstr]

/-- Of a name like `R&D`, what is behind the `&` does not arrive.  For a name of 600
bytes, the terminator is written behind `query_params`. -/
theorem not_arrives_ampersand :
    (∀ urlBuffer, ¬∃ url, (exampleCommand (cstr "R&D") (by simp [cstr])).liveUrl urlBuffer
        defaultServer.text = some url ∧
      (exampleCommand (cstr "R&D") (by simp [cstr])).Arrives (serverRequest defaultServer url)) ∧
    ∀ urlBuffer, (exampleCommand (List.replicate 600 97) fun h =>
      absurd (List.eq_of_mem_replicate h) (by decide)).liveUrl urlBuffer defaultServer.text =
        none := by
  constructor
  · rintro urlBuffer ⟨url, hurl, harrives⟩
    have hplain := (fits_of_arrives hurl harrives).2.2
    exact absurd hplain (by decide +kernel)
  · intro urlBuffer
    exact (liveUrl_eq urlBuffer defaultServer _).2 (by decide +kernel)

end

end QueryCommand

end Profiling
