import Profiling.Buckets
import Profiling.Database.Writer
import Profiling.Tally

/-!
# Profiling.Query

The historical query of `config/query_tool.c`: the hash table it adds counts up
in, the `WHERE` clause, and the loop over the hours from the start of the range
to its end.

The directory is a function from paths to the rows of the files that exist.
`none` as a result is an overflow of a `long long`.  A ghost result is the list
of the files that were opened.
-/

namespace Profiling

/-! ## The hash table -/

/-- `HASH_TABLE_SIZE` -/
def hashTableSize : Nat := 4096

/-- `ht_entry_t` -/
structure HtEntry where
  key : CString
  value : Int
  deriving DecidableEq, Repr

/-- `ht_t`: the chain of each slot. -/
abbrev Ht := Nat → List HtEntry

/-- `hash`, where `char` is signed -/
def htHash (key : CString) : Nat :=
  (key.foldl (fun (hash : UInt64) b =>
    (hash <<< 5) + hash + if b < 128 then b.toUInt64 else b.toUInt64 - 256) 5381).toNat %
      hashTableSize

/-- The search of `ht_insert`: the value goes to the entry of the key, if the
chain has one. -/
def addToEntry (key : CString) (value : Int) : List HtEntry → Option (List HtEntry)
  | [] => none
  | entry :: chain =>
      if entry.key = key then some ({ entry with value := entry.value + value } :: chain)
      else (addToEntry key value chain).map (entry :: ·)

/-- `ht_insert` -/
def htInsert (hashtable : Ht) (key : CString) (value : Int) : Ht :=
  let slot := htHash key
  match addToEntry key value (hashtable slot) with
  | some chain => Function.update hashtable slot chain
  | none => Function.update hashtable slot (⟨key, value⟩ :: hashtable slot)

/-- `ht_foreach`: the lines it prints. -/
def htForeach (hashtable : Ht) : List (CString × Int) :=
  (Buckets.entries hashTableSize hashtable).map fun entry => (entry.key, entry.value)

/-- The table counts these keys. -/
structure Ht.Counts (hashtable : Ht) (keys : List CString) : Prop where
  placed : Buckets.Placed HtEntry.key htHash hashtable
  mem : ∀ entry, Buckets.Mem HtEntry.key htHash hashtable entry ↔
    entry.key ∈ keys ∧ entry.value = keys.count entry.key

/-- The values that come with a key, added up. -/
def keyTotal (inserts : List (CString × Int)) (key : CString) : Int :=
  ((inserts.filter fun insert => insert.1 = key).map Prod.snd).sum

/-- The table adds up the values that are inserted. -/
structure Ht.Sums (hashtable : Ht) (inserts : List (CString × Int)) : Prop where
  placed : Buckets.Placed HtEntry.key htHash hashtable
  mem : ∀ entry, Buckets.Mem HtEntry.key htHash hashtable entry ↔
    entry.key ∈ inserts.map Prod.fst ∧ entry.value = keyTotal inserts entry.key

/-- What an insertion changes in an entry. -/
def HtEntry.add (key : CString) (value : Int) (entry : HtEntry) : HtEntry :=
  if entry.key = key then { entry with value := entry.value + value } else entry

theorem htHash_lt (key : CString) : htHash key < hashTableSize := Nat.mod_lt _ (by decide)

@[simp] theorem HtEntry.key_add (key : CString) (value : Int) (entry : HtEntry) :
    (entry.add key value).key = entry.key := by
  unfold add
  split <;> rfl

theorem HtEntry.add_of_ne {key : CString} {entry : HtEntry} (h : entry.key ≠ key) (value : Int) :
    entry.add key value = entry := if_neg h

/-- In a chain without two entries of a key, the search finds the one to change. -/
theorem addToEntry_eq {key : CString} (value : Int) {chain : List HtEntry}
    (hchain : chain.Pairwise fun a b => a.key ≠ b.key) :
    addToEntry key value chain =
      if ∃ entry ∈ chain, entry.key = key then some (chain.map (HtEntry.add key value))
      else none := by
  induction chain with
  | nil => simp [addToEntry]
  | cons entry chain ih =>
      obtain ⟨hentry, hchain⟩ := List.pairwise_cons.mp hchain
      rw [addToEntry]
      by_cases hkey : entry.key = key
      · have hrest : chain.map (HtEntry.add key value) = chain := by
          refine (List.map_congr_left fun e he => ?_).trans (List.map_id' chain)
          exact HtEntry.add_of_ne (fun h => hentry e he (hkey.trans h.symm)) value
        rw [if_pos hkey, if_pos ⟨entry, List.mem_cons_self, hkey⟩, List.map_cons, hrest,
          HtEntry.add, if_pos hkey]
      · rw [if_neg hkey, ih hchain]
        simp only [List.mem_cons, exists_eq_or_imp, hkey, false_or, List.map_cons,
          HtEntry.add_of_ne hkey]
        split <;> rfl

namespace Ht

variable {hashtable : Ht} {keys keys' : List CString}

theorem counts_empty : Counts (fun _ => []) [] :=
  ⟨Buckets.placed_empty, by simp [Buckets.Mem]⟩

theorem Counts.perm (h : hashtable.Counts keys) (hperm : keys.Perm keys') :
    hashtable.Counts keys' :=
  ⟨h.placed, fun entry => by rw [h.mem, hperm.mem_iff, hperm.count_eq]⟩

/-- What an insertion adds to the entry of a key that is there. -/
theorem htInsert_of_mem (h : Buckets.Placed HtEntry.key htHash hashtable) {key : CString}
    (hkey : ∃ entry, Buckets.Mem HtEntry.key htHash hashtable entry ∧ entry.key = key)
    (value : Int) :
    htInsert hashtable key value = fun i => (hashtable i).map (HtEntry.add key value) := by
  have hchain : ∃ entry ∈ hashtable (htHash key), entry.key = key := by
    obtain ⟨entry, hmem, rfl⟩ := hkey
    exact ⟨entry, hmem, rfl⟩
  rw [htInsert, addToEntry_eq value (h.distinct _), if_pos hchain]
  funext i
  dsimp only
  by_cases hi : i = htHash key
  · subst hi
    rw [Function.update_self]
  · rw [Function.update_of_ne hi]
    refine ((List.map_congr_left fun e he => ?_).trans (List.map_id' _)).symm
    exact HtEntry.add_of_ne (fun heq => hi ((h.bucket i e he).symm.trans (congrArg htHash heq)))
      value

theorem htInsert_of_not_mem (h : Buckets.Placed HtEntry.key htHash hashtable) {key : CString}
    (hkey : ∀ entry, Buckets.Mem HtEntry.key htHash hashtable entry → entry.key ≠ key)
    (value : Int) :
    htInsert hashtable key value =
      Function.update hashtable (htHash key) (⟨key, value⟩ :: hashtable (htHash key)) := by
  have hchain : ¬∃ entry ∈ hashtable (htHash key), entry.key = key := by
    rintro ⟨entry, hmem, rfl⟩
    exact hkey entry hmem rfl
  rw [htInsert, addToEntry_eq value (h.distinct _), if_neg hchain]

/-- An insertion more. -/
theorem keyTotal_concat (inserts : List (CString × Int)) (key : CString) (value : Int)
    (k : CString) :
    keyTotal (inserts ++ [(key, value)]) k =
      keyTotal inserts k + if key = k then value else 0 := by
  by_cases hk : key = k <;> simp [keyTotal, hk]

theorem keyTotal_of_not_mem {inserts : List (CString × Int)} {key : CString}
    (h : key ∉ inserts.map Prod.fst) : keyTotal inserts key = 0 := by
  have hnone : (inserts.filter fun insert => insert.1 = key) = [] :=
    List.filter_eq_nil_iff.mpr fun insert hinsert heq =>
      h (List.mem_map.mpr ⟨insert, hinsert, of_decide_eq_true heq⟩)
  simp [keyTotal, hnone]

/-- An insertion adds its value up. -/
theorem Sums.insert {inserts : List (CString × Int)} (h : hashtable.Sums inserts) (key : CString)
    (value : Int) : (htInsert hashtable key value).Sums (inserts ++ [(key, value)]) := by
  have hkeys : ∀ k, k ∈ (inserts ++ [(key, value)]).map Prod.fst ↔
      k ∈ inserts.map Prod.fst ∨ k = key := by simp
  by_cases hkey : key ∈ inserts.map Prod.fst
  · rw [htInsert_of_mem h.placed ⟨_, (h.mem ⟨key, keyTotal inserts key⟩).mpr ⟨hkey, rfl⟩, rfl⟩]
    refine ⟨h.placed.map (HtEntry.key_add key value), fun entry => ?_⟩
    rw [Buckets.mem_map (HtEntry.key_add key value), hkeys, keyTotal_concat]
    constructor
    · rintro ⟨e, he, rfl⟩
      obtain ⟨hin, hvalue⟩ := (h.mem e).mp he
      refine ⟨.inl (by simpa using hin), ?_⟩
      by_cases heq : e.key = key
      · simp [HtEntry.add, heq, hvalue]
      · simp [HtEntry.add, heq, Ne.symm heq, hvalue]
    · rintro ⟨hin, hvalue⟩
      have hold : entry.key ∈ inserts.map Prod.fst := hin.elim id fun heq => heq ▸ hkey
      refine ⟨⟨entry.key, keyTotal inserts entry.key⟩, (h.mem _).mpr ⟨hold, rfl⟩, ?_⟩
      obtain ⟨k, v⟩ := entry
      by_cases heq : k = key
      · simp_all [HtEntry.add]
      · simp_all [HtEntry.add, Ne.symm heq]
  · have habsent : ∀ entry, Buckets.Mem HtEntry.key htHash hashtable entry → entry.key ≠ key :=
      fun entry he heq => hkey (heq ▸ ((h.mem entry).mp he).1)
    rw [htInsert_of_not_mem h.placed habsent]
    refine ⟨h.placed.push (x := ⟨key, value⟩) habsent, fun entry => ?_⟩
    have hpush := Buckets.mem_push HtEntry.key htHash (t := hashtable) (y := entry) ⟨key, value⟩
    rw [hpush, hkeys, keyTotal_concat, h.mem]
    constructor
    · rintro (⟨hin, hvalue⟩ | rfl)
      · have hne : key ≠ entry.key := fun heq => hkey (heq ▸ hin)
        exact ⟨.inl hin, by simp [hvalue, hne]⟩
      · exact ⟨.inr rfl, by simp [keyTotal_of_not_mem hkey]⟩
    · rintro ⟨hin, hvalue⟩
      by_cases heq : key = entry.key
      · rw [if_pos heq, ← heq, keyTotal_of_not_mem hkey, Int.zero_add] at hvalue
        exact .inr (by rw [heq, ← hvalue])
      · exact .inl ⟨hin.resolve_right (Ne.symm heq), by simpa [heq] using hvalue⟩

/-- Counting keys is adding a one for each. -/
theorem keyTotal_ones (keys : List CString) (key : CString) :
    keyTotal (keys.map fun k => (k, 1)) key = keys.count key := by
  induction keys with
  | nil => rfl
  | cons k keys ih =>
      simp only [keyTotal] at ih
      by_cases hk : k = key <;> simp [keyTotal, hk, ih, Int.add_comm]

theorem counts_iff_sums : hashtable.Counts keys ↔ hashtable.Sums (keys.map fun k => (k, 1)) := by
  constructor
  · intro h
    exact ⟨h.placed, fun entry => by simp [h.mem, keyTotal_ones]⟩
  · intro h
    exact ⟨h.placed, fun entry => by simp [h.mem, keyTotal_ones]⟩

/-- Inserting a key with a number counts the key that often. -/
theorem Counts.insert (h : hashtable.Counts keys) (key : CString) {n : Nat} (hn : 0 < n) :
    (htInsert hashtable key n).Counts (keys ++ List.replicate n key) := by
  obtain ⟨hplaced, hmem⟩ := (counts_iff_sums.mp h).insert key n
  refine ⟨hplaced, fun entry => (hmem entry).trans (and_congr ?_ ?_)⟩
  · simp [Nat.pos_iff_ne_zero.mp hn]
  · rw [keyTotal_concat, keyTotal_ones, List.count_append, List.count_replicate, Nat.cast_add]
    simp

/-- What is printed is the sum of each key. -/
theorem Sums.lines {inserts : List (CString × Int)} (h : hashtable.Sums inserts) :
    ((htForeach hashtable).map Prod.fst).Nodup ∧
      ∀ k n, (k, n) ∈ htForeach hashtable ↔
        k ∈ inserts.map Prod.fst ∧ n = keyTotal inserts k := by
  refine ⟨?_, fun k n => ?_⟩
  · rw [htForeach, List.map_map]
    exact h.placed.nodup_entries hashTableSize
  · rw [htForeach, List.mem_map]
    constructor
    · rintro ⟨entry, hentry, heq⟩
      obtain ⟨rfl, rfl⟩ := Prod.mk.inj heq
      exact (h.mem entry).mp ((h.placed.mem_entries htHash_lt).mp hentry)
    · intro hline
      exact ⟨⟨k, n⟩, (h.placed.mem_entries htHash_lt).mpr ((h.mem _).mpr hline), rfl⟩

/-- What is printed is the count of the keys. -/
theorem Counts.isTally (h : hashtable.Counts keys) : IsTally (htForeach hashtable) keys := by
  obtain ⟨hnodup, hmem⟩ := (counts_iff_sums.mp h).lines
  exact ⟨hnodup, fun k n => by rw [hmem, keyTotal_ones, List.map_map]; simp⟩

/-- Inserting the groups of a query. -/
theorem Counts.insertGroups {γ : Type*} (key : γ → CString) {groups : List (γ × Nat)}
    (hpos : ∀ group ∈ groups, 0 < group.2) (h : hashtable.Counts keys) :
    (groups.foldl (fun results group => htInsert results (key group.1) group.2) hashtable).Counts
      (keys ++ (expand groups).map key) := by
  induction groups generalizing hashtable keys with
  | nil => simpa [expand] using h
  | cons group groups ih =>
      have hfirst := h.insert (key group.1) (hpos group List.mem_cons_self)
      have hrest := ih (fun g hg => hpos g (List.mem_cons_of_mem _ hg)) hfirst
      simpa [expand] using hrest

end Ht

/-! ## The statement -/

/-- A process name that, between two quotes, is its own SQL literal. -/
structure NameFilter where
  text : CString
  plain : 39 ∉ text

/-- What both queries are called with.  A pid that is not positive and a name
that is `NULL` do not filter. -/
structure QueryArgs where
  startTime : Int
  endTime : Int
  pid : Int
  name : Option NameFilter

/-- A condition of a `WHERE` clause. -/
inductive Condition where
  | timestampGe (bound : Int)
  | timestampLe (bound : Int)
  | pidEq (pid : Int)
  | processNameEq (name : CString)
  deriving DecidableEq, Repr

namespace Condition

/-- What `perform_historical_query` appends for it. -/
def text : Condition → CString
  | timestampGe bound => cstr " AND timestamp >= " ++ cstr (toString bound)
  | timestampLe bound => cstr " AND timestamp <= " ++ cstr (toString bound)
  | pidEq pid => cstr " AND pid = " ++ cstr (toString pid)
  | processNameEq name => cstr " AND process_name = '" ++ name ++ cstr "'"

/-- The row meets the condition. -/
def holds (row : CallStackRow) : Condition → Bool
  | timestampGe bound => bound ≤ row.timestamp
  | timestampLe bound => row.timestamp ≤ bound
  | pidEq pid => row.pid = pid
  | processNameEq name => row.processName = name

end Condition

namespace QueryArgs

/-- The conditions, in the order they are appended in. -/
def conditions (q : QueryArgs) : List Condition :=
  (if 0 < q.startTime then [.timestampGe (q.startTime * 1000000000)] else []) ++
    (if 0 < q.endTime then [.timestampLe (q.endTime * 1000000000)] else []) ++
    (if 0 < q.pid then [.pidEq q.pid] else []) ++
    q.name.toList.map fun name => .processNameEq name.text

/-- The products in the conditions are `long long`s. -/
def ProductsFit (q : QueryArgs) : Prop :=
  (0 < q.startTime → q.startTime * 1000000000 < 2 ^ 63) ∧
    (0 < q.endTime → q.endTime * 1000000000 < 2 ^ 63)

instance (q : QueryArgs) : Decidable q.ProductsFit := inferInstanceAs (Decidable (_ ∧ _))

/-- What `where_clauses` would be in a buffer without end. -/
def whereText (q : QueryArgs) : CString := cstr " WHERE 1=1 " ++ q.conditions.flatMap Condition.text

/-- `where_clauses` is the whole text.  Otherwise the quote that opens the name
has no partner, and `sqlite3_prepare_v2` fails. -/
def WhereFits (q : QueryArgs) : Prop := q.whereText.length < 512

instance (q : QueryArgs) : Decidable q.WhereFits := inferInstanceAs (Decidable (_ < _))

/-- The row is selected. -/
def selects (q : QueryArgs) (row : CallStackRow) : Bool := q.conditions.all (·.holds row)

/-- The rows of `SELECT pid, process_name, full_stack, COUNT(*) … GROUP BY …` -/
def historicalGroups (q : QueryArgs) (rows : List CallStackRow) :
    List ((Int × CString × CString) × Nat) :=
  groupCount ((rows.filter q.selects).map fun row => (row.pid, row.processName, row.fullStack))

end QueryArgs

/-- What a condition takes up that may be left out. -/
theorem length_optional_le {p : Prop} [Decidable p] {c : Condition} {k : Nat}
    (h : p → c.text.length ≤ k) : ((if p then [c] else []).flatMap Condition.text).length ≤ k := by
  split
  · next hp => simpa using h hp
  · exact Nat.zero_le k

/-- The conditions on times and a pid. -/
def fixedConditions (startTime endTime pid : Int) : List Condition :=
  (if 0 < startTime then [.timestampGe (startTime * 1000000000)] else []) ++
    (if 0 < endTime then [.timestampLe (endTime * 1000000000)] else []) ++
    if 0 < pid then [.pidEq pid] else []

theorem mem_fixedConditions {startTime endTime pid : Int} {c : Condition}
    (hc : c ∈ fixedConditions startTime endTime pid) :
    c = .timestampGe (startTime * 1000000000) ∧ 0 < startTime ∨
      c = .timestampLe (endTime * 1000000000) ∧ 0 < endTime ∨ c = .pidEq pid ∧ 0 < pid := by
  simp only [fixedConditions, List.mem_append] at hc
  grind

/-- What the conditions in front of that on the name take up. -/
theorem length_fixedConditions {startTime endTime pid : Int}
    (hstart : 0 < startTime → startTime * 1000000000 < 2 ^ 63)
    (hend : 0 < endTime → endTime * 1000000000 < 2 ^ 63) (hpid : pid < 2 ^ 31) :
    ((fixedConditions startTime endTime pid).flatMap Condition.text).length ≤ 95 := by
  have hlower := length_optional_le (c := .timestampGe (startTime * 1000000000)) (k := 37)
    fun h : 0 < startTime => by
      have := hstart h
      rw [Condition.text, List.length_append]
      exact Nat.add_le_add_left (length_cstr_toString_le (k := 19) (by decide) (by omega)
        (by omega)) 18
  have hupper := length_optional_le (c := .timestampLe (endTime * 1000000000)) (k := 37)
    fun h : 0 < endTime => by
      have := hend h
      rw [Condition.text, List.length_append]
      exact Nat.add_le_add_left (length_cstr_toString_le (k := 19) (by decide) (by omega)
        (by omega)) 18
  have hpid := length_optional_le (c := .pidEq pid) (k := 21) fun h : 0 < pid => by
    rw [Condition.text, List.length_append]
    exact Nat.add_le_add_left (length_cstr_toString_le (k := 10) (by decide) (by omega)
      (by omega)) 11
  rw [fixedConditions, List.flatMap_append, List.flatMap_append, List.length_append,
    List.length_append]
  omega

/-- The statement holds any name of up to 383 bytes. -/
theorem QueryArgs.whereFits_of_short {q : QueryArgs} (hfit : q.ProductsFit) (hpid : q.pid < 2 ^ 31)
    (hname : ∀ name ∈ q.name, name.text.length ≤ 383) : q.WhereFits := by
  have hfixed := length_fixedConditions hfit.1 hfit.2 hpid
  have hsplit : q.conditions = fixedConditions q.startTime q.endTime q.pid ++
      q.name.toList.map fun name => .processNameEq name.text := rfl
  have hname : ((q.name.toList.map fun name => Condition.processNameEq name.text).flatMap
      Condition.text).length ≤ 405 := by
    cases hq : q.name with
    | none => exact Nat.zero_le _
    | some name =>
        have hlen := hname name hq
        have hquote : (cstr " AND process_name = '").length = 21 := rfl
        have hclose : (cstr "'").length = 1 := rfl
        simp only [Option.toList_some, List.map_cons, List.map_nil, List.flatMap_singleton,
          Condition.text, List.length_append]
        omega
  have hhead : (cstr " WHERE 1=1 ").length = 11 := rfl
  rw [WhereFits, whereText, hsplit, List.length_append, List.flatMap_append, List.length_append]
  omega

/-! ## The loop over the hours -/

/-- The path of the file of an hour. -/
def hourDbPath (localtime : Int → Tm) (dbDir : CString) (currentHourTs : Int) : CString :=
  let tm := localtime currentHourTs
  (dbDir ++ cstr "/profiling_" ++ zeroPadded 4 (tm.year + 1900) ++
    cstr "-" ++ zeroPadded 2 (tm.mon + 1) ++ cstr "-" ++ zeroPadded 2 tm.mday ++
    cstr "_" ++ zeroPadded 2 tm.hour ++ cstr ".db").take 255

/-- The rows of a directory's files; `none` is a file that does not exist. -/
abbrev Directory := CString → Option (List CallStackRow)

/-- What is printed, and which files were opened. -/
structure QueryResult where
  opened : List CString
  lines : List (CString × Int)

section

variable (localtime : Int → Tm) (files : Directory) (dbDir : CString) (q : QueryArgs)

/-- The body of the loop, for an existing file. -/
def queryFile (rows : List CallStackRow) (aggregatedResults : Ht) : Ht :=
  if q.WhereFits then
    (q.historicalGroups rows).foldl
      (fun results group => htInsert results group.1.2.2 group.2) aggregatedResults
  else aggregatedResults

/-- The loop of `perform_historical_query`. -/
def hourLoop (currentHourTs : Int) (opened : List CString) (aggregatedResults : Ht) :
    Option (List CString × Ht) :=
  if currentHourTs ≤ q.endTime then
    let dbPath := hourDbPath localtime dbDir currentHourTs
    if currentHourTs + 3600 < 2 ^ 63 then
      match files dbPath with
      | none => hourLoop (currentHourTs + 3600) opened aggregatedResults
      | some rows =>
          if q.ProductsFit then
            hourLoop (currentHourTs + 3600) (opened ++ [dbPath])
              (queryFile q rows aggregatedResults)
          else none
    else none
  else some (opened, aggregatedResults)
termination_by (q.endTime + 1 - currentHourTs).toNat

/-- `perform_historical_query` -/
def performHistoricalQuery : Option QueryResult :=
  (hourLoop localtime files dbDir q (q.startTime - q.startTime.tmod 3600) [] fun _ => []).map
    fun (opened, aggregatedResults) => ⟨opened, htForeach aggregatedResults⟩

end

/-! ## What it comes to -/

/-- Every 3600 seconds from one time to another. -/
def hoursFrom (t e : Int) : List Int := if t ≤ e then t :: hoursFrom (t + 3600) e else []
termination_by (e + 1 - t).toNat

theorem mem_hoursFrom {t e u : Int} : u ∈ hoursFrom t e ↔ 3600 ∣ u - t ∧ t ≤ u ∧ u ≤ e := by
  fun_induction hoursFrom t e with
  | case1 t h ih =>
      rw [List.mem_cons, ih]
      omega
  | case2 t h =>
      simp only [List.not_mem_nil, false_iff]
      omega

theorem nodup_hoursFrom (t e : Int) : (hoursFrom t e).Nodup := by
  fun_induction hoursFrom t e with
  | case1 t h ih =>
      refine List.nodup_cons.mpr ⟨fun hmem => ?_, ih⟩
      have := (mem_hoursFrom.mp hmem).2.1
      omega
  | case2 t h => exact List.nodup_nil

/-- The hours that the loop visits. -/
def QueryArgs.hours (q : QueryArgs) : List Int :=
  hoursFrom (q.startTime - q.startTime.tmod 3600) q.endTime

/-- Whole hours, counted in UTC, from that of the start on. -/
theorem QueryArgs.mem_hours {q : QueryArgs} (hstart : 0 ≤ q.startTime) {u : Int} :
    u ∈ q.hours ↔ 3600 ∣ u ∧ q.startTime - q.startTime % 3600 ≤ u ∧ u ≤ q.endTime := by
  rw [hours, mem_hoursFrom, Int.tmod_eq_emod_of_nonneg hstart]
  omega

/-- The hour of a second of the range is visited, also if the range starts before 1970. -/
theorem QueryArgs.hour_mem_hours {q : QueryArgs} {t : Int} (hpos : 0 ≤ t) (hlo : q.startTime ≤ t)
    (hhi : t ≤ q.endTime) : t - t % 3600 ∈ q.hours := by
  rcases Int.le_total 0 q.startTime with hstart | hstart
  · rw [mem_hours hstart]
    omega
  · -- C rounds a negative quotient towards zero, so the first hour is not after 1970
    have htmod : q.startTime.tmod 3600 = -(-q.startTime % 3600) := by
      rw [← Int.tmod_eq_emod_of_nonneg (by omega), Int.neg_tmod, Int.neg_neg]
    rw [hours, mem_hoursFrom, htmod]
    omega

theorem QueryArgs.nodup_hours (q : QueryArgs) : q.hours.Nodup := nodup_hoursFrom _ _

section Spec

variable {localtime : Int → Tm} {files : Directory} {dbDir : CString} {q : QueryArgs}

/-- Nothing overflows on the way through these hours. -/
structure NoOverflow (localtime : Int → Tm) (files : Directory) (dbDir : CString) (q : QueryArgs)
    (hours : List Int) : Prop where
  next : ∀ u ∈ hours, u + 3600 < 2 ^ 63
  products : q.ProductsFit ∨ ∀ u ∈ hours, files (hourDbPath localtime dbDir u) = none

/-- The files of these hours that exist, with repetitions. -/
def openedFiles (localtime : Int → Tm) (files : Directory) (dbDir : CString) (hours : List Int) :
    List CString :=
  (hours.map (hourDbPath localtime dbDir)).filter fun path => (files path).isSome

/-- The stacks that the statement counts in a file. -/
def QueryArgs.stacksOf (q : QueryArgs) (rows : List CallStackRow) : List CString :=
  if q.WhereFits then (rows.filter q.selects).map (·.fullStack) else []

/-- The stacks that are counted in the files of these hours. -/
def countedStacks (localtime : Int → Tm) (files : Directory) (dbDir : CString) (q : QueryArgs)
    (hours : List Int) : List CString :=
  hours.flatMap fun u => q.stacksOf ((files (hourDbPath localtime dbDir u)).getD [])

theorem Ht.Counts.queryFile {hashtable : Ht} {keys : List CString} (h : hashtable.Counts keys)
    (rows : List CallStackRow) :
    (queryFile q rows hashtable).Counts (keys ++ q.stacksOf rows) := by
  unfold Profiling.queryFile QueryArgs.stacksOf
  split
  · have hgroups := expand_groupCount
      ((rows.filter q.selects).map fun row => (row.pid, row.processName, row.fullStack))
    refine (h.insertGroups (fun group : Int × CString × CString => group.2.2)
      fun _ => pos_of_mem_groupCount).perm ?_
    refine ((hgroups.map _).trans (.of_eq ?_)).append_left keys
    rw [List.map_map]
    rfl
  · simpa using h

theorem stacksOf_nil (q : QueryArgs) : q.stacksOf [] = [] := by simp [QueryArgs.stacksOf]

/-- A statement that is cut counts nothing. -/
theorem stacksOf_of_cut (hcut : ¬q.WhereFits) (rows : List CallStackRow) : q.stacksOf rows = [] :=
  if_neg hcut

theorem countedStacks_of_cut (hcut : ¬q.WhereFits) (hours : List Int) :
    countedStacks localtime files dbDir q hours = [] :=
  List.flatMap_eq_nil_iff.mpr fun _ _ => stacksOf_of_cut hcut _

theorem noOverflow_cons {u : Int} {us : List Int} :
    NoOverflow localtime files dbDir q (u :: us) ↔
      u + 3600 < 2 ^ 63 ∧ (files (hourDbPath localtime dbDir u) = none ∨ q.ProductsFit) ∧
        NoOverflow localtime files dbDir q us := by
  constructor
  · rintro ⟨hnext, hproducts⟩
    obtain ⟨hu, hus⟩ := List.forall_mem_cons.mp hnext
    refine ⟨hu, ?_, hus, hproducts.imp_right fun h => (List.forall_mem_cons.mp h).2⟩
    rcases hproducts with hfits | hnone
    · exact .inr hfits
    · exact .inl (hnone u List.mem_cons_self)
  · rintro ⟨hu, hproducts, hus⟩
    refine ⟨List.forall_mem_cons.mpr ⟨hu, hus.next⟩, ?_⟩
    rcases hproducts with hnone | hfits
    · exact hus.products.imp_right fun h => List.forall_mem_cons.mpr ⟨hnone, h⟩
    · exact .inl hfits

/-- An hour at which nothing overflows makes no difference. -/
theorem noOverflow_cons_iff {u : Int} {us : List Int} (hnext : u + 3600 < 2 ^ 63)
    (hproducts : files (hourDbPath localtime dbDir u) = none ∨ q.ProductsFit) :
    NoOverflow localtime files dbDir q (u :: us) ↔ NoOverflow localtime files dbDir q us := by
  rw [noOverflow_cons]
  exact ⟨fun h => h.2.2, fun h => ⟨hnext, hproducts, h⟩⟩

theorem openedFiles_cons (u : Int) (us : List Int) :
    openedFiles localtime files dbDir (u :: us) =
      (if (files (hourDbPath localtime dbDir u)).isSome then [hourDbPath localtime dbDir u] else [])
        ++ openedFiles localtime files dbDir us := by
  rw [openedFiles, List.map_cons, List.filter_cons]
  split <;> rfl

theorem countedStacks_cons (u : Int) (us : List Int) :
    countedStacks localtime files dbDir q (u :: us) =
      q.stacksOf ((files (hourDbPath localtime dbDir u)).getD []) ++
        countedStacks localtime files dbDir q us := List.flatMap_cons

/-- Files that do not exist have no stacks. -/
theorem countedStacks_eq_opened (hours : List Int) :
    countedStacks localtime files dbDir q hours =
      (openedFiles localtime files dbDir hours).flatMap fun path =>
        q.stacksOf ((files path).getD []) := by
  induction hours with
  | nil => rfl
  | cons u us ih =>
      rw [countedStacks_cons, openedFiles_cons, ih]
      cases hfile : files (hourDbPath localtime dbDir u) with
      | none => simp [stacksOf_nil]
      | some rows => simp [hfile]

theorem mem_openedFiles {hours : List Int} {path : CString} :
    path ∈ openedFiles localtime files dbDir hours ↔
      (∃ u ∈ hours, hourDbPath localtime dbDir u = path) ∧ (files path).isSome := by
  rw [openedFiles, List.mem_filter, List.mem_map]

/-- No file is opened twice if and only if no two hours have one file. -/
theorem nodup_openedFiles {hours : List Int} (hhours : hours.Nodup) :
    (openedFiles localtime files dbDir hours).Nodup ↔
      ∀ u ∈ hours, ∀ v ∈ hours, hourDbPath localtime dbDir u = hourDbPath localtime dbDir v →
        (files (hourDbPath localtime dbDir u)).isSome → u = v := by
  rw [openedFiles, List.filter_map, List.nodup_map_iff_inj_on (hhours.filter _)]
  simp only [List.mem_filter, Function.comp_apply]
  constructor
  · intro h u hu v hv heq hsome
    exact h u ⟨hu, hsome⟩ v ⟨hv, heq ▸ hsome⟩ heq
  · intro h u hu v hv heq
    exact h u hu.1 v hv.1 heq hu.2

/-- The loop opens the files of its hours and counts the stacks in them, unless
something overflows. -/
theorem hourLoop_spec {hashtable : Ht} {keys : List CString} (hcounts : hashtable.Counts keys)
    (t : Int) (opened : List CString) :
    (NoOverflow localtime files dbDir q (hoursFrom t q.endTime) →
      ∃ hashtable', hourLoop localtime files dbDir q t opened hashtable =
          some (opened ++ openedFiles localtime files dbDir (hoursFrom t q.endTime), hashtable') ∧
        hashtable'.Counts
          (keys ++ countedStacks localtime files dbDir q (hoursFrom t q.endTime))) ∧
    (¬NoOverflow localtime files dbDir q (hoursFrom t q.endTime) →
      hourLoop localtime files dbDir q t opened hashtable = none) := by
  fun_induction hoursFrom t q.endTime generalizing opened hashtable keys with
  | case1 t hle ih =>
      rw [hourLoop, if_pos hle, openedFiles_cons, countedStacks_cons]
      dsimp only
      by_cases hnext : t + 3600 < 2 ^ 63
      · rw [if_pos hnext]
        cases hfile : files (hourDbPath localtime dbDir t) with
        | none =>
            rw [noOverflow_cons_iff hnext (.inl hfile)]
            simpa [stacksOf_nil] using ih hcounts opened
        | some rows =>
            dsimp only
            by_cases hfits : q.ProductsFit
            · rw [if_pos hfits, noOverflow_cons_iff hnext (.inr hfits)]
              simpa using ih (hcounts.queryFile (q := q) rows)
                (opened ++ [hourDbPath localtime dbDir t])
            · have hno : ¬NoOverflow localtime files dbDir q
                  (t :: hoursFrom (t + 3600) q.endTime) := by
                rw [noOverflow_cons, hfile]
                simp [hfits]
              rw [if_neg hfits]
              exact ⟨fun h => absurd h hno, fun _ => rfl⟩
      · rw [if_neg hnext]
        exact ⟨fun h => absurd (noOverflow_cons.mp h).1 hnext, fun _ => rfl⟩
  | case2 t hgt =>
      rw [hourLoop, if_neg hgt]
      refine ⟨fun _ => ⟨hashtable, ?_, ?_⟩, fun h => absurd ?_ h⟩
      · simp [openedFiles]
      · simpa [countedStacks] using hcounts
      · exact ⟨by simp, .inr (by simp)⟩

/-- **What the historical query comes to**: the existing files of its hours are
opened, and what is printed is the count of the selected stacks in them. -/
theorem performHistoricalQuery_spec (localtime : Int → Tm) (files : Directory) (dbDir : CString)
    (q : QueryArgs) :
    (NoOverflow localtime files dbDir q q.hours →
      ∃ result, performHistoricalQuery localtime files dbDir q = some result ∧
        result.opened = openedFiles localtime files dbDir q.hours ∧
        IsTally result.lines (countedStacks localtime files dbDir q q.hours)) ∧
    (¬NoOverflow localtime files dbDir q q.hours →
      performHistoricalQuery localtime files dbDir q = none) := by
  obtain ⟨hdone, hundefined⟩ := @hourLoop_spec localtime files dbDir q _ _ Ht.counts_empty
    (q.startTime - q.startTime.tmod 3600) []
  constructor
  · intro h
    obtain ⟨hashtable, hloop, hcounts⟩ := hdone h
    rw [List.nil_append] at hloop hcounts
    have htally := hcounts.isTally
    refine ⟨⟨openedFiles localtime files dbDir q.hours, htForeach hashtable⟩, ?_, rfl, ?_⟩
    · rw [performHistoricalQuery, hloop, Option.map_some, QueryArgs.hours]
    · dsimp only
      exact htally
  · intro h
    rw [performHistoricalQuery, hundefined h, Option.map_none]

end Spec

end Profiling
