import Profiling.Query

/-!
# Profiling.Query.Sums

The hash table of `config/query_tool.c` with the `int`s that it has in C.

`htInsert` adds numbers without end up.  The table of the program adds `int`s
up, which wrap around, so it is that of `htInsert` cut down to 32 bits
(`htInsertInt_narrow`).  Where the sum of a key is an `int`, nothing of it is
lost (`htForeachInt_eq`).  An addition that overflows on the way to such a sum
takes values of both signs; counts have one (`add_inRange`).
-/

namespace Profiling

/-- `ht_entry_t` -/
structure IntEntry where
  key : CString
  value : Int32
  deriving DecidableEq, Repr

/-- `ht_t`: the chain of each slot. -/
abbrev IntTable := Nat → List IntEntry

/-- The search of `ht_insert`: the value goes to the entry of the key, if the
chain has one. -/
def addToIntEntry (key : CString) (value : Int32) : List IntEntry → Option (List IntEntry)
  | [] => none
  | entry :: chain =>
      if entry.key = key then some ({ entry with value := entry.value + value } :: chain)
      else (addToIntEntry key value chain).map (entry :: ·)

/-- `ht_insert` -/
def htInsertInt (hashtable : IntTable) (key : CString) (value : Int32) : IntTable :=
  let slot := htHash key
  match addToIntEntry key value (hashtable slot) with
  | some chain => Function.update hashtable slot chain
  | none => Function.update hashtable slot (⟨key, value⟩ :: hashtable slot)

/-- `ht_foreach`: the key and the value of each line it prints. -/
def htForeachInt (hashtable : IntTable) : List (CString × Int32) :=
  (Buckets.entries hashTableSize hashtable).map fun entry => (entry.key, entry.value)

/-- Calls of `ht_insert`, one after the other, on the table of `ht_create`. -/
def htInsertAll (inserts : List (CString × Int32)) : IntTable :=
  inserts.foldl (fun hashtable insert => htInsertInt hashtable insert.1 insert.2) fun _ => []

/-- The values of a key, added up. -/
def intTotal (inserts : List (CString × Int32)) (key : CString) : Int :=
  ((inserts.filter fun insert => insert.1 = key).map fun insert => insert.2.toInt).sum

/-- The number is an `int`. -/
def IsInt (n : Int) : Prop := -2 ^ 31 ≤ n ∧ n < 2 ^ 31

instance (n : Int) : Decidable (IsInt n) := inferInstanceAs (Decidable (_ ∧ _))

/-! ## The table without end, cut down -/

/-- An entry, cut down to an `int`. -/
def HtEntry.narrow (entry : HtEntry) : IntEntry := ⟨entry.key, Int32.ofInt entry.value⟩

/-- A table, cut down to `int`s. -/
def Ht.narrow (hashtable : Ht) : IntTable := fun i => (hashtable i).map HtEntry.narrow

/-- The insertions with numbers in place of `int`s. -/
def widened (inserts : List (CString × Int32)) : List (CString × Int) :=
  inserts.map fun insert => (insert.1, insert.2.toInt)

section

variable {inserts : List (CString × Int32)} {hashtable : Ht}

theorem addToIntEntry_narrow (key : CString) (value : Int32) (chain : List HtEntry) :
    addToIntEntry key value (chain.map HtEntry.narrow) =
      (addToEntry key value.toInt chain).map (List.map HtEntry.narrow) := by
  induction chain with
  | nil => rfl
  | cons entry chain ih =>
      by_cases hkey : entry.key = key
      · simp [addToIntEntry, addToEntry, HtEntry.narrow, hkey, Int32.ofInt_add]
      · simp [addToIntEntry, addToEntry, HtEntry.narrow, hkey, ih, Function.comp_def]

theorem narrow_update (slot : Nat) (chain : List HtEntry) :
    Ht.narrow (Function.update hashtable slot chain) =
      Function.update hashtable.narrow slot (chain.map HtEntry.narrow) := by
  funext i
  by_cases hi : i = slot
  · simp [Ht.narrow, hi]
  · simp [Ht.narrow, hi]

/-- An insertion with `int`s is one with numbers, cut down. -/
theorem htInsertInt_narrow (hashtable : Ht) (key : CString) (value : Int32) :
    htInsertInt hashtable.narrow key value = (htInsert hashtable key value.toInt).narrow := by
  have hchain := addToIntEntry_narrow key value (hashtable (htHash key))
  unfold htInsertInt htInsert
  dsimp only
  rw [Ht.narrow, hchain]
  cases addToEntry key value.toInt (hashtable (htHash key)) with
  | none => simp [narrow_update, HtEntry.narrow]
  | some chain => simp [narrow_update]

/-- The table of the insertions is the one without end, cut down. -/
theorem htInsertAll_narrow (inserts : List (CString × Int32)) :
    ∃ hashtable : Ht, hashtable.Sums (widened inserts) ∧
      htInsertAll inserts = hashtable.narrow := by
  induction inserts using List.reverseRecOn with
  | nil => exact ⟨fun _ => [], ⟨Buckets.placed_empty, by simp [Buckets.Mem, widened]⟩, rfl⟩
  | append_singleton inserts insert ih =>
      obtain ⟨hashtable, hsums, htable⟩ := ih
      refine ⟨htInsert hashtable insert.1 insert.2.toInt, ?_, ?_⟩
      · simpa [widened] using hsums.insert insert.1 insert.2.toInt
      · rw [htInsertAll, List.foldl_concat, ← htInsertInt_narrow, ← htable, htInsertAll]

theorem htForeachInt_narrow (hashtable : Ht) :
    htForeachInt hashtable.narrow =
      (htForeach hashtable).map fun line => (line.1, Int32.ofInt line.2) := by
  unfold htForeachInt Ht.narrow
  rw [Buckets.entries_map, htForeach, List.map_map, List.map_map]
  rfl

theorem keyTotal_widened (inserts : List (CString × Int32)) (key : CString) :
    keyTotal (widened inserts) key = intTotal inserts key := by
  rw [keyTotal, widened, List.filter_map, List.map_map, intTotal]
  rfl

theorem keys_widened (inserts : List (CString × Int32)) :
    (widened inserts).map Prod.fst = inserts.map Prod.fst := by
  rw [widened, List.map_map]
  rfl

/-- Each key that is inserted is printed once, with its sum cut down to an `int`. -/
theorem htForeachInt_eq (inserts : List (CString × Int32)) :
    ((htForeachInt (htInsertAll inserts)).map Prod.fst).Nodup ∧
      ∀ key value, (key, value) ∈ htForeachInt (htInsertAll inserts) ↔
        key ∈ inserts.map Prod.fst ∧ value = Int32.ofInt (intTotal inserts key) := by
  obtain ⟨hashtable, hsums, htable⟩ := htInsertAll_narrow inserts
  obtain ⟨hnodup, hmem⟩ := hsums.lines
  rw [htable, htForeachInt_narrow]
  refine ⟨by simpa [Function.comp_def] using hnodup, fun key value => ?_⟩
  simp only [List.mem_map, Prod.exists, Prod.mk.injEq, hmem, keys_widened, keyTotal_widened]
  constructor
  · rintro ⟨key, total, ⟨hkey, rfl⟩, rfl, rfl⟩
    exact ⟨hkey, rfl⟩
  · rintro ⟨hkey, rfl⟩
    exact ⟨key, _, ⟨hkey, rfl⟩, rfl, rfl⟩

/-- Totals do not depend on the order. -/
theorem intTotal_perm {inserts' : List (CString × Int32)} (hperm : inserts'.Perm inserts)
    (key : CString) : intTotal inserts' key = intTotal inserts key :=
  ((hperm.filter _).map _).sum_eq

/-- A total that is an `int` is not changed by cutting it down. -/
theorem eq_ofInt_iff {total : Int} (hfit : IsInt total) (value : Int32) :
    value = Int32.ofInt total ↔ value.toInt = total := by
  have hround : (Int32.ofInt total).toInt = total :=
    Int32.toInt_ofInt_of_le hfit.1 hfit.2
  constructor
  · rintro rfl
    exact hround
  · intro heq
    rw [← heq, Int32.ofInt_toInt]

/-- **What is printed.**  Each key that was inserted is printed once, with the
sum of its values, and nothing else is; the order of the insertions makes no
difference. -/
theorem htForeach_htInsertAll (inserts : List (CString × Int32))
    (hfit : ∀ key ∈ inserts.map Prod.fst, IsInt (intTotal inserts key)) :
    let lines := htForeachInt (htInsertAll inserts)
    (lines.map Prod.fst).Nodup ∧
      (∀ key, key ∈ lines.map Prod.fst ↔ key ∈ inserts.map Prod.fst) ∧
      (∀ key value, (key, value) ∈ lines → value.toInt = intTotal inserts key) ∧
      ∀ inserts', inserts'.Perm inserts →
        ∀ line, line ∈ htForeachInt (htInsertAll inserts') ↔ line ∈ lines := by
  obtain ⟨hnodup, hmem⟩ := htForeachInt_eq inserts
  refine ⟨hnodup, fun key => ?_, fun key value hline => ?_, fun inserts' hperm line => ?_⟩
  · simp [List.mem_map, hmem]
  · obtain ⟨hkey, hvalue⟩ := (hmem key value).mp hline
    exact (eq_ofInt_iff (hfit key hkey) value).mp hvalue
  · rw [(htForeachInt_eq inserts').2 line.1 line.2, hmem line.1 line.2,
      (hperm.map Prod.fst).mem_iff, intTotal_perm hperm]

/-- Two keys in one chain, with bytes above 127, and values of both signs. -/
theorem htForeach_htInsertAll_collision :
    let inserts := [(cstr "main", 2), ([97, 200], -3), ([96, 233], 2147483640), ([97, 200], 4),
      ([96, 233], 7)]
    let lines := htForeachInt (htInsertAll inserts)
    (lines.map Prod.fst).Nodup ∧
      (∀ key, key ∈ lines.map Prod.fst ↔ key ∈ inserts.map Prod.fst) ∧
      (∀ key value, (key, value) ∈ lines → value.toInt = intTotal inserts key) ∧
      ∀ inserts', inserts'.Perm inserts →
        ∀ line, line ∈ htForeachInt (htInsertAll inserts') ↔ line ∈ lines :=
  htForeach_htInsertAll _ (by decide +kernel)

/-! ## Overflow on the way -/

theorem intTotal_append (inserts inserts' : List (CString × Int32)) (key : CString) :
    intTotal (inserts ++ inserts') key = intTotal inserts key + intTotal inserts' key := by
  simp [intTotal]

theorem intTotal_nonneg (hcounts : ∀ insert ∈ inserts, 0 ≤ insert.2.toInt) (key : CString) :
    0 ≤ intTotal inserts key := by
  refine List.sum_nonneg fun value hvalue => ?_
  obtain ⟨insert, hinsert, rfl⟩ := List.mem_map.mp hvalue
  exact hcounts insert (List.mem_filter.mp hinsert).1

/-- C leaves the overflow of a sum undefined.  On the way to a total that is an
`int`, no sum of counts overflows. -/
theorem add_inRange {before after : List (CString × Int32)} {key : CString} {value : Int32}
    (hcounts : ∀ insert ∈ before ++ (key, value) :: after, 0 ≤ insert.2.toInt)
    (hfit : IsInt (intTotal (before ++ (key, value) :: after) key)) {sum : Int32}
    (hsum : (key, sum) ∈ htForeachInt (htInsertAll before)) : IsInt (sum.toInt + value.toInt) := by
  simp only [List.forall_mem_append, List.forall_mem_cons] at hcounts
  obtain ⟨hbefore, hvalue, hafter⟩ := hcounts
  have hone : intTotal [(key, value)] key = value.toInt := by simp [intTotal]
  have hlast := intTotal_nonneg hafter key
  have hfirst := intTotal_nonneg hbefore key
  rw [← List.singleton_append, intTotal_append, intTotal_append, hone] at hfit
  obtain ⟨-, hupper⟩ := hfit
  have hpart : IsInt (intTotal before key) := ⟨by omega, by omega⟩
  have hsum := (eq_ofInt_iff hpart sum).mp (((htForeachInt_eq before).2 key sum).mp hsum).2
  exact ⟨by omega, by omega⟩

end

end Profiling
