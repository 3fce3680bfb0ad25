import Profiling.Query

/-!
# Profiling.Query.Hours

The historical query over the files that `ensure_db_handle` names.

The writer names the file of a row by the local hour of its timestamp.  The
query counts hours in UTC, from that of its start on, and names each by its
local time.  The two agree on every range just if each UTC hour is one local
hour and no local hour occurs twice (`historical_query_exact_iff_zone`);
`historical_query_exact_iff` says when they do on one.
-/

namespace Profiling

/-- The files that hold the rows of some entries, and some without rows. -/
def storedFiles (localtime : Int → Tm) (dbDir : CString) (entries : List DbEntry)
    (created : CString → Bool) : Directory := fun path =>
  let rows := rowsIn localtime dbDir path entries
  if created path ∨ rows ≠ [] then some rows else none

namespace QueryArgs

variable (q : QueryArgs) (row : CallStackRow)

/-- The timestamp is in the range. -/
def InRange : Prop :=
  q.startTime * 1000000000 ≤ row.timestamp ∧ row.timestamp ≤ q.endTime * 1000000000

/-- The row passes the filters. -/
def Matches : Prop :=
  (0 < q.pid → row.pid = q.pid) ∧ ∀ name ∈ q.name, row.processName = name.text

instance : Decidable (q.InRange row) := inferInstanceAs (Decidable (_ ∧ _))

instance : Decidable (q.Matches row) := inferInstanceAs (Decidable (_ ∧ _))

/-- A bound that is 0 is left out of the statement. -/
theorem selects_iff :
    q.selects row = true ↔ (0 < q.startTime → q.startTime * 1000000000 ≤ row.timestamp) ∧
      (0 < q.endTime → row.timestamp ≤ q.endTime * 1000000000) ∧ q.Matches row := by
  have hname : ((q.name.toList.map fun name => Condition.processNameEq name.text).all
      (·.holds row)) = true ↔ ∀ name ∈ q.name, row.processName = name.text := by
    simp [Condition.holds]
  rw [selects, conditions, List.all_append, List.all_append, List.all_append, Bool.and_eq_true,
    Bool.and_eq_true, Bool.and_eq_true, hname, Matches]
  split <;> split <;> split <;> simp [*, Condition.holds, and_assoc]

/-- Such a row is selected. -/
theorem selects_of_inRange {q : QueryArgs} {row : CallStackRow} (hrange : q.InRange row)
    (hmatches : q.Matches row) : q.selects row = true :=
  (q.selects_iff row).mpr ⟨fun _ => hrange.1, fun _ => hrange.2, hmatches⟩

end QueryArgs

section

variable (localtime : Int → Tm) (dbDir : CString) (entries : List DbEntry)
  (created : CString → Bool) (q : QueryArgs)

/-- Every file with a row in the range is opened, none is opened twice, and each
such row that passes the filters is counted once. -/
structure QueryExact (result : QueryResult) : Prop where
  opens : ∀ entry ∈ entries, q.InRange entry.row →
    dbPath localtime dbDir entry.timestampNs ∈ result.opened
  once : result.opened.Nodup
  counts : IsTally result.lines
    ((entries.filter fun entry => q.InRange entry.row ∧ q.Matches entry.row).map (·.row.fullStack))

/-- The query on these files is exact. -/
def HistoricalExact : Prop :=
  ∃ result,
    performHistoricalQuery localtime (storedFiles localtime dbDir entries created) dbDir q =
      some result ∧
    QueryExact localtime dbDir entries q result

/-- The hours of the query are those of the files. -/
structure HoursNameFiles : Prop where
  noOverflow : NoOverflow localtime (storedFiles localtime dbDir entries created) dbDir q q.hours
  /-- the local hour of a row in the range is that of an hour of the query -/
  named : ∀ entry ∈ entries, q.InRange entry.row →
    ∃ u ∈ q.hours, hourDbPath localtime dbDir u = dbPath localtime dbDir entry.timestampNs
  /-- no two hours of the query have one file -/
  distinct : ∀ u ∈ q.hours, ∀ v ∈ q.hours,
    hourDbPath localtime dbDir u = hourDbPath localtime dbDir v →
    (storedFiles localtime dbDir entries created (hourDbPath localtime dbDir u)).isSome → u = v
  /-- the statement is not cut, or it would select nothing -/
  fits : q.WhereFits ∨ ∀ entry ∈ entries, q.InRange entry.row → ¬q.Matches entry.row
  /-- a bound that is left out selects nothing more -/
  bounded : q.WhereFits → ∀ entry ∈ entries, q.selects entry.row = true →
    (∃ u ∈ q.hours, hourDbPath localtime dbDir u = dbPath localtime dbDir entry.timestampNs) →
    q.InRange entry.row

end

section

variable {localtime : Int → Tm} {dbDir : CString} {entries : List DbEntry}
  {created : CString → Bool} {q : QueryArgs}

theorem storedFiles_getD (path : CString) :
    (storedFiles localtime dbDir entries created path).getD [] =
      rowsIn localtime dbDir path entries := by
  unfold storedFiles
  dsimp only
  split
  · rfl
  · next h =>
    simp only [not_or, not_not] at h
    exact h.2.symm

/-- The file of a stored entry exists. -/
theorem isSome_storedFiles {entry : DbEntry} (hentry : entry ∈ entries) :
    (storedFiles localtime dbDir entries created
      (dbPath localtime dbDir entry.timestampNs)).isSome = true := by
  have hrows : rowsIn localtime dbDir (dbPath localtime dbDir entry.timestampNs) entries ≠ [] := by
    refine List.ne_nil_of_mem (List.mem_map_of_mem (List.mem_filter.mpr ⟨hentry, ?_⟩))
    simp
  simp [storedFiles, hrows]

/-- The stacks that are counted, from the entries. -/
theorem countedStacks_stored (hfits : q.WhereFits)
    (honce : (openedFiles localtime (storedFiles localtime dbDir entries created) dbDir
      q.hours).Nodup) :
    (countedStacks localtime (storedFiles localtime dbDir entries created) dbDir q q.hours).Perm
      ((entries.filter fun entry => q.selects entry.row = true ∧
        dbPath localtime dbDir entry.timestampNs ∈ openedFiles localtime
          (storedFiles localtime dbDir entries created) dbDir q.hours).map (·.row.fullStack)) := by
  have hfile : ∀ path, q.stacksOf ((storedFiles localtime dbDir entries created path).getD []) =
      (((entries.filter fun entry => q.selects entry.row).filter fun entry =>
        dbPath localtime dbDir entry.timestampNs = path).map (·.row.fullStack)) := by
    intro path
    rw [storedFiles_getD, QueryArgs.stacksOf, if_pos hfits, rowsIn, List.filter_map, List.map_map,
      List.filter_filter, List.filter_filter]
    refine congrArg (List.map _) (List.filter_congr fun entry _ => ?_)
    exact Bool.and_comm _ _
  rw [countedStacks_eq_opened]
  simp only [hfile]
  rw [← List.map_flatMap]
  refine ((flatMap_filter_perm _ honce _).trans (.of_eq ?_)).map _
  rw [List.filter_filter]
  exact List.filter_congr fun entry _ => Bool.eq_iff_iff.mpr (by simp [and_comm])

/-- The file of a stored entry is opened under the name of one of the hours. -/
theorem mem_openedFiles_stored {entry : DbEntry} (hentry : entry ∈ entries) {hours : List Int} :
    dbPath localtime dbDir entry.timestampNs ∈
        openedFiles localtime (storedFiles localtime dbDir entries created) dbDir hours ↔
      ∃ u ∈ hours, hourDbPath localtime dbDir u = dbPath localtime dbDir entry.timestampNs := by
  rw [mem_openedFiles]
  exact and_iff_left (isSome_storedFiles hentry)

/-- An exact query visits the hours of the files. -/
theorem HistoricalExact.hoursNameFiles (h : HistoricalExact localtime dbDir entries created q) :
    HoursNameFiles localtime dbDir entries created q := by
  obtain ⟨result, hresult, hexact⟩ := h
  obtain ⟨hdone, hundefined⟩ :=
    performHistoricalQuery_spec localtime (storedFiles localtime dbDir entries created) dbDir q
  have hno : NoOverflow localtime (storedFiles localtime dbDir entries created) dbDir q
      q.hours := by
    by_contra hover
    rw [hundefined hover] at hresult
    contradiction
  obtain ⟨result', hresult', heq, htally⟩ := hdone hno
  obtain rfl := Option.some.inj (hresult.symm.trans hresult')
  have honce := heq ▸ hexact.once
  have hopens := fun entry hentry hrange => heq ▸ hexact.opens entry hentry hrange
  have hperm := (htally.same_iff hexact.counts).mp fun _ => Iff.rfl
  refine ⟨hno, fun entry hentry hrange =>
      (mem_openedFiles_stored hentry).mp (hopens entry hentry hrange),
    (nodup_openedFiles q.nodup_hours).mp honce, ?_, fun hfits entry hentry hselects hhour => ?_⟩
  · -- a statement that is cut selects nothing, so nothing was to be counted
    by_cases hfits : q.WhereFits
    · exact .inl hfits
    · refine .inr fun entry hentry hrange hmatches => ?_
      rw [countedStacks_of_cut hfits] at hperm
      have hempty := List.map_eq_nil_iff.mp hperm.nil_eq.symm
      have hnone := List.filter_eq_nil_iff.mp hempty entry hentry
      exact hnone (decide_eq_true ⟨hrange, hmatches⟩)
  · -- as many entries are counted as are in the range, and all of these are counted
    have hlen := ((countedStacks_stored hfits honce).symm.trans hperm).length_eq
    rw [List.length_map, List.length_map] at hlen
    have hopened : dbPath localtime dbDir entry.timestampNs ∈
        openedFiles localtime (storedFiles localtime dbDir entries created) dbDir q.hours :=
      (mem_openedFiles_stored hentry).mpr hhour
    have hboth := of_length_filter_eq (fun e he hboth => by
      obtain ⟨hrange, hmatches⟩ := of_decide_eq_true hboth
      exact decide_eq_true ⟨QueryArgs.selects_of_inRange hrange hmatches, hopens e he hrange⟩)
      hlen hentry (decide_eq_true ⟨hselects, hopened⟩)
    exact (of_decide_eq_true hboth).1

/-- A query that visits the hours of the files is exact. -/
theorem HoursNameFiles.exact (h : HoursNameFiles localtime dbDir entries created q) :
    HistoricalExact localtime dbDir entries created q := by
  obtain ⟨result, hresult, heq, htally⟩ :=
    (performHistoricalQuery_spec localtime (storedFiles localtime dbDir entries created) dbDir
      q).1 h.noOverflow
  have honce := (nodup_openedFiles q.nodup_hours).mpr h.distinct
  have hopens : ∀ entry ∈ entries, q.InRange entry.row → dbPath localtime dbDir entry.timestampNs ∈
      openedFiles localtime (storedFiles localtime dbDir entries created) dbDir q.hours :=
    fun entry hentry hrange => (mem_openedFiles_stored hentry).mpr (h.named entry hentry hrange)
  refine ⟨result, hresult, fun entry hentry hrange => heq ▸ hopens entry hentry hrange,
    heq ▸ honce, htally.perm ?_⟩
  by_cases hfits : q.WhereFits
  · refine (countedStacks_stored hfits honce).trans (.of_eq (congrArg (List.map _) ?_))
    refine List.filter_congr fun entry hentry => decide_eq_decide.mpr ?_
    constructor
    · intro ⟨hselects, hopen⟩
      exact ⟨h.bounded hfits entry hentry hselects ((mem_openedFiles_stored hentry).mp hopen),
        ((q.selects_iff _).mp hselects).2.2⟩
    · intro ⟨hrange, hmatches⟩
      exact ⟨QueryArgs.selects_of_inRange hrange hmatches, hopens entry hentry hrange⟩
  · have hnone := h.fits.resolve_left hfits
    have hempty : (entries.filter fun entry => q.InRange entry.row ∧ q.Matches entry.row) = [] :=
      List.filter_eq_nil_iff.mpr fun entry hentry hboth => by
        obtain ⟨hrange, hmatches⟩ := of_decide_eq_true hboth
        exact hnone entry hentry hrange hmatches
    rw [countedStacks_of_cut hfits, hempty]
    exact List.Perm.refl _

theorem timestamp_row (entry : DbEntry) :
    entry.row.timestamp = (entry.timestampNs.toNat : Int).bmod (2 ^ 64) := by
  unfold DbEntry.row
  split
  dsimp only

/-- A row in the range is one of a second of the range. -/
theorem second_of_inRange (hstart : 0 ≤ q.startTime) {entry : DbEntry}
    (hrange : q.InRange entry.row) :
    q.startTime ≤ (entry.timestampNs.toNat / 1000000000 : Nat) ∧
      ((entry.timestampNs.toNat / 1000000000 : Nat) : Int) ≤ q.endTime ∧
      ((entry.timestampNs.toNat / 1000000000 : Nat) : Int) * 1000000000 < 2 ^ 63 := by
  obtain ⟨hlo, hhi⟩ := hrange
  have hlt := entry.timestampNs.toNat_lt
  have hbmod := Int.bmod_lt (x := (entry.timestampNs.toNat : Int)) (m := 2 ^ 64) (by decide)
  rw [timestamp_row] at hlo hhi
  have heq : (entry.timestampNs.toNat : Int).bmod (2 ^ 64) = entry.timestampNs.toNat := by
    rw [Int.bmod_def]
    rw [Int.bmod_def] at hlo
    split <;> omega
  rw [heq] at hlo hhi hbmod
  omega

/-- With a start, the statement bounds the timestamps on both sides. -/
theorem inRange_of_selects (hstart : 0 < q.startTime) (hle : q.startTime ≤ q.endTime)
    {row : CallStackRow} (hselects : q.selects row = true) : q.InRange row := by
  obtain ⟨hlo, hhi, -⟩ := (q.selects_iff row).mp hselects
  exact ⟨hlo hstart, hhi (Int.lt_of_lt_of_le hstart hle)⟩

/-- Up to the last second whose nanoseconds are a `long long`, each hour of UTC
is in one file, and no file is that of two hours. -/
structure HourlyZone (localtime : Int → Tm) (dbDir : CString) : Prop where
  const : ∀ t, 0 ≤ t → t * 1000000000 < 2 ^ 63 →
    hourDbPath localtime dbDir t = hourDbPath localtime dbDir (t - t % 3600)
  inj : ∀ u v, 3600 ∣ u → 3600 ∣ v → 0 ≤ u → u < v → v * 1000000000 < 2 ^ 63 →
    hourDbPath localtime dbDir u ≠ hourDbPath localtime dbDir v

/-- The range of one second. -/
theorem hours_of_second {t : Int} (ht : 0 ≤ t) (pid : Int) (name : Option NameFilter) {u : Int} :
    u ∈ QueryArgs.hours ⟨t, t, pid, name⟩ ↔ u = t - t % 3600 := by
  rw [QueryArgs.mem_hours ht]
  dsimp only
  omega

theorem whereFits_of_range {t s : Int} (hle : t ≤ s) (hs : s * 1000000000 < 2 ^ 63) :
    QueryArgs.WhereFits ⟨t, s, 0, none⟩ :=
  QueryArgs.whereFits_of_short ⟨fun _ => by dsimp only; omega, fun _ => hs⟩
    (show (0 : Int) < 2 ^ 31 by decide) (by simp)

/-- In an hourly zone the hours of a query are those of the files. -/
theorem HourlyZone.hoursNameFiles (hzone : HourlyZone localtime dbDir) (hstart : 0 < q.startTime)
    (hle : q.startTime ≤ q.endTime) (hlt : q.endTime * 1000000000 < 2 ^ 63)
    (hwhere : q.WhereFits) : HoursNameFiles localtime dbDir entries created q := by
  have hmem {u : Int} := QueryArgs.mem_hours (q := q) (u := u) (Int.le_of_lt hstart)
  refine ⟨⟨fun u hu => ?_, .inl ⟨fun _ => ?_, fun _ => hlt⟩⟩, fun entry _ hrange => ?_,
    fun u hu v hv heq _ => ?_, .inl hwhere,
    fun _ entry _ hselects _ => inRange_of_selects hstart hle hselects⟩
  · have := hmem.mp hu
    omega
  · omega
  · obtain ⟨hlo, hhi, hns⟩ := second_of_inRange (Int.le_of_lt hstart) hrange
    refine ⟨_, hmem.mpr ?_, (hzone.const _ (Int.natCast_nonneg _) hns).symm⟩
    omega
  · have hu := hmem.mp hu
    have hv := hmem.mp hv
    rcases Int.lt_trichotomy u v with huv | huv | huv
    · exact absurd heq (hzone.inj u v hu.1 hv.1 (by omega) huv (by omega))
    · exact huv
    · exact absurd heq.symm (hzone.inj v u hv.1 hu.1 (by omega) huv (by omega))

/-- A sample of one second is found only under the name of its hour of UTC. -/
theorem hourDbPath_of_exact {t : Int} (ht : 0 ≤ t) (hlt : t * 1000000000 < 2 ^ 63)
    (h : HistoricalExact localtime dbDir [⟨0, UInt64.ofNat (t.toNat * 1000000000), []⟩]
      (fun _ => false) ⟨t, t, 0, none⟩) :
    hourDbPath localtime dbDir t = hourDbPath localtime dbDir (t - t % 3600) := by
  let entry : DbEntry := ⟨0, UInt64.ofNat (t.toNat * 1000000000), []⟩
  have hns : entry.timestampNs.toNat = t.toNat * 1000000000 :=
    UInt64.toNat_ofNat_of_lt' (by simp only [UInt64.size]; omega)
  have hrange : QueryArgs.InRange ⟨t, t, 0, none⟩ entry.row := by
    rw [QueryArgs.InRange, timestamp_row, hns, Int.bmod_eq_of_le (by omega) (by omega)]
    dsimp only
    omega
  obtain ⟨u, hu, hpath⟩ := h.hoursNameFiles.named entry List.mem_cons_self hrange
  rw [(hours_of_second ht 0 none).mp hu] at hpath
  have hsecond : ((entry.timestampNs.toNat / 1000000000 : Nat) : Int) = t := by
    rw [hns]
    omega
  rw [hpath]
  show _ = hourDbPath localtime dbDir (entry.timestampNs.toNat / 1000000000 : Nat)
  rw [hsecond]

/-- Two hours of an exact query never have one file. -/
theorem hourDbPath_ne_of_exact {u v : Int} (hu : 3600 ∣ u) (hv : 3600 ∣ v) (hpos : 0 ≤ u)
    (huv : u < v)
    (h : HistoricalExact localtime dbDir [] (fun _ => true) ⟨max u 1, v, 0, none⟩) :
    hourDbPath localtime dbDir u ≠ hourDbPath localtime dbDir v := by
  intro heq
  have hhours : ∀ w : Int, 3600 ∣ w → u ≤ w → w ≤ v →
      w ∈ QueryArgs.hours ⟨max u 1, v, 0, none⟩ := fun w hw huw hwv => by
    rw [QueryArgs.mem_hours (by dsimp only; omega)]
    dsimp only
    omega
  have hsame := h.hoursNameFiles.distinct u (hhours u hu le_rfl (by omega)) v
    (hhours v hv (by omega) le_rfl) heq (by simp [storedFiles])
  omega

/-- **The zones that are right.**  The query is exact on every range, for all
files and filters, if and only if the zone is hourly. -/
theorem historical_query_exact_iff_zone (localtime : Int → Tm) (dbDir : CString) :
    (∀ entries created (q : QueryArgs), 0 < q.startTime → q.startTime ≤ q.endTime →
      q.endTime * 1000000000 < 2 ^ 63 → q.WhereFits →
      HistoricalExact localtime dbDir entries created q) ↔
    HourlyZone localtime dbDir := by
  constructor
  · intro hall
    refine ⟨fun t ht hlt => ?_, fun u v hu hv hpos huv hlt => ?_⟩
    · by_cases hzero : t = 0
      · rw [hzero, Int.zero_emod, Int.sub_zero]
      · exact hourDbPath_of_exact ht hlt (hall _ _ ⟨t, t, 0, none⟩ (by dsimp only; omega) le_rfl
          hlt (whereFits_of_range le_rfl hlt))
    · exact hourDbPath_ne_of_exact hu hv hpos huv (hall _ _ ⟨max u 1, v, 0, none⟩
        (by dsimp only; omega) (by dsimp only; omega) hlt (whereFits_of_range (by omega) hlt))
  · exact fun hzone _ _ _ hstart hle hlt hwhere =>
      (hzone.hoursNameFiles hstart hle hlt hwhere).exact

end

/-! ## Half an hour off -/

/-- The local time of India (UTC+05:30) on 1 January 1970. -/
def indiaFirstDay (t : Int) : Tm := ⟨70, 0, 1, (t + 19800) / 3600⟩

/-- A sample at 00:45 UTC, which is 06:15 there. -/
def quarterPastSix : DbEntry := ⟨0, 2700000000000, cstr "7|sh|sh[7];main"⟩

/-- The second of the sample. -/
def thatSecond : QueryArgs := ⟨2700, 2700, 0, none⟩

end Profiling
