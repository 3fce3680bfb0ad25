import Profiling.Query.Hours
import Profiling.Query.Live

/-!
# Profiling.Query.Agreement

The live query against the historical one, on the files of one writer.

The live query reads the file of the writer's current handle, whatever the
range is; the historical one reads the files of all hours of the range.  So
they agree just if all that is asked for is in that one file
(`live_query_agrees_iff`).
-/

namespace Profiling

/-- Each local hour is an hour of UTC. -/
def WholeHour (localtime : Int → Tm) : Prop := ∀ t, 0 ≤ t → localtime t = localtime (t - t % 3600)

/-- The writer's files on disk, and some without rows. -/
def DbWriter.directory (w : DbWriter) (created : CString → Bool) : Directory := fun path =>
  if created path ∨ w.sqlite.durable path ≠ [] then some (w.sqlite.durable path) else none

section

variable (localtime : Int → Tm) (w : DbWriter) (created : CString → Bool) (q : QueryArgs)

/-- The two queries print the same lines, in whatever order. -/
def SameMap (fetch : CString → HttpRequest) (now : Int) (serverUrl : CString) : Prop :=
  ∃ live historical, performLiveQuery fetch now w serverUrl q = some live ∧
    performHistoricalQuery localtime (w.directory created) w.outputDir q = some historical ∧
    ∀ line, line ∈ live ↔ line ∈ historical.lines

/-- What is asked for is all in the file of the current handle. -/
structure LiveSeesRange : Prop where
  params : q.paramsText.length ≤ 512
  noOverflow : NoOverflow localtime (w.directory created) w.outputDir q q.hours
  products : w.db = none ∨ q.ProductsFit
  /-- the selected rows are in the current file, which is that of one hour; or the
  statement is cut, and none are in the current file -/
  rows : (q.WhereFits ∧ ∀ path, ∀ row ∈ w.sqlite.durable path, q.selects row = true →
        path = w.currentDbPath ∧
          ∃ u ∈ q.hours, ∀ v ∈ q.hours, hourDbPath localtime w.outputDir v = path ↔ v = u) ∨
    ¬q.WhereFits ∧ ∀ row ∈ w.sqlite.durable w.currentDbPath, q.selects row = false

end

section

variable {localtime : Int → Tm} {w : DbWriter} {created : CString → Bool} {q : QueryArgs}

theorem directory_getD (path : CString) :
    (w.directory created path).getD [] = w.sqlite.durable path := by
  unfold DbWriter.directory
  split
  · rfl
  · next h =>
    simp only [not_or, not_not] at h
    exact h.2.symm

/-- Between two batches, the live query reads what is on disk in the current file. -/
theorem handleRows_eq (hw : w.Quiet) (hnone : w.sqlite.durable [] = []) :
    w.handleRows = w.sqlite.durable w.currentDbPath := by
  unfold DbWriter.handleRows
  cases hdb : w.db with
  | none => rw [hw.path hdb, hnone, Option.elim_none]
  | some h =>
      rw [Option.elim_some, Sqlite.rows, (hw.conn h hdb).2]
      exact List.append_nil _

/-- A file with a row in the range and since 1970 is that of an hour of the range. -/
theorem exists_hour (hwhole : WholeHour localtime) {entries : List DbEntry}
    (hstored : ∀ file, w.sqlite.durable file = rowsIn localtime w.outputDir file entries)
    {path : CString} {row : CallStackRow} (hrow : row ∈ w.sqlite.durable path)
    (hlo : max q.startTime 0 * 1000000000 ≤ row.timestamp)
    (hhi : row.timestamp ≤ q.endTime * 1000000000) :
    ∃ u ∈ q.hours, hourDbPath localtime w.outputDir u = path := by
  rw [hstored, rowsIn] at hrow
  obtain ⟨entry, hentry, rfl⟩ := List.mem_map.mp hrow
  obtain ⟨-, hpath⟩ := List.mem_filter.mp hentry
  obtain ⟨hlo, hhi, -⟩ := second_of_inRange (q := ⟨max q.startTime 0, q.endTime, q.pid, q.name⟩)
    (le_max_right q.startTime 0) ⟨hlo, hhi⟩
  dsimp only at hlo hhi
  have hpath :
      hourDbPath localtime w.outputDir (entry.timestampNs.toNat / 1000000000 : Nat) = path :=
    of_decide_eq_true hpath
  generalize ((entry.timestampNs.toNat / 1000000000 : Nat) : Int) = t at hlo hhi hpath
  refine ⟨t - t % 3600, QueryArgs.hour_mem_hours (by omega) (by omega) hhi, ?_⟩
  rw [hourDbPath, ← hwhole t (by omega)]
  exact hpath

/-- What the historical query counts in a file of the writer. -/
theorem countedStacks_directory (hours : List Int) :
    countedStacks localtime (w.directory created) w.outputDir q hours =
      hours.flatMap fun u =>
        q.stacksOf (w.sqlite.durable (hourDbPath localtime w.outputDir u)) := by
  simp only [countedStacks, directory_getD]

theorem stacksOf_eq_nil (hfits : q.WhereFits) {rows : List CallStackRow} :
    q.stacksOf rows = [] ↔ ∀ row ∈ rows, ¬q.selects row = true := by
  rw [QueryArgs.stacksOf, if_pos hfits, List.map_eq_nil_iff, List.filter_eq_nil_iff]

/-- If the range is all in the current file, both queries count the same. -/
theorem LiveSeesRange.perm (h : LiveSeesRange localtime w created q) :
    ((w.sqlite.durable w.currentDbPath).filter q.selects).map (·.fullStack) =
      countedStacks localtime (w.directory created) w.outputDir q q.hours := by
  rcases h.rows with ⟨hfits, hrows⟩ | ⟨hcut, hnone⟩
  · rw [countedStacks_directory]
    have hlive : ((w.sqlite.durable w.currentDbPath).filter q.selects).map (·.fullStack) =
        q.stacksOf (w.sqlite.durable w.currentDbPath) := (if_pos hfits).symm
    rw [hlive]
    by_cases hempty : ∃ row ∈ w.sqlite.durable w.currentDbPath, q.selects row = true
    · obtain ⟨row, hrow, hselects⟩ := hempty
      obtain ⟨-, u, hu, honly⟩ := hrows _ row hrow hselects
      have hfile := (honly u hu).mpr rfl
      rw [flatMap_eq_of_others q.nodup_hours hu fun v hv hne => ?_, hfile]
      rw [stacksOf_eq_nil hfits]
      exact fun row' hrow' hselects' =>
        hne ((honly v hv).mp (hrows _ row' hrow' hselects').1)
    · have hall : ∀ path, q.stacksOf (w.sqlite.durable path) = [] := fun path =>
        (stacksOf_eq_nil hfits).mpr fun row hrow hselects =>
          hempty ⟨row, (hrows path row hrow hselects).1 ▸ hrow, hselects⟩
      rw [hall, List.flatMap_eq_nil_iff.mpr fun u _ => hall _]
  · have hlive : (w.sqlite.durable w.currentDbPath).filter q.selects = [] :=
      List.filter_eq_nil_iff.mpr fun row hrow => by simp [hnone row hrow]
    rw [hlive, List.map_nil, countedStacks_of_cut hcut]

/-- Where both queries count the same, the range is all in the current file. -/
theorem rows_of_perm
    (hhour : ∀ path, ∀ row ∈ w.sqlite.durable path, q.selects row = true →
      ∃ u ∈ q.hours, hourDbPath localtime w.outputDir u = path)
    (hperm : (((w.sqlite.durable w.currentDbPath).filter q.selects).map (·.fullStack)).Perm
      (countedStacks localtime (w.directory created) w.outputDir q q.hours)) :
    (q.WhereFits ∧ ∀ path, ∀ row ∈ w.sqlite.durable path, q.selects row = true →
        path = w.currentDbPath ∧
          ∃ u ∈ q.hours, ∀ v ∈ q.hours, hourDbPath localtime w.outputDir v = path ↔ v = u) ∨
    ¬q.WhereFits ∧ ∀ row ∈ w.sqlite.durable w.currentDbPath, q.selects row = false := by
  by_cases hfits : q.WhereFits
  · rw [countedStacks_directory] at hperm
    refine .inl ⟨hfits, ?_⟩
    have hlive : ((w.sqlite.durable w.currentDbPath).filter q.selects).map (·.fullStack) =
        q.stacksOf (w.sqlite.durable w.currentDbPath) := (if_pos hfits).symm
    rw [hlive] at hperm
    intro path row hrow hselects
    obtain ⟨u, hu, rfl⟩ := hhour path row hrow hselects
    -- the hour of the row adds to what is counted, so the current file is not empty
    have hadds : q.stacksOf (w.sqlite.durable (hourDbPath localtime w.outputDir u)) ≠ [] :=
      fun hnil => (stacksOf_eq_nil hfits).mp hnil row hrow hselects
    have hcurrent : q.stacksOf (w.sqlite.durable w.currentDbPath) ≠ [] := fun hnil => by
      rw [hnil] at hperm
      exact hadds (List.flatMap_eq_nil_iff.mp hperm.nil_eq.symm u hu)
    rw [Ne, stacksOf_eq_nil hfits, not_forall₂] at hcurrent
    obtain ⟨row', hrow', hselects'⟩ := hcurrent
    rw [not_not] at hselects'
    obtain ⟨u', hu', hfile⟩ := hhour _ row' hrow' hselects'
    have hothers := others_eq_nil hu' (by rw [← hperm.length_eq, hfile])
    obtain rfl : u = u' := by
      by_contra hne
      exact hadds (hothers u hu hne)
    refine ⟨hfile, u, hu, fun v hv => ⟨fun heq => ?_, fun heq => by rw [heq]⟩⟩
    by_contra hne
    exact hadds (heq ▸ hothers v hv hne)
  · refine .inr ⟨hfits, fun row hrow => ?_⟩
    rw [countedStacks_of_cut hfits] at hperm
    have hnil := List.filter_eq_nil_iff.mp (List.map_eq_nil_iff.mp hperm.eq_nil) row hrow
    simpa using hnil

/-- There is no file without a name. -/
theorem rowsIn_nil (outputDir : CString) (entries : List DbEntry) :
    rowsIn localtime outputDir [] entries = [] := by
  rw [rowsIn, List.map_eq_nil_iff, List.filter_eq_nil_iff]
  intro entry _
  simpa using dbPath_ne_nil localtime entry.timestampNs outputDir

/-- Between two batches of a writer whose rows are in the files of their hours. -/
theorem DbWriter.Quiet.agrees_iff (hw : w.Quiet) {entries : List DbEntry}
    (hstored : ∀ file, w.sqlite.durable file = rowsIn localtime w.outputDir file entries)
    (hwhole : WholeHour localtime) (hend : 0 < q.endTime) (hpid : q.pid < 2 ^ 31)
    (hplain : q.Plain) {fetch : CString → HttpRequest} {serverUrl : CString}
    (hfetch : Delivers fetch serverUrl q) (now : Int) :
    (LiveSeesRange localtime w created q → SameMap localtime w created q fetch now serverUrl) ∧
      ((q.startTime ≤ 0 → ∀ file, ∀ row ∈ w.sqlite.durable file, 0 ≤ row.timestamp) →
        SameMap localtime w created q fetch now serverUrl →
        LiveSeesRange localtime w created q) := by
  obtain ⟨hlive, hnoLive⟩ := performLiveQuery_spec hend hpid hplain hfetch now w
  obtain ⟨hhistorical, hnoHistorical⟩ :=
    performHistoricalQuery_spec localtime (w.directory created) w.outputDir q
  rw [handleRows_eq hw (by rw [hstored, rowsIn_nil])] at hlive
  constructor
  · intro h
    obtain ⟨live, hlive, htally⟩ := hlive ⟨h.params, h.products⟩
    obtain ⟨historical, hhistorical, -, htally'⟩ := hhistorical h.noOverflow
    exact ⟨live, historical, hlive, hhistorical, (htally.same_iff htally').mpr (.of_eq h.perm)⟩
  · rintro hclock ⟨live, historical, hlive', hhistorical', hsame⟩
    have hlimits : q.paramsText.length ≤ 512 ∧ (w.db = none ∨ q.ProductsFit) := by
      by_contra hover
      rw [hnoLive hover] at hlive'
      contradiction
    have hno : NoOverflow localtime (w.directory created) w.outputDir q q.hours := by
      by_contra hover
      rw [hnoHistorical hover] at hhistorical'
      contradiction
    obtain ⟨_, hlive, htally⟩ := hlive hlimits
    obtain ⟨_, hhistorical, -, htally'⟩ := hhistorical hno
    obtain rfl := Option.some.inj (hlive'.symm.trans hlive)
    obtain rfl := Option.some.inj (hhistorical'.symm.trans hhistorical)
    refine ⟨hlimits.1, hno, hlimits.2, rows_of_perm (fun path row hrow hselects => ?_)
      ((htally.same_iff htally').mp hsame)⟩
    obtain ⟨hlo, hhi, -⟩ := (q.selects_iff row).mp hselects
    refine exists_hour hwhole hstored hrow ?_ (hhi hend)
    rcases Int.lt_or_le 0 q.startTime with hpos | hle
    · rw [max_eq_left (Int.le_of_lt hpos)]
      exact hlo hpos
    · rw [max_eq_right hle, Int.zero_mul]
      exact hclock hle path row hrow

/-- **When the two queries agree.**  With a whole-hour zone, the live query and
the historical one yield the same map if what is asked for is all in the file of
the current handle; and only then, unless the start is not positive, which leaves
the lower bound out, and there are rows with negative timestamps. -/
theorem live_query_agrees_iff (hwhole : WholeHour localtime) (outputDir : CString)
    (earlier : List DbEntry) (batches : List (List DbEntry)) (created : CString → Bool)
    (hend : 0 < q.endTime) (hpid : q.pid < 2 ^ 31) (hplain : q.Plain)
    {fetch : CString → HttpRequest} {serverUrl : CString}
    (hfetch : Delivers fetch serverUrl q) (now : Int) :
    let w := writeBatches localtime
      (.init outputDir fun file => rowsIn localtime outputDir file earlier) batches
    (LiveSeesRange localtime w created q → SameMap localtime w created q fetch now serverUrl) ∧
      ((q.startTime ≤ 0 → ∀ file, ∀ row ∈ w.sqlite.durable file, 0 ≤ row.timestamp) →
        SameMap localtime w created q fetch now serverUrl →
        LiveSeesRange localtime w created q) := by
  intro w
  obtain ⟨hquiet, hdir, entries, hstored⟩ := stored_writeBatches localtime
    (DbWriter.quiet_init outputDir fun file => rowsIn localtime outputDir file earlier)
    (fun _ => rfl) batches
  rw [← hdir] at hstored
  exact hquiet.agrees_iff hstored hwhole hend hpid hplain hfetch now

end

/-! ## Over the full hour -/

/-- From one second before 01:00 to 01:00. -/
def overTheHour : QueryArgs := ⟨3599, 3600, 0, none⟩

/-- A request as libmicrohttpd hands it over. -/
def requestOf (q : QueryArgs) : HttpRequest :=
  ⟨cstr "GET", cstr "/query", fun key => q.arguments.lookup key⟩

def localServer : CString := cstr "http://localhost:8081"

theorem delivers_requestOf (q : QueryArgs) : Delivers (fun _ => requestOf q) localServer q :=
  fun _ _ _ => ⟨rfl, rfl, fun _ => rfl⟩

theorem wholeHour_firstDay : WholeHour firstDay := fun t _ => by
  rw [firstDay, firstDay, show (t - t % 3600) / 3600 = t / 3600 by omega]

theorem hours_overTheHour : overTheHour.hours = [0, 3600] := by
  simp [QueryArgs.hours, hoursFrom, overTheHour]

/-- The writer after these batches, in an empty directory. -/
def writtenBy (batches : List (List DbEntry)) : DbWriter :=
  writeBatches firstDay (.init (cstr "/tmp") fun file => rowsIn firstDay (cstr "/tmp") file [])
    batches

/-- As long as there is only the sample before the hour, its file is the current one. -/
theorem live_query_agrees_before_hour :
    SameMap firstDay (writtenBy [hourChange.take 1]) (fun _ => false) overTheHour
      (fun _ => requestOf overTheHour) 3600 localServer := by
  have hstored : ∀ path, (writtenBy [hourChange.take 1]).sqlite.durable path =
      rowsIn firstDay (cstr "/tmp") path (hourChange.take 1) := fun path =>
    durable_writeBatches firstDay (DbWriter.quiet_init _ _) (DbWriter.allIdle_init _ _)
      [hourChange.take 1] (fun batch hbatch => by
        obtain rfl := List.mem_singleton.mp hbatch
        exact ⟨_, fun entry hentry => congrArg _ (congrArg DbEntry.timestampNs
          (List.mem_singleton.mp hentry))⟩) path
  refine (live_query_agrees_iff wholeHour_firstDay (cstr "/tmp") [] [hourChange.take 1]
    (fun _ => false) (by decide) (by decide) (fun _ h => by cases h)
    (delivers_requestOf _) 3600).1 ⟨by decide, ⟨?_, .inl (by decide)⟩, .inr (by decide), .inl ?_⟩
  · rw [hours_overTheHour]
    decide
  · refine ⟨by decide, fun path row hrow _ => ?_⟩
    replace hrow : row ∈ rowsIn firstDay (cstr "/tmp") path (hourChange.take 1) :=
      hstored path ▸ hrow
    obtain ⟨entry, hentry, -⟩ := List.mem_map.mp hrow
    obtain ⟨hmem, hpath⟩ := List.mem_filter.mp hentry
    obtain rfl := List.mem_singleton.mp hmem
    obtain rfl := of_decide_eq_true hpath
    rw [hours_overTheHour]
    exact ⟨by decide, 0, by decide, by decide⟩

/-- The samples before and at the hour, written one after the other. -/
def bothHours : DbWriter := writtenBy (hourChange.map ([·]))

/-- The live query counts the sample in the current file, the historical one both. -/
theorem live_query_misses_hour :
    (∃ live, performLiveQuery (fun _ => requestOf overTheHour) 3600 bothHours localServer
        overTheHour = some live ∧ (cstr "sh[7];main", 1) ∈ live) ∧
      (∃ historical, performHistoricalQuery firstDay (bothHours.directory fun _ => false)
          (cstr "/tmp") overTheHour = some historical ∧
        (cstr "sh[7];main", 2) ∈ historical.lines) ∧
      ¬SameMap firstDay bothHours (fun _ => false) overTheHour (fun _ => requestOf overTheHour)
        3600 localServer := by
  have hlive : (bothHours.handleRows.filter overTheHour.selects).map (·.fullStack) =
      [cstr "sh[7];main"] := by decide +kernel
  have hhistorical : countedStacks firstDay (bothHours.directory fun _ => false) (cstr "/tmp")
      overTheHour overTheHour.hours = [cstr "sh[7];main", cstr "sh[7];main"] := by
    rw [hours_overTheHour]
    decide +kernel
  obtain ⟨live, hrunLive, htally⟩ := (performLiveQuery_spec (q := overTheHour) (by decide)
    (by decide) (fun _ h => by cases h) (delivers_requestOf _) 3600 bothHours).1
    ⟨by decide, .inr (by decide)⟩
  obtain ⟨historical, hrunHistorical, -, htally'⟩ := (performHistoricalQuery_spec firstDay
    (bothHours.directory fun _ => false) (cstr "/tmp") overTheHour).1
    ⟨by rw [hours_overTheHour]; decide, .inl (by decide)⟩
  rw [hlive] at htally
  rw [hhistorical] at htally'
  have hone : (cstr "sh[7];main", 1) ∈ live := (htally.mem _ _).mpr (by decide)
  have htwo : (cstr "sh[7];main", 2) ∈ historical.lines := (htally'.mem _ _).mpr (by decide)
  refine ⟨⟨live, hrunLive, hone⟩, ⟨historical, hrunHistorical, htwo⟩, ?_⟩
  rintro ⟨live', historical', hrunLive', hrunHistorical', hsame⟩
  obtain rfl := Option.some.inj (hrunLive.symm.trans hrunLive')
  obtain rfl := Option.some.inj (hrunHistorical.symm.trans hrunHistorical')
  exact absurd ((htally'.mem _ _).mp ((hsame _).mp hone)).2 (by decide)

end Profiling
