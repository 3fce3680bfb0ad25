import Profiling.Database.Writer

/-!
# Profiling.Database.Handle

Histories of `ensure_db_handle`.

Path and handle are set at different moments.  A call that returns 0 leaves the
handle on an open connection to its file, in every history
(`DbWriter.Connected.ensureDbHandle`).  A call that fails leaves its path behind
without a handle, and the calls for the same file fail from then on, whatever
the operations would do (`ensureDbHandle_run_iff`).
-/

namespace Profiling

/-- One call of `ensure_db_handle`. -/
structure EnsureCall where
  timestampNs : UInt64
  outcome : OpenOutcome
  deriving DecidableEq, Repr

namespace DbWriter

/-- The handle, if there is one, is an open connection to the current path. -/
def Connected (w : DbWriter) : Prop :=
  ∀ h, w.db = some h → ∃ c, w.sqlite.connections h = some c ∧ c.file = w.currentDbPath

section

variable (localtime : Int → Tm) {w : DbWriter}

/-- The writer after these calls, one after another. -/
def ensureAll (w : DbWriter) (calls : List EnsureCall) : DbWriter :=
  calls.foldl (fun w call => (ensureDbHandle localtime call.outcome w call.timestampNs).1) w

/-- What a call is for: when it returns 0, the handle is an open connection to the
file of its timestamp, and it returns 0 if all operations would succeed. -/
def Law (w : DbWriter) (call : EnsureCall) : Prop :=
  let result := ensureDbHandle localtime call.outcome w call.timestampNs
  (result.2 = true → ∃ h c, result.1.db = some h ∧ result.1.sqlite.connections h = some c ∧
    c.file = dbPath localtime w.outputDir call.timestampNs) ∧
  (call.outcome = .ok → result.2 = true)

/-- The path is that of the call already, and there is no handle. -/
def Stuck (w : DbWriter) (call : EnsureCall) : Prop :=
  w.currentDbPath = dbPath localtime w.outputDir call.timestampNs ∧ w.db = none

theorem connected_of_none (hdb : w.db = none) : w.Connected := by
  intro h hh
  rw [hdb] at hh
  cases hh

theorem connected_init (outputDir : CString) (files : CString → List CallStackRow) :
    (DbWriter.init outputDir files).Connected := connected_of_none rfl

/-- **One call** keeps the handle on the current path, which is that of the call
when it returns 0. -/
theorem Connected.ensureDbHandle (hw : w.Connected) (call : EnsureCall) :
    let result := ensureDbHandle localtime call.outcome w call.timestampNs
    result.1.Connected ∧ result.1.outputDir = w.outputDir ∧
      (result.2 = true → result.1.db.isSome ∧
        result.1.currentDbPath = dbPath localtime w.outputDir call.timestampNs) := by
  obtain ⟨timestampNs, opens, setsWal, createsTable⟩ := call
  by_cases hp : w.currentDbPath = dbPath localtime w.outputDir timestampNs
  · simp only [ensureDbHandle_of_eq localtime hp]
    exact ⟨hw, trivial, fun hsome => ⟨hsome, hp⟩⟩
  · simp only [Profiling.ensureDbHandle, hp, if_false]
    split
    · split
      · refine ⟨fun h hh => ?_, rfl, fun _ => ⟨rfl, rfl⟩⟩
        -- the handle is the new connection
        obtain rfl := Option.some.inj hh
        exact ⟨_, Function.update_self .., rfl⟩
      · exact ⟨connected_of_none rfl, rfl, fun hzero => absurd hzero Bool.false_ne_true⟩
    · exact ⟨connected_of_none rfl, rfl, fun hzero => absurd hzero Bool.false_ne_true⟩

/-- **A history of calls** keeps it. -/
theorem connected_ensureAll (hw : w.Connected) (calls : List EnsureCall) :
    (w.ensureAll localtime calls).Connected := by
  induction calls using List.reverseRecOn with
  | nil => exact hw
  | append_singleton calls call ih =>
      rw [ensureAll, List.foldl_concat]
      exact (ih.ensureDbHandle localtime call).1

/-- A call for which all operations succeed returns 0 just when the path is not
left behind without a handle. -/
theorem ensureDbHandle_ok_iff (timestampNs : UInt64) :
    (ensureDbHandle localtime .ok w timestampNs).2 = true ↔
      ¬w.Stuck localtime ⟨timestampNs, .ok⟩ := by
  by_cases hp : w.currentDbPath = dbPath localtime w.outputDir timestampNs
  · rw [ensureDbHandle_of_eq localtime hp, Stuck, Option.isSome_iff_ne_none]
    exact ⟨fun hsome hstuck => hsome hstuck.2, fun hstuck hnone => hstuck ⟨hp, hnone⟩⟩
  · rw [ensureDbHandle_of_ne localtime hp]
    exact iff_of_true rfl fun hstuck => hp hstuck.1

/-- One call does what it is for just when it is not stuck, or would fail anyway. -/
theorem Connected.law_iff (hw : w.Connected) (call : EnsureCall) :
    w.Law localtime call ↔ (call.outcome = .ok → ¬w.Stuck localtime call) := by
  obtain ⟨timestampNs, outcome⟩ := call
  obtain ⟨hconnected, -, hpath⟩ := hw.ensureDbHandle localtime ⟨timestampNs, outcome⟩
  constructor
  · rintro ⟨-, hreturns⟩ rfl
    exact (ensureDbHandle_ok_iff localtime timestampNs).mp (hreturns rfl)
  · intro hstuck
    refine ⟨fun hzero => ?_, ?_⟩
    · obtain ⟨hsome, hp⟩ := hpath hzero
      obtain ⟨h, hh⟩ := Option.isSome_iff_exists.mp hsome
      obtain ⟨c, hc, hfile⟩ := hconnected h hh
      exact ⟨h, c, hh, hc, hfile.trans hp⟩
    · rintro rfl
      exact (ensureDbHandle_ok_iff localtime timestampNs).mpr (hstuck rfl)

/-- **Every history.**  All calls of a history do what they are for just when none
of them, with operations that would succeed, comes to a path that a failed call
has left behind without a handle. -/
theorem ensureDbHandle_run_iff (outputDir : CString) (files : CString → List CallStackRow)
    (calls : List EnsureCall) :
    (∀ front call back, calls = front ++ call :: back →
        ((DbWriter.init outputDir files).ensureAll localtime front).Law localtime call) ↔
      ∀ front call back, calls = front ++ call :: back → call.outcome = .ok →
        ¬((DbWriter.init outputDir files).ensureAll localtime front).Stuck localtime call := by
  have hlaw : ∀ front call,
      ((DbWriter.init outputDir files).ensureAll localtime front).Law localtime call ↔ _ :=
    fun front call =>
      (connected_ensureAll localtime (connected_init outputDir files) front).law_iff localtime call
  simp only [hlaw]

end

/-- Every time is in the first hour of 1970. -/
def firstHour (_ : Int) : Tm := ⟨70, 0, 1, 0⟩

/-- The second of two calls for one hour fails, since `sqlite3_open` has failed in
the first. -/
theorem not_law_after_failure :
    ¬((DbWriter.init [] fun _ => []).ensureAll firstHour [⟨0, ⟨false, true, true⟩⟩]).Law firstHour
      ⟨1, .ok⟩ := by
  have hconnected := connected_ensureAll firstHour (connected_init [] fun _ => [])
    [⟨0, ⟨false, true, true⟩⟩]
  rw [hconnected.law_iff]
  exact fun hstuck => hstuck rfl ⟨rfl, rfl⟩

end DbWriter

end Profiling
