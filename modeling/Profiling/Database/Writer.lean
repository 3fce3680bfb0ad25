import Profiling.CString
import Profiling.Database.Sqlite

/-!
# Profiling.Database.Writer

The database side of `src/utils/database.c`: `ensure_db_handle`, which opens
one file per hour, and the body of the loop of `db_writer_thread_func`, which
inserts one popped batch.

`localtime_r` is a parameter.  Which of the `sqlite3_` calls that may fail do
so is an input, one `OpenOutcome` for each call of `ensure_db_handle`; a failed
`CREATE INDEX` is only reported, so it is not among them.  Two ghost fields of
the writer record what it did with its entries: those it executed the `INSERT`
for, and how each was released.
-/

namespace Profiling

/-! ## Entries and rows -/

/-- `db_entry_t`, with the chunk of `entry_pool` it lives in. -/
structure DbEntry where
  chunk : Nat
  timestampNs : UInt64
  stackStr : CString
  deriving DecidableEq, Repr

/-- A row of `call_stacks`. -/
structure CallStackRow where
  timestamp : Int
  pid : Int
  processName : CString
  fullStack : CString
  deriving DecidableEq, Repr

/-- Taking `"pid|process_name|full_stack"` apart. -/
def parseStackStr (s : CString) : Int × CString × CString :=
  let (pid, rest) := strtokR (· = 124) s
  let (processName, rest) := strtokR (· = 124) rest
  let (fullStack, _) := strtokR (fun _ => false) rest
  (pid.elim (-1) atoi, processName.getD (cstr "unknown"), fullStack.getD [])

/-- What is bound to the `INSERT` for an entry. -/
def DbEntry.row (entry : DbEntry) : CallStackRow :=
  let (pid, processName, fullStack) := parseStackStr entry.stackStr
  { timestamp := (entry.timestampNs.toNat : Int).bmod (2 ^ 64), pid, processName, fullStack }

/-! ## One file per hour -/

/-- The fields of `struct tm` that a file is named by. -/
structure Tm where
  year : Int
  mon : Int
  mday : Int
  hour : Int
  deriving DecidableEq, Repr

section

variable (localtime : Int → Tm)

/-- `new_db_path`: what fits into 256 bytes with its terminator. -/
def dbPath (outputDir : CString) (timestampNs : UInt64) : CString :=
  let tm := localtime (timestampNs.toNat / 1000000000 : Nat)
  (outputDir ++ cstr "/profiling_" ++ zeroPadded 4 (tm.year + 1900) ++
    cstr "-" ++ zeroPadded 2 (tm.mon + 1) ++ cstr "-" ++ zeroPadded 2 tm.mday ++
    cstr "_" ++ zeroPadded 2 tm.hour ++ cstr ".db").take 255

/-- How an entry was given back: through `free`, its string or itself, or
through `mempool_free`. -/
inductive Release where
  | freeStackStr (entry : DbEntry)
  | freeEntry (entry : DbEntry)
  | mempoolFree (entry : DbEntry)
  deriving DecidableEq, Repr

/-- The part of `db_writer_context_t` that the writer thread works on.  An
empty path is that of no file. -/
structure DbWriter where
  outputDir : CString
  currentDbPath : CString
  db : Option Nat
  sqlite : Sqlite CString CallStackRow
  /-- the entries that the `INSERT` was executed for -/
  inserted : List DbEntry
  released : List Release

/-- Which of the calls of `ensure_db_handle` succeed, when they are made. -/
structure OpenOutcome where
  opens : Bool
  setsWal : Bool
  createsTable : Bool
  deriving DecidableEq, Repr

def OpenOutcome.ok : OpenOutcome := ⟨true, true, true⟩

/-- `ensure_db_handle`, and whether it returns 0. -/
def ensureDbHandle (outcome : OpenOutcome) (w : DbWriter) (timestampNs : UInt64) :
    DbWriter × Bool :=
  let newDbPath := dbPath localtime w.outputDir timestampNs
  if w.currentDbPath = newDbPath then (w, w.db.isSome)
  else
    let sqlite := w.db.elim w.sqlite w.sqlite.close
    if outcome.opens then
      let h := sqlite.fresh
      let sqlite := sqlite.openFile newDbPath
      if outcome.setsWal && outcome.createsTable then
        ({ w with sqlite, currentDbPath := newDbPath, db := some h }, true)
      else
        ({ w with sqlite := sqlite.close h, currentDbPath := newDbPath, db := none }, false)
    else ({ w with sqlite, currentDbPath := newDbPath, db := none }, false)

/-! ## One batch -/

/-- The entries go to `free`, their strings first. -/
def DbWriter.discard (w : DbWriter) (entries : List DbEntry) : DbWriter :=
  { w with
    released := w.released ++ entries.flatMap fun entry =>
      [.freeStackStr entry, .freeEntry entry] }

/-- The entries go back to `entry_pool`. -/
def DbWriter.giveBack (w : DbWriter) (entries : List DbEntry) : DbWriter :=
  { w with released := w.released ++ entries.map .mempoolFree }

/-- `sqlite3_prepare_v2` and `BEGIN TRANSACTION` on the connection `stmt` -/
def DbWriter.beginBatch (w : DbWriter) (stmt : Nat) : DbWriter :=
  { w with sqlite := (w.sqlite.prepare stmt).beginTransaction stmt }

/-- `sqlite3_finalize` of the statement that was prepared on `stmt` -/
def DbWriter.finalize (w : DbWriter) (stmt : Nat) : DbWriter :=
  { w with sqlite := w.sqlite.finalize stmt }

/-- `COMMIT` on `context->db` -/
def DbWriter.commit (w : DbWriter) : DbWriter :=
  { w with sqlite := w.db.elim w.sqlite fun h => w.sqlite.commit h }

/-- `sqlite3_step` of the statement that was prepared on `stmt`. -/
def DbWriter.insert (w : DbWriter) (stmt : Nat) (entry : DbEntry) : DbWriter :=
  { w with sqlite := w.sqlite.insert stmt entry.row, inserted := w.inserted ++ [entry] }

/-- The loop over a batch from its `i`-th entry on, and whether it got through
without discarding the rest. -/
def insertLoop (outcome : Nat → OpenOutcome) (stmt : Nat) :
    Nat → List DbEntry → DbWriter → DbWriter × Bool
  | _, [], w => (w, true)
  | i, entry :: entries, w =>
      let (w, ok) := ensureDbHandle localtime (outcome i) w entry.timestampNs
      if ok then insertLoop outcome stmt (i + 1) entries (w.insert stmt entry)
      else (w.commit.discard (entry :: entries), false)

/-- What may fail during one batch. -/
structure BatchOutcome where
  /-- the first `ensure_db_handle` -/
  ensures : OpenOutcome
  /-- `sqlite3_prepare_v2` -/
  prepares : Bool
  /-- `ensure_db_handle` of each entry -/
  entry : Nat → OpenOutcome

def BatchOutcome.ok : BatchOutcome := ⟨.ok, true, fun _ => .ok⟩

/-- The body of the loop of `db_writer_thread_func`, once `queue_pop_batch` has
delivered a batch. -/
def processBatch (outcome : BatchOutcome) (w : DbWriter) (batch : List DbEntry) : DbWriter :=
  match batch with
  | [] => w
  | first :: _ =>
      let (w, ok) := ensureDbHandle localtime outcome.ensures w first.timestampNs
      if ok && outcome.prepares then
        match w.db with
        | none => w.discard batch
        | some stmt =>
            let (w, kept) := insertLoop localtime outcome.entry stmt 0 batch (w.beginBatch stmt)
            if kept then (w.commit.finalize stmt).giveBack batch else w.finalize stmt
      else w.discard batch

/-- The writer over the batches that it pops. -/
def processBatches (w : DbWriter) (batches : List (BatchOutcome × List DbEntry)) : DbWriter :=
  batches.foldl (fun w batch => processBatch localtime batch.1 w batch.2) w

/-- `db_writer_init`, over the files that are there. -/
def DbWriter.init (outputDir : CString) (files : CString → List CallStackRow) : DbWriter where
  outputDir
  currentDbPath := []
  db := none
  sqlite := ⟨fun _ => none, 0, files⟩
  inserted := []
  released := []

/-! ## The handle -/

namespace DbWriter

/-- Between two batches: no connection yet, or an idle one to the current file. -/
structure Quiet (w : DbWriter) : Prop where
  path : w.db = none → w.currentDbPath = []
  conn : ∀ h, w.db = some h → h < w.sqlite.fresh ∧
    w.sqlite.connections h = some ⟨w.currentDbPath, false, [], 0⟩

/-- Nothing is pending on any connection. -/
def AllIdle (w : DbWriter) : Prop :=
  ∀ h c, w.sqlite.connections h = some c → c.pending = []

/-- Nothing is pending on any connection but `h`. -/
def OthersIdle (w : DbWriter) (h : Nat) : Prop :=
  ∀ h' ≠ h, ∀ c, w.sqlite.connections h' = some c → c.pending = []

/-- Inside a batch, with the handle still the connection of the statement:
`rows` have been executed. -/
structure Attached (w : DbWriter) (stmt : Nat) (rows : List CallStackRow) : Prop where
  db : w.db = some stmt
  lt : stmt < w.sqlite.fresh
  conn : ∃ pending, w.sqlite.connections stmt = some ⟨w.currentDbPath, true, pending, 1⟩ ∧
    pending.Sublist rows ∧ (w.OthersIdle stmt → pending = rows)

/-- Inside a batch, after the handle has moved to another connection. -/
structure Detached (w : DbWriter) (stmt : Nat) : Prop where
  db : ∃ h, w.db = some h ∧ h ≠ stmt ∧ h < w.sqlite.fresh ∧
    w.sqlite.connections h = some ⟨w.currentDbPath, false, [], 0⟩
  lt : stmt < w.sqlite.fresh
  conn : ∃ c, w.sqlite.connections stmt = some c ∧ c.inTransaction = true ∧ c.statements = 1

/-- Nothing was made durable. -/
structure SameFiles (w w' : DbWriter) : Prop where
  outputDir : w'.outputDir = w.outputDir
  durable : w'.sqlite.durable = w.sqlite.durable

theorem SameFiles.trans {w₁ w₂ w₃ : DbWriter} (h₁ : w₁.SameFiles w₂) (h₂ : w₂.SameFiles w₃) :
    w₁.SameFiles w₃ :=
  ⟨h₂.outputDir.trans h₁.outputDir, h₂.durable.trans h₁.durable⟩

end DbWriter

variable {w : DbWriter} {stmt : Nat} {rows : List CallStackRow} (timestampNs : UInt64)

theorem dbPath_ne_nil (outputDir : CString) : dbPath localtime outputDir timestampNs ≠ [] := by
  intro h
  have := congrArg List.length h
  simp [dbPath, cstr] at this

variable {timestampNs} in
theorem ensureDbHandle_of_eq {outcome : OpenOutcome}
    (hp : w.currentDbPath = dbPath localtime w.outputDir timestampNs) :
    ensureDbHandle localtime outcome w timestampNs = (w, w.db.isSome) := by
  simp [ensureDbHandle, hp]

variable {timestampNs} in
/-- Another hour: the handle is given up, and a new one is opened. -/
theorem ensureDbHandle_of_ne (hp : w.currentDbPath ≠ dbPath localtime w.outputDir timestampNs) :
    ensureDbHandle localtime .ok w timestampNs =
      ({ w with
          sqlite := (w.db.elim w.sqlite w.sqlite.close).openFile
            (dbPath localtime w.outputDir timestampNs)
          currentDbPath := dbPath localtime w.outputDir timestampNs
          db := some (w.db.elim w.sqlite w.sqlite.close).fresh }, true) := by
  simp [ensureDbHandle, hp, OpenOutcome.ok]

/-- Before a batch, the handle becomes one to the file of its first entry. -/
theorem ensureDbHandle_quiet (hw : w.Quiet) :
    ∃ w' h, ensureDbHandle localtime .ok w timestampNs = (w', true) ∧ w'.Quiet ∧
      w'.db = some h ∧ w'.currentDbPath = dbPath localtime w.outputDir timestampNs ∧
      w.SameFiles w' ∧ (w.AllIdle → w'.AllIdle) := by
  by_cases hp : w.currentDbPath = dbPath localtime w.outputDir timestampNs
  · cases hdb : w.db with
    | none => exact absurd (hp ▸ hw.path hdb) (dbPath_ne_nil _ _ _)
    | some h =>
        refine ⟨w, h, ?_, hw, hdb, hp, ⟨rfl, rfl⟩, id⟩
        rw [ensureDbHandle_of_eq localtime hp, hdb]
        rfl
  · rw [ensureDbHandle_of_ne localtime hp]
    refine ⟨_, _, rfl, ⟨by simp, ?_⟩, rfl, rfl, ⟨rfl, ?_⟩, ?_⟩
    · intro h hh
      obtain rfl := Option.some.inj hh
      simp [Sqlite.openFile]
    · cases hdb : w.db <;> simp
    · intro hidle h c hc
      simp only [Sqlite.openFile, Function.update_apply] at hc
      split at hc
      · obtain rfl := Option.some.inj hc
        rfl
      · cases hdb : w.db with
        | none => exact hidle h c (by simpa [hdb] using hc)
        | some h' => exact hidle h c (Sqlite.connections_of_close (by simpa [hdb] using hc))

variable {timestampNs} in
/-- The file of the statement is still the current one. -/
theorem ensureDbHandle_attached (hw : w.Attached stmt rows)
    (hp : w.currentDbPath = dbPath localtime w.outputDir timestampNs) :
    ensureDbHandle localtime .ok w timestampNs = (w, true) := by
  rw [ensureDbHandle_of_eq localtime hp, hw.db]
  rfl

variable {timestampNs} in
/-- Another hour within a batch: the connection of the statement, which is not
closed, is left behind with its transaction. -/
theorem ensureDbHandle_detach (hw : w.Attached stmt rows)
    (hp : w.currentDbPath ≠ dbPath localtime w.outputDir timestampNs) :
    ∃ w', ensureDbHandle localtime .ok w timestampNs = (w', true) ∧ w'.Detached stmt ∧
      w.SameFiles w' := by
  obtain ⟨pending, hc, -⟩ := hw.conn
  have hclose : w.sqlite.close stmt = w.sqlite := Sqlite.close_of_statements hc Nat.one_ne_zero
  rw [ensureDbHandle_of_ne localtime hp, hw.db]
  have hne : stmt ≠ w.sqlite.fresh := Nat.ne_of_lt hw.lt
  refine ⟨_, rfl, ?_, ⟨rfl, by simp [hclose]⟩⟩
  constructor
  · refine ⟨_, rfl, ?_⟩
    simp [hclose, Sqlite.openFile, hne.symm]
  · simpa [hclose, Sqlite.openFile] using Nat.lt_succ_of_lt hw.lt
  · simp [hclose, Sqlite.openFile, hne, hc]

/-- From then on the handle stays on other connections. -/
theorem ensureDbHandle_detached (hw : w.Detached stmt) :
    ∃ w', ensureDbHandle localtime .ok w timestampNs = (w', true) ∧ w'.Detached stmt ∧
      w.SameFiles w' := by
  obtain ⟨h, hdb, hne, hlt, hh⟩ := hw.db
  obtain ⟨c, hc, hin, hs⟩ := hw.conn
  by_cases hp : w.currentDbPath = dbPath localtime w.outputDir timestampNs
  · refine ⟨w, ?_, hw, ⟨rfl, rfl⟩⟩
    rw [ensureDbHandle_of_eq localtime hp, hdb]
    rfl
  · have hne' : stmt ≠ w.sqlite.fresh := Nat.ne_of_lt hw.lt
    rw [ensureDbHandle_of_ne localtime hp, hdb]
    refine ⟨_, rfl, ?_, ⟨rfl, by simp⟩⟩
    constructor
    · refine ⟨_, rfl, ?_⟩
      simp [Sqlite.openFile, hne'.symm]
    · simpa [Sqlite.openFile] using Nat.lt_succ_of_lt hw.lt
    · refine ⟨c, ?_, hin, hs⟩
      simp [Sqlite.openFile, hne', Sqlite.connections_close_of_ne hne.symm, hc]

/-! ## The loop over a batch -/

theorem DbWriter.Attached.insert (hw : w.Attached stmt rows) (entry : DbEntry) :
    (w.insert stmt entry).Attached stmt (rows ++ [entry.row]) ∧
      w.SameFiles (w.insert stmt entry) ∧
      (w.OthersIdle stmt → (w.insert stmt entry).OthersIdle stmt) := by
  obtain ⟨pending, hc, hsub, heq⟩ := hw.conn
  obtain ⟨written, hwritten, hall, hinsert⟩ := Sqlite.insert_spec hc rfl entry.row
  have hothers : (w.insert stmt entry).OthersIdle stmt ↔ w.OthersIdle stmt := by
    refine forall₂_congr fun h' hne => ?_
    simp [DbWriter.insert, hinsert, Function.update_of_ne hne]
  refine ⟨⟨hw.db, ?_, pending ++ written, ?_, hsub.append hwritten, fun hidle => ?_⟩,
    ⟨rfl, ?_⟩, hothers.mpr⟩
  · simpa [DbWriter.insert, hinsert] using hw.lt
  · simp [DbWriter.insert, hinsert]
  · have hidle := hothers.mp hidle
    rw [heq hidle, hall (Sqlite.locked_eq_false hidle _)]
  · simp [DbWriter.insert, hinsert]

theorem DbWriter.Detached.insert (hw : w.Detached stmt) (entry : DbEntry) :
    (w.insert stmt entry).Detached stmt ∧ w.SameFiles (w.insert stmt entry) := by
  obtain ⟨h, hdb, hne, hlt, hh⟩ := hw.db
  obtain ⟨c, hc, hin, hs⟩ := hw.conn
  obtain ⟨written, -, -, hinsert⟩ := Sqlite.insert_spec hc hin entry.row
  refine ⟨⟨⟨h, hdb, hne, ?_, ?_⟩, ?_, ?_⟩, ⟨rfl, ?_⟩⟩
  · simpa [DbWriter.insert, hinsert] using hlt
  · simp [DbWriter.insert, hinsert, Function.update_of_ne hne, hh]
  · simpa [DbWriter.insert, hinsert] using hw.lt
  · simp [DbWriter.insert, hinsert, hin, hs]
  · simp [DbWriter.insert, hinsert]

theorem insertLoop_detached (hw : w.Detached stmt) (i : Nat) (entries : List DbEntry) :
    ∃ w', insertLoop localtime (fun _ => .ok) stmt i entries w = (w', true) ∧
      w'.Detached stmt ∧ w.SameFiles w' := by
  induction entries generalizing w i with
  | nil => exact ⟨w, rfl, hw, ⟨rfl, rfl⟩⟩
  | cons entry entries ih =>
      obtain ⟨w₁, hensure, hw₁, hsame₁⟩ := ensureDbHandle_detached localtime entry.timestampNs hw
      obtain ⟨hw₂, hsame₂⟩ := hw₁.insert entry
      obtain ⟨w₃, hloop, hw₃, hsame₃⟩ := ih hw₂ (i + 1)
      refine ⟨w₃, ?_, hw₃, (hsame₁.trans hsame₂).trans hsame₃⟩
      rw [insertLoop, hensure]
      exact hloop

/-- The entries are all in this file. -/
def AllIn (localtime : Int → Tm) (outputDir file : CString) (entries : List DbEntry) : Prop :=
  ∀ entry ∈ entries, dbPath localtime outputDir entry.timestampNs = file

/-- The loop makes nothing durable.  It keeps the handle if all entries are in
its file, and leaves the transaction behind if one is not. -/
theorem insertLoop_attached (hw : w.Attached stmt rows) (i : Nat) (entries : List DbEntry) :
    ∃ w', insertLoop localtime (fun _ => .ok) stmt i entries w = (w', true) ∧ w.SameFiles w' ∧
      (AllIn localtime w.outputDir w.currentDbPath entries ∧
          w'.Attached stmt (rows ++ entries.map DbEntry.row) ∧
          w'.currentDbPath = w.currentDbPath ∧ (w.OthersIdle stmt → w'.OthersIdle stmt) ∨
        ¬AllIn localtime w.outputDir w.currentDbPath entries ∧ w'.Detached stmt) := by
  induction entries generalizing w i rows with
  | nil =>
      refine ⟨w, rfl, ⟨rfl, rfl⟩, .inl ⟨by simp [AllIn], by simpa using hw, rfl, id⟩⟩
  | cons entry entries ih =>
      rw [insertLoop]
      by_cases hp : w.currentDbPath = dbPath localtime w.outputDir entry.timestampNs
      · rw [ensureDbHandle_attached localtime hw hp]
        obtain ⟨hw₁, hsame₁, hidle₁⟩ := hw.insert entry
        obtain ⟨w₂, hloop, hsame₂, hcases⟩ := ih hw₁ (i + 1)
        rw [hsame₁.outputDir] at hcases
        have hall : AllIn localtime w.outputDir w.currentDbPath (entry :: entries) ↔
            AllIn localtime w.outputDir w.currentDbPath entries := by
          simp [AllIn, ← hp]
        rw [hall]
        refine ⟨w₂, hloop, hsame₁.trans hsame₂, hcases.imp_left ?_⟩
        intro ⟨hin, hw₂, hpath, hidle₂⟩
        exact ⟨hin, by simpa using hw₂, hpath, fun hidle => hidle₂ (hidle₁ hidle)⟩
      · obtain ⟨w₁, hensure, hw₁, hsame₁⟩ := ensureDbHandle_detach localtime hw hp
        obtain ⟨hw₂, hsame₂⟩ := hw₁.insert entry
        obtain ⟨w₃, hloop, hw₃, hsame₃⟩ := insertLoop_detached localtime hw₂ (i + 1) entries
        rw [hensure]
        refine ⟨w₃, hloop, (hsame₁.trans hsame₂).trans hsame₃, .inr ⟨fun hall => ?_, hw₃⟩⟩
        exact hp (hall entry List.mem_cons_self).symm

/-! ## A batch -/

@[simp] theorem DbWriter.currentDbPath_commit (w : DbWriter) :
    w.commit.currentDbPath = w.currentDbPath := rfl

/-- The end of a batch whose handle is still that of the statement. -/
theorem DbWriter.Attached.finish (hw : w.Attached stmt rows) (batch : List DbEntry) :
    let w' := (w.commit.finalize stmt).giveBack batch
    w'.Quiet ∧ ∃ written, written.Sublist rows ∧
      w'.sqlite.durable = Function.update w.sqlite.durable w.currentDbPath
        (w.sqlite.durable w.currentDbPath ++ written) ∧
      (w.OthersIdle stmt → written = rows ∧ w'.AllIdle) := by
  obtain ⟨pending, hc, hsub, heq⟩ := hw.conn
  have hsqlite := Sqlite.commit_of_transaction hc rfl
  have hcommit : w.commit.sqlite = w.sqlite.commit stmt := by simp [DbWriter.commit, hw.db]
  refine ⟨⟨fun hdb => ?_, fun h hdb => ?_⟩, pending, hsub, ?_, fun hidle => ⟨heq hidle, ?_⟩⟩
  · cases hw.db.symm.trans hdb
  · obtain rfl := Option.some.inj (hw.db.symm.trans hdb)
    simp [DbWriter.giveBack, DbWriter.finalize, hcommit, hsqlite, Sqlite.finalize, Sqlite.modify,
      hw.lt]
  · simp [DbWriter.giveBack, DbWriter.finalize, hcommit, hsqlite, Sqlite.finalize]
  · intro h c hcon
    simp only [DbWriter.giveBack, DbWriter.finalize, hcommit, hsqlite, Sqlite.finalize,
      Sqlite.modify, Function.update_self, Option.map_some, Function.update_idem,
      Function.update_apply] at hcon
    split at hcon
    · obtain rfl := Option.some.inj hcon
      rfl
    · next hne => exact hidle h hne c hcon

/-- The end of a batch whose transaction was left behind. -/
theorem DbWriter.Detached.finish (hw : w.Detached stmt) (batch : List DbEntry) :
    let w' := (w.commit.finalize stmt).giveBack batch
    w'.Quiet ∧ w'.sqlite.durable = w.sqlite.durable := by
  obtain ⟨h, hdb, hne, hlt, hh⟩ := hw.db
  have hcommit : w.commit.sqlite = w.sqlite := by
    rw [DbWriter.commit, hdb]
    exact Sqlite.commit_of_idle hh rfl
  refine ⟨⟨fun hdb' => ?_, fun h' hdb' => ?_⟩, ?_⟩
  · cases hdb.symm.trans hdb'
  · obtain rfl := Option.some.inj (hdb.symm.trans hdb')
    simp [DbWriter.giveBack, DbWriter.finalize, hcommit, Sqlite.finalize, Sqlite.modify,
      Function.update_of_ne hne, hh, hlt]
  · simp [DbWriter.giveBack, DbWriter.finalize, hcommit, Sqlite.finalize]

/-- The statement and the transaction are opened on the current connection. -/
theorem DbWriter.Quiet.attach (hw : w.Quiet) (hdb : w.db = some stmt) :
    (w.beginBatch stmt).Attached stmt [] ∧ w.SameFiles (w.beginBatch stmt) ∧
      (w.AllIdle → (w.beginBatch stmt).OthersIdle stmt) := by
  obtain ⟨hlt, hc⟩ := hw.conn stmt hdb
  refine ⟨⟨hdb, hlt, [], ?_, List.Sublist.refl _, fun _ => rfl⟩, ⟨rfl, rfl⟩, ?_⟩
  · simp [DbWriter.beginBatch, Sqlite.prepare, Sqlite.beginTransaction, Sqlite.modify, hc]
  · intro hidle h hne c hcon
    refine hidle h c ?_
    simpa [DbWriter.beginBatch, Sqlite.prepare, Sqlite.beginTransaction, Sqlite.modify,
      Function.update_of_ne hne] using hcon

/-- What one batch does to the files. -/
theorem processBatch_spec (hw : w.Quiet) (batch : List DbEntry) :
    let w' := processBatch localtime .ok w batch
    w'.Quiet ∧ w'.outputDir = w.outputDir ∧
      (∀ file, AllIn localtime w.outputDir file batch → ∃ written,
        written.Sublist (batch.map DbEntry.row) ∧
        w'.sqlite.durable = Function.update w.sqlite.durable file
          (w.sqlite.durable file ++ written) ∧
        (w.AllIdle → written = batch.map DbEntry.row ∧ w'.AllIdle)) ∧
      ((∀ file, ¬AllIn localtime w.outputDir file batch) →
        w'.sqlite.durable = w.sqlite.durable) := by
  cases batch with
  | nil =>
      refine ⟨hw, rfl, fun file _ => ⟨[], List.Sublist.refl _, ?_, fun h => ⟨rfl, h⟩⟩, fun _ => rfl⟩
      simp [processBatch]
  | cons first rest =>
      obtain ⟨w₁, stmt, hensure, hw₁, hdb, hpath, hsame₁, hidle₁⟩ :=
        ensureDbHandle_quiet localtime first.timestampNs hw
      obtain ⟨hw₂, hsame₂, hidle₂⟩ := hw₁.attach hdb
      obtain ⟨w₃, hloop, hsame₃, hcases⟩ := insertLoop_attached localtime hw₂ 0 (first :: rest)
      have hsame := (hsame₁.trans hsame₂).trans hsame₃
      have hbatch : processBatch localtime .ok w (first :: rest) =
          (w₃.commit.finalize stmt).giveBack (first :: rest) := by
        simp [processBatch, BatchOutcome.ok, hensure, hdb, hloop]
      rw [hbatch]
      have hfirst : ∀ file, AllIn localtime w.outputDir file (first :: rest) →
          file = (w₁.beginBatch stmt).currentDbPath := fun file hin =>
        (hin first List.mem_cons_self).symm.trans hpath.symm
      have hdir : (w₁.beginBatch stmt).outputDir = w.outputDir := hsame₁.outputDir
      rw [hdir] at hcases
      rcases hcases with ⟨hin, hw₃, hpath₃, hidle₃⟩ | ⟨hmixed, hw₃⟩
      · obtain ⟨hquiet, written, hsub, hdurable, hall⟩ := hw₃.finish (first :: rest)
        refine ⟨hquiet, hsame.outputDir, fun file hfile => ⟨written, hsub, ?_, fun hidle => ?_⟩,
          fun hnone => absurd hin (hnone _)⟩
        · rw [hdurable, hsame.durable, hpath₃, hfirst file hfile]
        · exact hall (hidle₃ (hidle₂ (hidle₁ hidle)))
      · obtain ⟨hquiet, hdurable⟩ := hw₃.finish (first :: rest)
        refine ⟨hquiet, hsame.outputDir, fun file hfile => ?_, fun _ => ?_⟩
        · exact absurd (hfirst file hfile ▸ hfile) hmixed
        · rw [hdurable, hsame.durable]

/-- With a handle, or before the first one, `ensure_db_handle` does not fail. -/
theorem ensureDbHandle_ok (hw : w.db = none → w.currentDbPath = []) :
    ∃ w', ensureDbHandle localtime .ok w timestampNs = (w', true) ∧ w'.db ≠ none ∧
      w'.inserted = w.inserted := by
  by_cases hp : w.currentDbPath = dbPath localtime w.outputDir timestampNs
  · have hdb : w.db ≠ none := fun hdb => dbPath_ne_nil localtime timestampNs _ (hp ▸ hw hdb)
    refine ⟨w, ?_, hdb, rfl⟩
    rw [ensureDbHandle_of_eq localtime hp, Option.isSome_iff_ne_none.mpr hdb]
  · rw [ensureDbHandle_of_ne localtime hp]
    exact ⟨_, rfl, by simp, rfl⟩

variable (stmt) in
/-- The loop executes the `INSERT` for every entry. -/
theorem insertLoop_inserted (hw : w.db ≠ none) (i : Nat) (entries : List DbEntry) :
    ∃ w', insertLoop localtime (fun _ => .ok) stmt i entries w = (w', true) ∧
      w'.inserted = w.inserted ++ entries := by
  induction entries generalizing w i with
  | nil => exact ⟨w, rfl, by simp⟩
  | cons entry entries ih =>
      obtain ⟨w₁, hensure, hw₁, hins₁⟩ :=
        ensureDbHandle_ok localtime entry.timestampNs fun h => absurd h hw
      have hw₂ : (w₁.insert stmt entry).db ≠ none := hw₁
      obtain ⟨w₃, hloop, hins₃⟩ := ih hw₂ (i + 1)
      refine ⟨w₃, ?_, ?_⟩
      · rw [insertLoop, hensure]
        exact hloop
      · simp [hins₃, DbWriter.insert, hins₁]

/-- A batch whose database calls all succeed is inserted as a whole. -/
theorem inserted_processBatch (hw : w.Quiet) (batch : List DbEntry) :
    (processBatch localtime .ok w batch).inserted = w.inserted ++ batch := by
  cases batch with
  | nil => simp [processBatch]
  | cons first rest =>
      obtain ⟨w₁, hensure, hdb, hins₁⟩ := ensureDbHandle_ok localtime first.timestampNs hw.path
      obtain ⟨stmt, hstmt⟩ := Option.ne_none_iff_exists'.mp hdb
      have hbegin : (w₁.beginBatch stmt).db ≠ none := hdb
      obtain ⟨w₂, hloop, hins₂⟩ := insertLoop_inserted localtime stmt hbegin 0 (first :: rest)
      have hbatch : processBatch localtime .ok w (first :: rest) =
          (w₂.commit.finalize stmt).giveBack (first :: rest) := by
        simp [processBatch, BatchOutcome.ok, hensure, hstmt, hloop]
      calc (processBatch localtime .ok w (first :: rest)).inserted
          = w₂.inserted := by rw [hbatch]; rfl
        _ = w₁.inserted ++ first :: rest := hins₂
        _ = w.inserted ++ first :: rest := by rw [hins₁]

/-! ## A run of the loop -/

/-- The rows of the entries that belong in a file. -/
def rowsIn (outputDir file : CString) (entries : List DbEntry) : List CallStackRow :=
  (entries.filter fun entry => dbPath localtime outputDir entry.timestampNs = file).map DbEntry.row

/-- The entries of the batch belong in one file. -/
def OneFile (outputDir : CString) (batch : List DbEntry) : Prop :=
  ∃ file, AllIn localtime outputDir file batch

theorem rowsIn_append (outputDir file : CString) (entries entries' : List DbEntry) :
    rowsIn localtime outputDir file (entries ++ entries') =
      rowsIn localtime outputDir file entries ++ rowsIn localtime outputDir file entries' := by
  simp [rowsIn]

/-- The entries of a batch in one file are all that file's, and no other's. -/
theorem rowsIn_of_allIn {outputDir file : CString} {batch : List DbEntry}
    (h : AllIn localtime outputDir file batch) (file' : CString) :
    rowsIn localtime outputDir file' batch =
      if file' = file then batch.map DbEntry.row else [] := by
  split
  · next heq =>
    rw [rowsIn, List.filter_eq_self.mpr fun entry he => by simp [h entry he, heq]]
  · next hne =>
    rw [rowsIn, List.filter_eq_nil_iff.mpr fun entry he => by simp [h entry he, Ne.symm hne]]
    rfl

/-- The writer after batches whose database calls all succeed. -/
def writeBatches (w : DbWriter) (batches : List (List DbEntry)) : DbWriter :=
  processBatches localtime w (batches.map (BatchOutcome.ok, ·))

theorem writeBatches_append (w : DbWriter) (batches batches' : List (List DbEntry)) :
    writeBatches localtime w (batches ++ batches') =
      writeBatches localtime (writeBatches localtime w batches) batches' := by
  simp [writeBatches, processBatches]

/-- No batch stores more in a file than the rows of its entries there. -/
theorem length_durable_writeBatches (hw : w.Quiet) (batches : List (List DbEntry)) :
    let w' := writeBatches localtime w batches
    w'.Quiet ∧ w'.outputDir = w.outputDir ∧ ∀ file,
      (w'.sqlite.durable file).length ≤ (w.sqlite.durable file).length +
        (rowsIn localtime w.outputDir file batches.flatten).length := by
  induction batches generalizing w with
  | nil => exact ⟨hw, rfl, fun _ => by simp [writeBatches, processBatches, rowsIn]⟩
  | cons batch batches ih =>
      obtain ⟨hw₁, hdir, hone, hmixed⟩ := processBatch_spec localtime hw batch
      obtain ⟨hw₂, hdir₂, hle⟩ := ih hw₁
      refine ⟨hw₂, hdir₂.trans hdir, fun file => Nat.le_trans (hle file) ?_⟩
      rw [hdir, List.flatten_cons, rowsIn_append, List.length_append, ← Nat.add_assoc]
      refine Nat.add_le_add_right ?_ _
      by_cases hfile : OneFile localtime w.outputDir batch
      · obtain ⟨file', hin⟩ := hfile
        obtain ⟨written, hsub, hdurable, -⟩ := hone file' hin
        have := hsub.length_le
        rw [hdurable, rowsIn_of_allIn localtime hin, Function.update_apply]
        split
        · next heq => simpa [heq] using this
        · simp
      · rw [hmixed fun file hin => hfile ⟨file, hin⟩]
        exact Nat.le_add_right _ _

/-- Files that hold the rows of some entries, each in the file of its hour, go
on to do so. -/
theorem stored_writeBatches (hw : w.Quiet) {entries : List DbEntry}
    (hstored : ∀ file, w.sqlite.durable file = rowsIn localtime w.outputDir file entries)
    (batches : List (List DbEntry)) :
    let w' := writeBatches localtime w batches
    w'.Quiet ∧ w'.outputDir = w.outputDir ∧ ∃ entries', ∀ file,
      w'.sqlite.durable file = rowsIn localtime w.outputDir file entries' := by
  induction batches generalizing w entries with
  | nil => exact ⟨hw, rfl, entries, hstored⟩
  | cons batch batches ih =>
      obtain ⟨hw₁, hdir, hone, hmixed⟩ := processBatch_spec localtime hw batch
      suffices hstored₁ : ∃ entries', ∀ file,
          (processBatch localtime .ok w batch).sqlite.durable file =
            rowsIn localtime (processBatch localtime .ok w batch).outputDir file entries' by
        obtain ⟨entries₁, hstored₁⟩ := hstored₁
        obtain ⟨hw₂, hdir₂, hstored₂⟩ := ih hw₁ hstored₁
        rw [hdir] at hdir₂ hstored₂
        exact ⟨hw₂, hdir₂, hstored₂⟩
      rw [hdir]
      by_cases hfile : OneFile localtime w.outputDir batch
      · obtain ⟨file', hin⟩ := hfile
        obtain ⟨written, hsub, hdurable, -⟩ := hone file' hin
        obtain ⟨kept, hkept, rfl⟩ := List.sublist_map_iff.mp hsub
        refine ⟨entries ++ kept, fun file => ?_⟩
        rw [hdurable, rowsIn_append, rowsIn_of_allIn localtime fun entry he =>
          hin entry (hkept.subset he), Function.update_apply]
        split
        · next heq => rw [hstored, heq]
        · rw [hstored, List.append_nil]
      · refine ⟨entries, fun file => ?_⟩
        rw [hmixed fun file hin => hfile ⟨file, hin⟩]
        exact hstored file

/-- Batches that are each in one file store exactly their rows. -/
theorem durable_writeBatches (hw : w.Quiet) (hidle : w.AllIdle) (batches : List (List DbEntry))
    (hone : ∀ batch ∈ batches, OneFile localtime w.outputDir batch) (file : CString) :
    (writeBatches localtime w batches).sqlite.durable file =
      w.sqlite.durable file ++ rowsIn localtime w.outputDir file batches.flatten := by
  induction batches generalizing w with
  | nil => simp [writeBatches, processBatches, rowsIn]
  | cons batch batches ih =>
      obtain ⟨hw₁, hdir, hspec, -⟩ := processBatch_spec localtime hw batch
      obtain ⟨file', hin⟩ := hone batch List.mem_cons_self
      obtain ⟨written, -, hdurable, hall⟩ := hspec file' hin
      obtain ⟨rfl, hidle₁⟩ := hall hidle
      have hrest : ∀ b ∈ batches,
          OneFile localtime (processBatch localtime .ok w batch).outputDir b := by
        rw [hdir]
        exact fun b hb => hone b (List.mem_cons_of_mem _ hb)
      calc (writeBatches localtime w (batch :: batches)).sqlite.durable file
          = (processBatch localtime .ok w batch).sqlite.durable file ++
              rowsIn localtime w.outputDir file batches.flatten := by
            rw [← hdir]
            exact ih hw₁ hidle₁ hrest
        _ = (w.sqlite.durable file ++ rowsIn localtime w.outputDir file batch) ++
              rowsIn localtime w.outputDir file batches.flatten := by
            rw [hdurable, rowsIn_of_allIn localtime hin, Function.update_apply]
            split
            · next heq => rw [heq]
            · rw [List.append_nil]
        _ = w.sqlite.durable file ++
              rowsIn localtime w.outputDir file (batch :: batches).flatten := by
            rw [List.flatten_cons, rowsIn_append, List.append_assoc]

variable (outputDir : CString) (files : CString → List CallStackRow)

theorem DbWriter.quiet_init : (DbWriter.init outputDir files).Quiet :=
  ⟨fun _ => rfl, by simp [DbWriter.init]⟩

theorem DbWriter.allIdle_init : (DbWriter.init outputDir files).AllIdle := by
  simp [DbWriter.AllIdle, DbWriter.init]

/-- **When every entry is stored once.**  After the writer thread has processed
its batches, each file holds what it held before and the rows of the entries of
its hour, each once, if and only if no batch has entries of two hours. -/
theorem entries_stored_iff (batches : List (List DbEntry)) :
    (∀ file, List.Perm
      ((writeBatches localtime (.init outputDir files) batches).sqlite.durable file)
      (files file ++ rowsIn localtime outputDir file batches.flatten)) ↔
    ∀ batch ∈ batches, OneFile localtime outputDir batch := by
  have hinit := DbWriter.quiet_init outputDir files
  have hidle := DbWriter.allIdle_init outputDir files
  constructor
  · intro hperm batch hbatch
    by_contra hmixed
    obtain ⟨as, bs, rfl⟩ := List.append_of_mem hbatch
    cases batch with
    | nil => exact hmixed ⟨[], by simp [AllIn]⟩
    | cons entry rest =>
        let file := dbPath localtime outputDir entry.timestampNs
        obtain ⟨hw₁, hdir₁, hle₁⟩ := length_durable_writeBatches localtime hinit as
        obtain ⟨hw₂, hdir₂, -, hlost⟩ := processBatch_spec localtime hw₁ (entry :: rest)
        obtain ⟨-, -, hle₂⟩ := length_durable_writeBatches localtime hw₂ bs
        rw [hdir₁] at hdir₂ hlost
        have hle₁ := hle₁ file
        have hle₂ := hle₂ file
        rw [hdir₂, hlost fun file hin => hmixed ⟨file, hin⟩] at hle₂
        have hpos : 0 < (rowsIn localtime outputDir file (entry :: rest)).length := by
          simp [rowsIn, file]
        have hlen := (hperm file).length_eq
        simp only [writeBatches_append, List.flatten_append, List.flatten_cons, rowsIn_append,
          List.length_append] at hlen
        have hfiles : (DbWriter.init outputDir files).sqlite.durable file = files file := rfl
        have hdir : (DbWriter.init outputDir files).outputDir = outputDir := rfl
        rw [hfiles, hdir] at hle₁
        rw [hdir] at hle₂
        exact absurd (hlen ▸ hle₂) (by omega)
  · intro hone file
    rw [durable_writeBatches localtime hinit hidle batches hone file]
    exact List.Perm.refl _

end

/-! ## A batch over the full hour -/

/-- The local time of 1 January 1970 in UTC. -/
def firstDay (t : Int) : Tm := ⟨70, 0, 1, t / 3600⟩

/-- Two samples, one second before 01:00 and at 01:00. -/
def hourChange : List DbEntry :=
  [⟨0, 3599000000000, cstr "7|sh|sh[7];main"⟩, ⟨1, 3600000000000, cstr "7|sh|sh[7];main"⟩]

/-- Both inserts are executed, and no file gets a row. -/
theorem hour_change_loses_batch :
    (writeBatches firstDay (.init (cstr "/tmp") fun _ => []) [hourChange]).inserted = hourChange ∧
    (∀ file, (writeBatches firstDay (.init (cstr "/tmp") fun _ => [])
      [hourChange]).sqlite.durable file = []) ∧
    ¬∀ file, List.Perm
      ((writeBatches firstDay (.init (cstr "/tmp") fun _ => []) [hourChange]).sqlite.durable file)
      ([] ++ rowsIn firstDay (cstr "/tmp") file [hourChange].flatten) := by
  have hpath : dbPath firstDay (cstr "/tmp") 3599000000000 ≠
      dbPath firstDay (cstr "/tmp") 3600000000000 := by decide
  have hmixed : ∀ file, ¬AllIn firstDay (cstr "/tmp") file hourChange := by
    intro file hin
    exact hpath ((hin _ (.head _)).trans (hin _ (.tail _ (.head _))).symm)
  have hempty : ∀ file, (writeBatches firstDay (.init (cstr "/tmp") fun _ => [])
      [hourChange]).sqlite.durable file = [] := by
    intro file
    have hquiet := DbWriter.quiet_init (cstr "/tmp") fun _ => []
    exact congrFun ((processBatch_spec firstDay hquiet hourChange).2.2.2 hmixed) file
  refine ⟨by decide, hempty, fun hperm => ?_⟩
  have hlen := (hperm (dbPath firstDay (cstr "/tmp") 3599000000000)).length_eq
  rw [hempty] at hlen
  simp [rowsIn, hourChange] at hlen

end Profiling
