import Mathlib

/-!
# Profiling.Database.Sqlite

A transactional store behind connections, over arbitrary files and rows.

A connection belongs to one file for life.  Outside a transaction a row is
durable when it is written; inside one it is kept with the connection until
that same connection commits, and is lost if it never does.  The three rules
that a user of the store trips over are `close_of_statements` (a connection
with an unfinalized statement is not closed), `commit_of_idle` (committing on a
connection without a transaction does nothing) and `insert_of_locked` (one
transaction at a time writes to a file).
-/

namespace Profiling

/-- A connection to `file`. -/
structure Connection (κ ρ : Type) where
  file : κ
  inTransaction : Bool
  /-- the rows that the open transaction has written -/
  pending : List ρ
  /-- the statements that are prepared and not finalized -/
  statements : Nat
  deriving DecidableEq, Repr

/-- The open connections, the next handle, and what is on disk. -/
structure Sqlite (κ ρ : Type) where
  connections : Nat → Option (Connection κ ρ)
  fresh : Nat
  durable : κ → List ρ

namespace Sqlite

section Calls

variable {κ ρ : Type} (db : Sqlite κ ρ) (h : Nat)

/-! ## The calls -/

/-- A new connection; its handle is `db.fresh`. -/
def openFile (file : κ) : Sqlite κ ρ :=
  { db with
    connections := Function.update db.connections db.fresh (some ⟨file, false, [], 0⟩)
    fresh := db.fresh + 1 }

/-- Change an open connection. -/
def modify (f : Connection κ ρ → Connection κ ρ) : Sqlite κ ρ :=
  { db with connections := Function.update db.connections h ((db.connections h).map f) }

/-- Refused while a statement is unfinalized; else what is pending is lost. -/
def close : Sqlite κ ρ :=
  match db.connections h with
  | some c =>
      if c.statements = 0 then { db with connections := Function.update db.connections h none }
      else db
  | none => db

def prepare : Sqlite κ ρ := db.modify h fun c => { c with statements := c.statements + 1 }

def finalize : Sqlite κ ρ := db.modify h fun c => { c with statements := c.statements - 1 }

/-- A second `BEGIN` is an error and changes nothing. -/
def beginTransaction : Sqlite κ ρ := db.modify h fun c => { c with inTransaction := true }

variable [DecidableEq κ]

/-- What is pending becomes durable. -/
def commit : Sqlite κ ρ :=
  match db.connections h with
  | some c =>
      if c.inTransaction then
        { db with
          connections := Function.update db.connections h
            (some { c with inTransaction := false, pending := [] })
          durable := Function.update db.durable c.file (db.durable c.file ++ c.pending) }
      else db
  | none => db

/-- Another connection has written to the file and not committed. -/
def locked (file : κ) : Bool :=
  (List.range db.fresh).any fun h' =>
    h' ≠ h && (db.connections h').any fun c => c.file = file && c.pending ≠ []

/-- Run a prepared `INSERT` once; it is refused while the file is locked. -/
def insert (row : ρ) : Sqlite κ ρ :=
  match db.connections h with
  | some c =>
      if db.locked h c.file then db
      else if c.inTransaction then
        { db with
          connections := Function.update db.connections h
            (some { c with pending := c.pending ++ [row] }) }
      else { db with durable := Function.update db.durable c.file (db.durable c.file ++ [row]) }
  | none => db

end Calls

/-! ## What the calls do -/

section Specs

variable {κ ρ : Type} {db : Sqlite κ ρ} {h : Nat} {c : Connection κ ρ}

@[simp] theorem durable_openFile (file : κ) : (db.openFile file).durable = db.durable := rfl

@[simp] theorem durable_modify (f : Connection κ ρ → Connection κ ρ) :
    (db.modify h f).durable = db.durable := rfl

@[simp] theorem fresh_modify (f : Connection κ ρ → Connection κ ρ) :
    (db.modify h f).fresh = db.fresh := rfl

@[simp] theorem durable_close (h : Nat) : (db.close h).durable = db.durable := by
  unfold close
  grind

@[simp] theorem fresh_close (h : Nat) : (db.close h).fresh = db.fresh := by
  unfold close
  grind

/-- Closing a connection leaves the others alone. -/
theorem connections_close_of_ne {h' : Nat} (hne : h' ≠ h) :
    (db.close h).connections h' = db.connections h' := by
  unfold close
  split
  · split
    · exact Function.update_of_ne hne _ _
    · rfl
  · rfl

/-- Closing only takes a connection away. -/
theorem connections_of_close {h' : Nat} (hc : (db.close h).connections h' = some c) :
    db.connections h' = some c := by
  unfold close at hc
  split at hc
  · split at hc
    · simp only [Function.update_apply] at hc
      split at hc
      · contradiction
      · exact hc
    · exact hc
  · exact hc

/-- A connection with an unfinalized statement stays open. -/
theorem close_of_statements (hc : db.connections h = some c) (hs : c.statements ≠ 0) :
    db.close h = db := by
  simp [close, hc, hs]

variable [DecidableEq κ]

theorem commit_of_transaction (hc : db.connections h = some c) (ht : c.inTransaction = true) :
    db.commit h =
      { db with
        connections := Function.update db.connections h
          (some { c with inTransaction := false, pending := [] })
        durable := Function.update db.durable c.file (db.durable c.file ++ c.pending) } := by
  simp [commit, hc, ht]

/-- Without a transaction there is nothing to commit. -/
theorem commit_of_idle (hc : db.connections h = some c) (ht : c.inTransaction = false) :
    db.commit h = db := by
  simp [commit, hc, ht]

/-- While the file is locked nothing is written. -/
theorem insert_of_locked (hc : db.connections h = some c) (hl : db.locked h c.file = true)
    (row : ρ) : db.insert h row = db := by
  simp [insert, hc, hl]

theorem insert_of_transaction (hc : db.connections h = some c) (ht : c.inTransaction = true)
    (hl : db.locked h c.file = false) (row : ρ) :
    db.insert h row =
      { db with
        connections := Function.update db.connections h
          (some { c with pending := c.pending ++ [row] }) } := by
  simp [insert, hc, ht, hl]

/-- A file is unlocked when no other connection has anything pending. -/
theorem locked_eq_false (hother : ∀ h' ≠ h, ∀ c, db.connections h' = some c → c.pending = [])
    (file : κ) : db.locked h file = false := by
  simp only [locked, List.any_eq_false, Bool.and_eq_true, not_and, decide_eq_true_eq]
  intro h' _ hne
  cases hc : db.connections h' with
  | none => simp
  | some c => simp [hother h' hne c hc]

/-- Inside a transaction an insert makes nothing durable, and adds at most its
row to what is pending. -/
theorem insert_spec (hc : db.connections h = some c) (ht : c.inTransaction = true) (row : ρ) :
    ∃ rows, rows.Sublist [row] ∧ (db.locked h c.file = false → rows = [row]) ∧
      db.insert h row =
        { db with
          connections := Function.update db.connections h
            (some { c with pending := c.pending ++ rows }) } := by
  cases hl : db.locked h c.file with
  | true =>
      refine ⟨[], List.nil_sublist _, by simp, ?_⟩
      rw [insert_of_locked hc hl, List.append_nil, ← hc, Function.update_eq_self]
  | false => exact ⟨[row], List.Sublist.refl _, fun _ => rfl, insert_of_transaction hc ht hl row⟩

end Specs

end Sqlite

end Profiling
