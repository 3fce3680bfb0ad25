import Mathlib.Data.List.Perm.Basic
import Mathlib.Data.List.Nodup

/-!
# Profiling.Ledger

A ledger of the blocks of a heap: how many were acquired, and which were released.

`Holds` is the invariant of code that acquires and releases: the blocks that are
still held are those acquired and not released, and none was released twice.  Each
operation changes what is held by one block, and nothing is left to release just
when nothing is held (`Holds.settled_iff`).
-/

namespace Profiling

/-- The blocks acquired, which are numbered from zero on, and those released. -/
structure Ledger where
  acquired : Nat
  released : List Nat
  deriving DecidableEq, Repr

namespace Ledger

/-- Before the first allocation. -/
def empty : Ledger := ⟨0, []⟩

/-- An allocation, with the block. -/
def acquire (l : Ledger) : Nat × Ledger := (l.acquired, { l with acquired := l.acquired + 1 })

/-- `free` of a block. -/
def release (l : Ledger) (block : Nat) : Ledger := { l with released := block :: l.released }

/-- `free`, which does nothing for `NULL`. -/
def releaseOption (l : Ledger) : Option Nat → Ledger
  | none => l
  | some block => l.release block

/-- Every block that was acquired has been released, exactly once. -/
def Settled (l : Ledger) : Prop := l.released.Perm (List.range l.acquired)

/-- These are the blocks that are still to be released. -/
def Holds (l : Ledger) (held : List Nat) : Prop :=
  (held ++ l.released).Perm (List.range l.acquired)

instance (l : Ledger) : Decidable l.Settled := inferInstanceAs (Decidable (List.Perm _ _))

section

variable {l : Ledger} {held held' : List Nat} {block : Nat}

theorem holds_empty : empty.Holds [] := List.Perm.refl _

theorem Holds.perm (h : l.Holds held) (hperm : held'.Perm held) : l.Holds held' :=
  (hperm.append_right _).trans h

/-- A block that was just acquired is held. -/
theorem Holds.acquire (h : l.Holds held) : l.acquire.2.Holds (l.acquire.1 :: held) := by
  rw [Holds, Ledger.acquire, List.range_succ, List.cons_append]
  exact (h.cons _).trans (List.perm_append_singleton _ _).symm

/-- A block that is held may be released. -/
theorem Holds.release (h : l.Holds (block :: held)) : (l.release block).Holds held :=
  List.perm_middle.trans h

theorem Holds.releaseOption {pointer : Option Nat} (h : l.Holds (pointer.toList ++ held)) :
    (l.releaseOption pointer).Holds held := by
  cases pointer with
  | none => exact h
  | some block => exact Holds.release h

/-- Nothing was lost just when nothing is held. -/
theorem Holds.settled_iff (h : l.Holds held) : l.Settled ↔ held = [] := by
  constructor
  · intro hsettled
    have hlength := (h.trans hsettled.symm).length_eq
    rw [List.length_append] at hlength
    exact List.length_eq_zero_iff.mp (by omega)
  · rintro rfl
    exact h

/-- No block is held twice, and none that is held was released. -/
theorem Holds.nodup (h : l.Holds held) : (held ++ l.released).Nodup :=
  h.nodup_iff.mpr List.nodup_range

theorem Holds.lt_acquired (h : l.Holds held) (hblock : block ∈ held) : block < l.acquired :=
  List.mem_range.mp (h.subset (List.mem_append_left _ hblock))

end

end Ledger

end Profiling
