import Profiling.Elf.Vma
import Profiling.RbTree.Rebalance

/-!
# Profiling.Elf.Vma.Search

`find_vma_from_process` over the tree of memory areas that are disjoint.

The insertion compares the starts only and the search both ends.  On disjoint
areas that are not empty the answers of the search turn once along the in-order
sequence, so it finds the area around an address in whatever shape the tree has
(`findVmaFromProcess_insertAll`).
-/

namespace Profiling

open RbTree

namespace VirtualMemoryArea

/-- The address is in the range `[start, end)`. -/
def Covers (vma : VirtualMemoryArea) (addr : UInt64) : Prop :=
  vma.startAddr ≤ addr ∧ addr < vma.endAddr

instance (vma : VirtualMemoryArea) (addr : UInt64) : Decidable (vma.Covers addr) :=
  inferInstanceAs (Decidable (_ ∧ _))

/-- The range is not empty. -/
def Nonempty (vma : VirtualMemoryArea) : Prop := vma.startAddr < vma.endAddr

/-- No address is in both ranges. -/
def Disjoint (a b : VirtualMemoryArea) : Prop := ∀ addr, ¬(a.Covers addr ∧ b.Covers addr)

variable {a b vma : VirtualMemoryArea} {addr : UInt64}

theorem Disjoint.symm (h : a.Disjoint b) : b.Disjoint a := fun addr hboth => h addr hboth.symm

/-- Of two disjoint areas, the one that starts first ends where the other starts,
or before. -/
theorem Disjoint.end_le (h : a.Disjoint b) (hb : b.Nonempty) (hle : a.startAddr ≤ b.startAddr) :
    a.endAddr ≤ b.startAddr := by
  refine UInt64.not_lt.mp fun hlt => ?_
  exact h b.startAddr ⟨⟨hle, hlt⟩, UInt64.le_refl _, hb⟩

end VirtualMemoryArea

section

variable {rebalance : Rebalancing VirtualMemoryArea} {tree : RbTree VirtualMemoryArea}
  {vma : VirtualMemoryArea} {realAddr : UInt64}

/-- The search stops at an area just if it is around the address. -/
theorem vmaCut_eq_iff : vmaCut realAddr vma = .eq ↔ vma.Covers realAddr := by
  rw [vmaCut, VirtualMemoryArea.Covers]
  split
  · next hlt => simp [UInt64.not_le.mpr hlt]
  · next hge =>
    split
    · next hend => simp [UInt64.not_lt.mpr hend]
    · next hend => simp [UInt64.not_lt.mp hge, UInt64.not_le.mp hend]

/-- In a tree of disjoint areas, the area around an address is found. -/
theorem findVmaFromProcess_of_covers (hsorted : tree.Sorted VirtualMemoryArea.key)
    (hne : ∀ a ∈ tree.toList, a.Nonempty)
    (hdisjoint : tree.toList.Pairwise VirtualMemoryArea.Disjoint) (hvma : vma ∈ tree.toList)
    (hcovers : vma.Covers realAddr) : findVmaFromProcess tree realAddr = some vma := by
  obtain ⟨as, bs, hsplit⟩ := List.append_of_mem hvma
  rw [Sorted, hsplit] at hsorted
  rw [hsplit] at hdisjoint hne
  obtain ⟨-, hsorted', hfront⟩ := List.pairwise_append.mp hsorted
  obtain ⟨-, hdisjoint', hapart⟩ := List.pairwise_append.mp hdisjoint
  have hself : vma.Nonempty := hne vma (by simp)
  refine walk_of_split hsplit (fun a ha => ?_) (vmaCut_eq_iff.mpr hcovers) fun b hb => ?_
  · -- an area in front ends at or below the start of the one around the address
    have hle : a.startAddr ≤ vma.startAddr :=
      UInt64.le_iff_toNat_le.mpr (hfront a ha vma List.mem_cons_self)
    have hend : a.endAddr ≤ vma.startAddr :=
      (hapart a ha vma List.mem_cons_self).end_le hself hle
    have hstart : ¬realAddr < a.startAddr :=
      UInt64.not_lt.mpr (UInt64.le_trans hle hcovers.1)
    rw [vmaCut, if_neg hstart, if_pos (UInt64.le_trans hend hcovers.1)]
  · -- and one behind starts at or above its end
    have hle : vma.startAddr ≤ b.startAddr :=
      UInt64.le_iff_toNat_le.mpr (List.rel_of_pairwise_cons hsorted' hb)
    have hend : vma.endAddr ≤ b.startAddr :=
      (List.rel_of_pairwise_cons hdisjoint' hb).end_le (hne b (by simp [hb])) hle
    rw [vmaCut, if_pos (UInt64.lt_of_lt_of_le hcovers.2 hend)]

/-- Where no area is around the address, none is found. -/
theorem findVmaFromProcess_of_not_covers (h : ∀ vma ∈ tree.toList, ¬vma.Covers realAddr) :
    findVmaFromProcess tree realAddr = none :=
  walk_eq_none fun vma hvma heq => h vma hvma (vmaCut_eq_iff.mp heq)

/-- The address is in the area, so it is taken relative to it. -/
theorem getRelativeAddress_of_covers (h : vma.Covers realAddr) :
    ¬(realAddr < vma.startAddr ∨ vma.endAddr ≤ realAddr) ∧
      getRelativeAddress realAddr (some vma) = realAddr - vma.startAddr + vma.fileOffset := by
  have hin : ¬(realAddr < vma.startAddr ∨ vma.endAddr ≤ realAddr) :=
    not_or.mpr ⟨UInt64.not_lt.mpr h.1, UInt64.not_le.mpr h.2⟩
  exact ⟨hin, by rw [getRelativeAddress, if_neg hin]⟩

/-- **Looking up an address.**  In the tree of disjoint areas that are not empty,
inserted in any order with any rebalancing, the area around the address is found,
the only one, or none if there is none; and the address is taken relative to it. -/
theorem findVmaFromProcess_insertAll (hkeeps : KeepsSequence rebalance)
    (vmas : List VirtualMemoryArea) (hne : ∀ vma ∈ vmas, vma.Nonempty)
    (hdisjoint : vmas.Pairwise VirtualMemoryArea.Disjoint) (realAddr : UInt64) :
    let tree := insertAll rebalance VirtualMemoryArea.key vmas
    (∀ vma ∈ vmas, vma.Covers realAddr → findVmaFromProcess tree realAddr = some vma ∧
      ∀ other ∈ vmas, other.Covers realAddr → other = vma) ∧
    ((∀ vma ∈ vmas, ¬vma.Covers realAddr) → findVmaFromProcess tree realAddr = none) ∧
    ∀ vma, findVmaFromProcess tree realAddr = some vma →
      vma ∈ vmas ∧ vma.Covers realAddr ∧
        ¬(realAddr < vma.startAddr ∨ vma.endAddr ≤ realAddr) ∧
        getRelativeAddress realAddr (some vma) = realAddr - vma.startAddr + vma.fileOffset := by
  intro tree
  obtain ⟨hsorted, hperm⟩ : tree.Sorted VirtualMemoryArea.key ∧ tree.toList.Perm vmas :=
    insertAll_spec hkeeps vmas
  have hmem : ∀ vma, vma ∈ tree.toList ↔ vma ∈ vmas := fun vma => hperm.mem_iff
  have hne' : ∀ a ∈ tree.toList, a.Nonempty := fun a ha => hne a ((hmem a).mp ha)
  have hdisjoint' : tree.toList.Pairwise VirtualMemoryArea.Disjoint :=
    (hperm.pairwise_iff fun h => h.symm).mpr hdisjoint
  have hfind : ∀ vma ∈ vmas, vma.Covers realAddr → findVmaFromProcess tree realAddr = some vma :=
    fun vma hvma => findVmaFromProcess_of_covers hsorted hne' hdisjoint' ((hmem vma).mpr hvma)
  refine ⟨fun vma hvma hcovers => ⟨hfind vma hvma hcovers, fun other hother hother' => ?_⟩,
    fun hnone => ?_, fun vma hfound => ?_⟩
  · exact Option.some.inj ((hfind other hother hother').symm.trans (hfind vma hvma hcovers))
  · exact findVmaFromProcess_of_not_covers fun vma hvma => hnone vma ((hmem vma).mp hvma)
  · obtain ⟨hin, hcut⟩ := walk_eq_some hfound
    have hcovers := vmaCut_eq_iff.mp hcut
    exact ⟨(hmem vma).mp hin, hcovers, getRelativeAddress_of_covers hcovers⟩

end

/-- An area without a name. -/
def anonymousVma (startAddr endAddr fileOffset : UInt64) : VirtualMemoryArea where
  startAddr := startAddr
  endAddr := endAddr
  vmFlags := 5
  fileOffset := fileOffset
  mappingName := none
  elfFile := none

/-- Two adjacent areas, the one behind inserted first. -/
theorem findVmaFromProcess_adjacent :
    findVmaFromProcess
        (insertAll repaired VirtualMemoryArea.key
          [anonymousVma 0x2000 0x3000 0x400, anonymousVma 0x1000 0x2000 0]) 0x2000 =
      some (anonymousVma 0x2000 0x3000 0x400) := by
  have hdisjoint : (anonymousVma 0x2000 0x3000 0x400).Disjoint (anonymousVma 0x1000 0x2000 0) := by
    rintro addr ⟨⟨hstart, -⟩, -, hend⟩
    exact UInt64.not_le.mpr hend hstart
  have hfind := findVmaFromProcess_insertAll keepsSequence_repaired
    [anonymousVma 0x2000 0x3000 0x400, anonymousVma 0x1000 0x2000 0]
    (by simp [VirtualMemoryArea.Nonempty, anonymousVma]) (by simpa using hdisjoint) 0x2000
  exact (hfind.1 _ List.mem_cons_self (by decide)).1

end Profiling
