import Mathlib
import Profiling.CString
import Profiling.RbTree

/-!
# Profiling.Elf.Vma

The memory areas of a process: the tree that `parse_process_memory_maps` of
`src/elf/vma.c` builds, the search in it, and `get_relative_address`.
-/

namespace Profiling

/-- `struct virtual_memory_area`; `elfFile` is the identity of the cached ELF
file, `none` for `NULL`. -/
structure VirtualMemoryArea where
  startAddr : UInt64
  endAddr : UInt64
  vmFlags : Nat
  fileOffset : UInt64
  mappingName : Option CString
  elfFile : Option Nat
  deriving DecidableEq, Repr

namespace VirtualMemoryArea

/-- What the tree is ordered by. -/
def key (vma : VirtualMemoryArea) : Nat := vma.startAddr.toNat

end VirtualMemoryArea

/-- The insertion loop of `parse_process_memory_maps`. -/
def insertVma (root : RbTree VirtualMemoryArea) (vma : VirtualMemoryArea) :
    Option (RbTree VirtualMemoryArea) :=
  RbTree.rbInsert VirtualMemoryArea.key vma root

/-- Where `find_vma_from_process` goes at a node. -/
def vmaCut (realAddr : UInt64) (vma : VirtualMemoryArea) : Ordering :=
  if realAddr < vma.startAddr then .lt
  else if vma.endAddr ≤ realAddr then .gt
  else .eq

/-- `find_vma_from_process` -/
def findVmaFromProcess (memoryMapTree : RbTree VirtualMemoryArea) (realAddr : UInt64) :
    Option VirtualMemoryArea :=
  RbTree.walk (vmaCut realAddr) memoryMapTree

/-- `get_relative_address` -/
def getRelativeAddress (realAddr : UInt64) (vma : Option VirtualMemoryArea) : UInt64 :=
  match vma with
  | none => 0
  | some vma =>
      if realAddr < vma.startAddr ∨ vma.endAddr ≤ realAddr then 0
      else realAddr - vma.startAddr + vma.fileOffset

end Profiling
