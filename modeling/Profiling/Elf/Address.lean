import Profiling.Elf.Symbols
import Profiling.Elf.Vma

/-!
# Profiling.Elf.Address

From a sampled address to a function's name: `get_relative_address` on the
memory area, then `find_symbol_name_from_elf`, as `symbolize_sample` composes
them for user-space addresses.

`LoadedImage` is an ELF file as the loader has mapped it.  The translation
yields an offset into the file, while the symbols are kept under their
virtual addresses; `names_functions_iff` says for which segment layouts that
makes no difference.
-/

namespace Profiling

def pageSize : Nat := 4096

/-- The start of the page an address lies in. -/
def pagedown (x : Nat) : Nat := x / pageSize * pageSize

/-- What is used of a `PT_LOAD` program header. -/
structure ProgramHeader where
  pOffset : Nat
  pVaddr : Nat
  pFilesz : Nat
  executable : Bool
  deriving DecidableEq, Repr

/-- `ET_EXEC` and `ET_DYN` -/
inductive ElfType where
  | exec
  | dyn
  deriving DecidableEq, Repr

/-- An image in memory: its segments, mapped at a load bias. -/
structure LoadedImage where
  elfType : ElfType
  bias : Nat
  segments : List ProgramHeader
  bias_exec : elfType = .exec → bias = 0
  bias_aligned : pageSize ∣ bias
  congruent : ∀ seg ∈ segments, seg.pVaddr % pageSize = seg.pOffset % pageSize
  /-- the segment ends inside the address space -/
  mapped : ∀ seg ∈ segments, bias + seg.pVaddr + seg.pFilesz < 2 ^ 64
  offset_lt : ∀ seg ∈ segments, seg.pOffset < 2 ^ 64

/-- The area that the loader makes of a segment, as `/proc/<pid>/maps` shows
it: it starts with the page of the segment's first byte, and covers its
file-backed range. -/
structure LoadedImage.Maps (img : LoadedImage) (seg : ProgramHeader) (vma : VirtualMemoryArea) :
    Prop where
  start_eq : vma.startAddr.toNat = img.bias + pagedown seg.pVaddr
  offset_eq : vma.fileOffset.toNat = pagedown seg.pOffset
  end_le : img.bias + seg.pVaddr + seg.pFilesz ≤ vma.endAddr.toNat

/-- The user-space path of `symbolize_sample` for an address in an area. -/
def userSymbolName (realAddr : UInt64) (vma : VirtualMemoryArea) (elf : ElfFile) : CString :=
  findSymbolNameFromElf (some elf) (getRelativeAddress realAddr (some vma))

/-- The function lies inside the segment's file-backed range. -/
def SymbolInfo.Inside (f : SymbolInfo) (seg : ProgramHeader) : Prop :=
  seg.pVaddr ≤ f.symbolStart.toNat ∧
    f.symbolStart.toNat + f.symbolSize.toNat ≤ seg.pVaddr + seg.pFilesz

/-- Every sampled address of a function in this segment gets that function's
name, whatever pairwise disjoint functions the file has. -/
def LoadedImage.NamesFunctions (img : LoadedImage) (seg : ProgramHeader) : Prop :=
  ∀ (vma : VirtualMemoryArea) (e : Elf) (stale : GElfSym) (calloc : Nat → Bool)
    (symbols : Option SymbolCollection) (f : SymbolInfo) (k : Nat),
    img.Maps seg vma → e.WellFormed → e.functions.Pairwise SymbolInfo.Apart →
    (∀ i, calloc i = true) → buildSymbolCollection e stale calloc = some symbols →
    f ∈ e.functions → f.Inside seg → k < f.symbolSize.toNat →
    userSymbolName (UInt64.ofNat (img.bias + f.symbolStart.toNat + k)) vma ⟨symbols⟩ =
      f.symbolName

section

variable {img : LoadedImage} {seg : ProgramHeader} {vma : VirtualMemoryArea} {f : SymbolInfo}
  {k : Nat}

theorem pagedown_le (x : Nat) : pagedown x ≤ x := Nat.div_mul_le_self x pageSize

/-- **The translation.**  A sampled address of a function becomes its virtual
address, less the segment's first page in memory, plus that page's offset in
the file. -/
theorem toNat_getRelativeAddress (hseg : seg ∈ img.segments) (hmaps : img.Maps seg vma)
    (hin : f.Inside seg) (hk : k < f.symbolSize.toNat) :
    (getRelativeAddress (UInt64.ofNat (img.bias + f.symbolStart.toNat + k)) (some vma)).toNat =
      (f.symbolStart.toNat + k - pagedown seg.pVaddr + pagedown seg.pOffset) % 2 ^ 64 := by
  obtain ⟨hstart, hoff, hend⟩ := hmaps
  obtain ⟨hlo, hhi⟩ := hin
  have hmapped := img.mapped seg hseg
  have hpage := pagedown_le seg.pVaddr
  obtain ⟨real, hreal⟩ : ∃ r, r = UInt64.ofNat (img.bias + f.symbolStart.toNat + k) := ⟨_, rfl⟩
  have hnat : real.toNat = img.bias + f.symbolStart.toNat + k := by
    rw [hreal, UInt64.toNat_ofNat_of_lt' (by simp only [UInt64.size]; omega)]
  have hinside : ¬(real < vma.startAddr ∨ vma.endAddr ≤ real) := by
    rw [UInt64.lt_iff_toNat_lt, UInt64.le_iff_toNat_le]
    omega
  have hle : vma.startAddr ≤ real := UInt64.le_iff_toNat_le.mpr (by omega)
  rw [← hreal, getRelativeAddress, if_neg hinside, UInt64.toNat_add,
    UInt64.toNat_sub_of_le _ _ hle, hnat, hstart, hoff]
  congr 1
  omega

/-- Where the page in memory and the page in the file have the same number,
the translated address lies in the function. -/
theorem covers_getRelativeAddress (hseg : seg ∈ img.segments) (hmaps : img.Maps seg vma)
    (hin : f.Inside seg) (hk : k < f.symbolSize.toNat)
    (hsame : pagedown seg.pVaddr = pagedown seg.pOffset) :
    f.Covers (getRelativeAddress (UInt64.ofNat (img.bias + f.symbolStart.toNat + k))
      (some vma)) := by
  have hmapped := img.mapped seg hseg
  have hpage := pagedown_le seg.pVaddr
  obtain ⟨hlo, hhi⟩ := id hin
  rw [SymbolInfo.Covers, toNat_getRelativeAddress hseg hmaps hin hk, ← hsame,
    Nat.mod_eq_of_lt (by omega)]
  omega

end

/-- A file whose only function `f` has one byte, at this address. -/
def oneFunction (addr : UInt64) : Elf where
  sections := [⟨shtSymtab, 24, 24, 0, some [⟨0, sttFunc, addr, 1⟩]⟩]
  strptr _ _ := some (cstr "f")

theorem functions_oneFunction (addr : UInt64) :
    (oneFunction addr).functions = [⟨cstr "f", addr, 1⟩] := rfl

theorem wellFormed_oneFunction (addr : UInt64) : (oneFunction addr).WellFormed := by
  intro scn hscn _
  obtain rfl := List.mem_singleton.mp hscn
  exact ⟨_, rfl, rfl, rfl, fun _ _ _ => rfl⟩

/-- The area of a segment, for a loader that maps nothing behind it. -/
def LoadedImage.area (img : LoadedImage) (seg : ProgramHeader) : VirtualMemoryArea where
  startAddr := UInt64.ofNat (img.bias + pagedown seg.pVaddr)
  endAddr := UInt64.ofNat (img.bias + seg.pVaddr + seg.pFilesz)
  vmFlags := 5
  fileOffset := UInt64.ofNat (pagedown seg.pOffset)
  mappingName := some (cstr "/usr/bin/f")
  elfFile := none

theorem LoadedImage.maps_area {img : LoadedImage} {seg : ProgramHeader}
    (hseg : seg ∈ img.segments) : img.Maps seg (img.area seg) := by
  have hmapped := img.mapped seg hseg
  have hoff := img.offset_lt seg hseg
  have hv := pagedown_le seg.pVaddr
  have ho := pagedown_le seg.pOffset
  constructor
  · exact UInt64.toNat_ofNat_of_lt' (by simp only [UInt64.size]; omega)
  · exact UInt64.toNat_ofNat_of_lt' (by simp only [UInt64.size]; omega)
  · rw [area, UInt64.toNat_ofNat_of_lt' (by simp only [UInt64.size]; omega)]

/-- The one-byte function at the start of a segment whose first page has
another number in the file is looked up where it is not. -/
theorem uncovered_oneFunction {img : LoadedImage} {seg : ProgramHeader}
    (hseg : seg ∈ img.segments) {addr : UInt64} (haddr : addr.toNat = seg.pVaddr)
    (hpos : 0 < seg.pFilesz) (hdiff : pagedown seg.pVaddr ≠ pagedown seg.pOffset) :
    ¬(SymbolInfo.mk (cstr "f") addr 1).Covers
      (getRelativeAddress (UInt64.ofNat (img.bias + addr.toNat + 0)) (some (img.area seg))) := by
  have hin : (SymbolInfo.mk (cstr "f") addr 1).Inside seg := by
    simp only [SymbolInfo.Inside, haddr, UInt64.toNat_one]
    omega
  have hmapped := img.mapped seg hseg
  have hoff := img.offset_lt seg hseg
  have hv := pagedown_le seg.pVaddr
  have ho := pagedown_le seg.pOffset
  have hrel := toNat_getRelativeAddress (k := 0) hseg (img.maps_area hseg) hin (by simp)
  simp only [SymbolInfo.Covers, haddr, UInt64.toNat_one] at hrel ⊢
  rw [hrel]
  omega

/-- An image that names every function has the same page in memory and in the
file, or has nothing there. -/
theorem layout_of_namesFunctions {img : LoadedImage} {seg : ProgramHeader}
    (hseg : seg ∈ img.segments) (h : img.NamesFunctions seg) :
    seg.pFilesz = 0 ∨ pagedown seg.pVaddr = pagedown seg.pOffset := by
  have hmapped := img.mapped seg hseg
  by_contra hnot
  obtain ⟨hpos, hdiff⟩ := not_or.mp hnot
  obtain ⟨addr, haddr⟩ : ∃ a : UInt64, a.toNat = seg.pVaddr :=
    ⟨UInt64.ofNat seg.pVaddr, UInt64.toNat_ofNat_of_lt' (by simp only [UInt64.size]; omega)⟩
  have hwf := wellFormed_oneFunction addr
  have hfun := functions_oneFunction addr
  have hin : (SymbolInfo.mk (cstr "f") addr 1).Inside seg := by
    simp only [SymbolInfo.Inside, haddr, UInt64.toNat_one]
    omega
  have hcalloc : ∀ i, (fun _ : Nat => true) i = true := fun _ => rfl
  obtain ⟨c, hc, hbuild⟩ := buildSymbolCollection_spec hcalloc ⟨0, 0, 0, 0⟩ hwf
  rw [hfun, if_neg (by simp)] at hbuild
  rw [hfun] at hc
  have hname := h (img.area seg) (oneFunction addr) _ _ _ _ 0 (img.maps_area hseg) hwf
    (by rw [hfun]; simp) (fun _ => rfl) hbuild (by rw [hfun]; simp) hin (by simp)
  have hout := uncovered_oneFunction hseg haddr (Nat.pos_of_ne_zero hpos) hdiff
  rw [userSymbolName, findSymbolName_of_uncovered hc (by simp) (by simpa using hout)] at hname
  exact absurd hname (show cstr "unknown_function" ≠ cstr "f" by decide)

theorem namesFunctions_of_layout {img : LoadedImage} {seg : ProgramHeader}
    (hseg : seg ∈ img.segments)
    (h : seg.pFilesz = 0 ∨ pagedown seg.pVaddr = pagedown seg.pOffset) :
    img.NamesFunctions seg := by
  have hmapped := img.mapped seg hseg
  intro vma e stale calloc symbols f k hmaps hwf hapart hcalloc hbuild hf hin hk
  obtain ⟨hlo, hhi⟩ := id hin
  rcases h with hzero | hsame
  · omega
  · obtain ⟨c, hc, hbuild'⟩ := buildSymbolCollection_spec hcalloc stale hwf
    rw [if_neg (List.ne_nil_of_mem hf), hbuild] at hbuild'
    obtain rfl := Option.some.inj hbuild'
    exact findSymbolName_of_covers hc hapart (fun _ => symbolSize_pos) hf
      (covers_getRelativeAddress hseg hmaps hin hk hsame) (by omega)

/-- The functions of a segment are named exactly when the segment has no
file-backed bytes, or its first page has the same number in memory and in the
file. -/
theorem namesFunctions_iff {img : LoadedImage} {seg : ProgramHeader} (hseg : seg ∈ img.segments) :
    img.NamesFunctions seg ↔
      seg.pFilesz = 0 ∨ pagedown seg.pVaddr = pagedown seg.pOffset :=
  ⟨layout_of_namesFunctions hseg, namesFunctions_of_layout hseg⟩

/-- **When functions are named.**  All functions of an image's executable
segments are named exactly when every such segment that has file-backed bytes
starts on a page with the same number in memory and in the file. -/
theorem names_functions_iff (img : LoadedImage) :
    (∀ seg ∈ img.segments, seg.executable = true → img.NamesFunctions seg) ↔
      ∀ seg ∈ img.segments, seg.executable = true →
        seg.pFilesz = 0 ∨ pagedown seg.pVaddr = pagedown seg.pOffset :=
  forall₃_congr fun _ hseg _ => namesFunctions_iff hseg

/-! ## A conventional layout -/

/-- The text segment of a position-dependent executable. -/
def textSegment : ProgramHeader := ⟨0x1000, 0x401000, 0x175, true⟩

/-- Such an executable, at the addresses it was linked for. -/
def nonPieImage : LoadedImage where
  elfType := .exec
  bias := 0
  segments := [textSegment]
  bias_exec _ := rfl
  bias_aligned := by decide
  congruent := by decide
  mapped := by decide
  offset_lt := by decide

/-- Its function `main`. -/
def mainElf : Elf where
  sections := [⟨shtSymtab, 24, 24, 0, some [⟨0, sttFunc, 0x401136, 0x16⟩]⟩]
  strptr _ _ := some (cstr "main")

/-- The first instruction of `main` is looked up at its file offset, where no
function is. -/
theorem nonPie_main_unnamed :
    nonPieImage.Maps textSegment (nonPieImage.area textSegment) ∧
    (∃ f ∈ mainElf.functions, f.symbolName = cstr "main" ∧ f.Inside textSegment ∧
      f.Covers 0x401136) ∧
    (∃ symbols, buildSymbolCollection mainElf ⟨0, 0, 0, 0⟩ (fun _ => true) = some symbols ∧
      userSymbolName 0x401136 (nonPieImage.area textSegment) ⟨symbols⟩ =
        cstr "unknown_function") ∧
    ¬nonPieImage.NamesFunctions textSegment := by
  have hseg : textSegment ∈ nonPieImage.segments := by simp [nonPieImage]
  refine ⟨LoadedImage.maps_area hseg, ⟨⟨cstr "main", 0x401136, 0x16⟩, by decide, rfl, ?_, ?_⟩,
    ⟨_, rfl, by decide⟩, ?_⟩
  · constructor <;> decide
  · constructor <;> decide
  · rw [namesFunctions_iff hseg]
    decide

end Profiling
