import Mathlib
import Profiling.CString
import Profiling.RbTree

/-!
# Profiling.Elf.Symbols

Function symbols: collecting them from an ELF file (`process_symbol_section`
and `build_symbol_collection` of `src/elf/elf.c`) and finding the one that
contains an address (`src/elf/symbol_table.c`).

libelf is the data it returns: a section's symbol table as `elf_getdata` and
`gelf_getsym` give it, and the string that `elf_strptr` finds at an offset.
Collecting is `none` where the C code divides by zero or passes `NULL` to
`strdup`.
-/

namespace Profiling

/-- `struct symbol_info` -/
structure SymbolInfo where
  symbolName : CString
  symbolStart : UInt64
  symbolSize : UInt64
  deriving DecidableEq, Repr

/-- `struct elf_symbol_collection` -/
structure SymbolCollection where
  totalSymbols : Nat
  symbolTree : RbTree SymbolInfo

/-- What the tree is ordered by. -/
def SymbolInfo.key (sym : SymbolInfo) : Nat := sym.symbolStart.toNat

/-- What `find_symbol_name_from_elf` uses of `struct elf_file`; `none` is a
`NULL` collection. -/
structure ElfFile where
  symbols : Option SymbolCollection

/-! ## Collecting -/

/-- `GElf_Sym` -/
structure GElfSym where
  stName : Nat
  stInfo : Nat
  stValue : UInt64
  stSize : UInt64
  deriving DecidableEq, Repr

/-- A section with what `elf_getdata` returns for it. -/
structure ElfSection where
  shType : Nat
  shSize : Nat
  shEntsize : Nat
  shLink : Nat
  data : Option (List GElfSym)

/-- An open libelf handle. -/
structure Elf where
  sections : List ElfSection
  strptr : Nat → Nat → Option CString

def shtSymtab : Nat := 2
def shtDynsym : Nat := 11
def sttFunc : Nat := 2

/-- `shdr.sh_type == SHT_SYMTAB || shdr.sh_type == SHT_DYNSYM` -/
def ElfSection.isSymbolTable (scn : ElfSection) : Prop :=
  scn.shType = shtSymtab ∨ scn.shType = shtDynsym

instance (scn : ElfSection) : Decidable scn.isSymbolTable := inferInstanceAs (Decidable (_ ∨ _))

/-- `GELF_ST_TYPE(sym.st_info) == STT_FUNC && sym.st_size > 0` -/
def GElfSym.isFunction (sym : GElfSym) : Prop := sym.stInfo % 16 = sttFunc ∧ 0 < sym.stSize

instance (sym : GElfSym) : Decidable sym.isFunction := inferInstanceAs (Decidable (_ ∧ _))

/-- `insert_symbol_into_tree` -/
def insertSymbolIntoTree (root : RbTree SymbolInfo) (newSym : SymbolInfo) :
    Option (RbTree SymbolInfo) :=
  RbTree.rbInsert SymbolInfo.key newSym root

/-- The loop of `process_symbol_section` over the indices.  `sym` is the local
that `gelf_getsym` leaves alone beyond the data, and `calloc` the outcome of
each allocation. -/
def symbolLoop (e : Elf) (shLink : Nat) (syms : List GElfSym) (calloc : Nat → Bool) :
    List Nat → GElfSym → SymbolCollection → Option SymbolCollection
  | [], _, symbols => some symbols
  | i :: is, sym, symbols =>
      let sym := syms.getD i sym
      if sym.isFunction then
        if calloc i then
          (e.strptr shLink sym.stName).bind fun name =>
            (insertSymbolIntoTree symbols.symbolTree ⟨name, sym.stValue, sym.stSize⟩).bind
              fun tree =>
                symbolLoop e shLink syms calloc is sym ⟨symbols.totalSymbols + 1, tree⟩
        else symbolLoop e shLink syms calloc is sym symbols
      else symbolLoop e shLink syms calloc is sym symbols

/-- `process_symbol_section` -/
def processSymbolSection (e : Elf) (scn : ElfSection) (stale : GElfSym) (calloc : Nat → Bool)
    (symbols : SymbolCollection) : Option SymbolCollection :=
  match scn.data with
  | none => some symbols
  | some syms =>
      if scn.shEntsize = 0 then none
      else
        symbolLoop e scn.shLink syms calloc (List.range (scn.shSize / scn.shEntsize)) stale symbols

/-- The loop of `build_symbol_collection` over the sections. -/
def sectionLoop (e : Elf) (stale : GElfSym) (calloc : Nat → Bool) :
    List ElfSection → SymbolCollection → Option SymbolCollection
  | [], symbols => some symbols
  | scn :: scns, symbols =>
      if scn.isSymbolTable then
        (processSymbolSection e scn stale calloc symbols).bind fun symbols =>
          sectionLoop e stale calloc scns symbols
      else sectionLoop e stale calloc scns symbols

/-- `build_symbol_collection`; the inner `none` is `NULL`. -/
def buildSymbolCollection (e : Elf) (stale : GElfSym) (calloc : Nat → Bool) :
    Option (Option SymbolCollection) :=
  (sectionLoop e stale calloc e.sections ⟨0, .nil⟩).map fun symbols =>
    if symbols.totalSymbols = 0 then none else some symbols

/-! ## Finding -/

/-- Where `rb_search_symbol` goes at a node. -/
def symbolCut (addr : UInt64) (sym : SymbolInfo) : Ordering :=
  if sym.symbolStart ≤ addr ∧ addr < sym.symbolStart + sym.symbolSize then .eq
  else if addr < sym.symbolStart then .lt
  else .gt

/-- `rb_search_symbol` -/
def rbSearchSymbol (root : RbTree SymbolInfo) (addr : UInt64) : Option SymbolInfo :=
  RbTree.walk (symbolCut addr) root

/-- `find_symbol_name_from_elf` -/
def findSymbolNameFromElf (elf : Option ElfFile) (relativeAddress : UInt64) : CString :=
  match elf.bind (·.symbols) with
  | none => cstr "unknown_elf_or_no_symbols"
  | some symbols =>
      if symbols.totalSymbols = 0 then cstr "unknown_elf_or_no_symbols"
      else
        match rbSearchSymbol symbols.symbolTree relativeAddress with
        | some sym => sym.symbolName
        | none => cstr "unknown_function"

/-! ## What a file's functions are -/

/-- The function symbols among these entries whose names are valid. -/
def functionSymbols (e : Elf) (shLink : Nat) (syms : List GElfSym) : List SymbolInfo :=
  (syms.filter (·.isFunction)).filterMap fun sym =>
    (e.strptr shLink sym.stName).map fun name => ⟨name, sym.stValue, sym.stSize⟩

theorem functionSymbols_cons_of_isFunction {e : Elf} {shLink : Nat} {sym : GElfSym}
    {syms : List GElfSym} {name : CString} (h : sym.isFunction)
    (hname : e.strptr shLink sym.stName = some name) :
    functionSymbols e shLink (sym :: syms) =
      ⟨name, sym.stValue, sym.stSize⟩ :: functionSymbols e shLink syms := by
  simp [functionSymbols, h, hname]

theorem functionSymbols_cons_of_not {e : Elf} {shLink : Nat} {sym : GElfSym}
    {syms : List GElfSym} (h : ¬sym.isFunction) :
    functionSymbols e shLink (sym :: syms) = functionSymbols e shLink syms := by
  simp [functionSymbols, h]

/-- The function symbols of a section. -/
def ElfSection.functions (e : Elf) (scn : ElfSection) : List SymbolInfo :=
  functionSymbols e scn.shLink (scn.data.getD [])

/-- The function symbols of a file. -/
def Elf.functions (e : Elf) : List SymbolInfo :=
  (e.sections.filter (·.isSymbolTable)).flatMap (·.functions e)

/-- A symbol table as a linker writes it: 24-byte entries that fill the
section, and names that exist. -/
structure ElfSection.WellFormed (e : Elf) (scn : ElfSection) (syms : List GElfSym) : Prop where
  data_eq : scn.data = some syms
  entsize_eq : scn.shEntsize = 24
  size_eq : scn.shSize = 24 * syms.length
  named : ∀ sym ∈ syms, sym.isFunction → (e.strptr scn.shLink sym.stName).isSome

/-- All symbol tables of the file are well formed. -/
def Elf.WellFormed (e : Elf) : Prop :=
  ∀ scn ∈ e.sections, scn.isSymbolTable → ∃ syms, scn.WellFormed e syms

/-- The address lies in the symbol's range. -/
def SymbolInfo.Covers (sym : SymbolInfo) (addr : UInt64) : Prop :=
  sym.symbolStart.toNat ≤ addr.toNat ∧
    addr.toNat < sym.symbolStart.toNat + sym.symbolSize.toNat

/-- The two symbols' ranges do not meet. -/
def SymbolInfo.Apart (f g : SymbolInfo) : Prop :=
  f.symbolStart.toNat + f.symbolSize.toNat ≤ g.symbolStart.toNat ∨
    g.symbolStart.toNat + g.symbolSize.toNat ≤ f.symbolStart.toNat

/-! ## The search -/

section Search

variable {addr : UInt64} {f g : SymbolInfo} {root : RbTree SymbolInfo}

theorem SymbolInfo.Apart.symm (h : f.Apart g) : g.Apart f := Or.symm h

/-- A search stops only at a symbol that covers the address. -/
theorem covers_of_symbolCut (h : symbolCut addr f = .eq) : f.Covers addr := by
  unfold symbolCut at h
  split at h
  · next hin =>
    obtain ⟨hlo, hhi⟩ := hin
    rw [UInt64.le_iff_toNat_le] at hlo
    rw [UInt64.lt_iff_toNat_lt, UInt64.toNat_add] at hhi
    exact ⟨hlo, by omega⟩
  · split at h <;> contradiction

/-- It does stop there when the range does not wrap. -/
theorem symbolCut_eq (h : f.Covers addr)
    (hwrap : f.symbolStart.toNat + f.symbolSize.toNat < 2 ^ 64) : symbolCut addr f = .eq := by
  obtain ⟨hlo, hhi⟩ := h
  have hin : f.symbolStart ≤ addr ∧ addr < f.symbolStart + f.symbolSize := by
    rw [UInt64.le_iff_toNat_le, UInt64.lt_iff_toNat_lt, UInt64.toNat_add, Nat.mod_eq_of_lt hwrap]
    exact ⟨hlo, hhi⟩
  rw [symbolCut, if_pos hin]

/-- From a symbol that starts behind the address the search goes left. -/
theorem symbolCut_lt (h : addr.toNat < f.symbolStart.toNat) : symbolCut addr f = .lt := by
  have hlt : addr < f.symbolStart := UInt64.lt_iff_toNat_lt.mpr h
  have hout : ¬(f.symbolStart ≤ addr ∧ addr < f.symbolStart + f.symbolSize) := by
    rw [UInt64.le_iff_toNat_le]
    omega
  rw [symbolCut, if_neg hout, if_pos hlt]

/-- From a symbol that ends before the address it goes right. -/
theorem symbolCut_gt (h : f.symbolStart.toNat + f.symbolSize.toNat ≤ addr.toNat) :
    symbolCut addr f = .gt := by
  have := addr.toNat_lt
  have hlt : ¬addr < f.symbolStart := by
    rw [UInt64.lt_iff_toNat_lt]
    omega
  have hout : ¬(f.symbolStart ≤ addr ∧ addr < f.symbolStart + f.symbolSize) := by
    rw [UInt64.lt_iff_toNat_lt, UInt64.toNat_add, Nat.mod_eq_of_lt (by omega)]
    omega
  rw [symbolCut, if_neg hout, if_neg hlt]

/-- **The search finds the symbol** that covers the address, when the ranges
in the tree do not meet. -/
theorem rbSearchSymbol_of_covers (hsorted : root.Sorted SymbolInfo.key)
    (hapart : root.toList.Pairwise SymbolInfo.Apart) (hpos : ∀ s ∈ root.toList, 0 < s.symbolSize)
    (hf : f ∈ root.toList) (hcov : f.Covers addr)
    (hwrap : f.symbolStart.toNat + f.symbolSize.toNat < 2 ^ 64) :
    rbSearchSymbol root addr = some f := by
  obtain ⟨as, bs, hsplit⟩ := List.append_of_mem hf
  rw [RbTree.Sorted] at hsorted
  rw [hsplit] at hsorted hapart hpos
  obtain ⟨-, hsf, hsa⟩ := List.pairwise_append.mp hsorted
  obtain ⟨-, haf, haa⟩ := List.pairwise_append.mp hapart
  refine RbTree.walk_of_split hsplit (fun a ha => ?_) (symbolCut_eq hcov hwrap) fun b hb => ?_
  · have hle : a.symbolStart.toNat ≤ f.symbolStart.toNat := hsa a ha f (by simp)
    have hap : a.Apart f := haa a ha f (by simp)
    have hsz := UInt64.lt_iff_toNat_lt.mp (hpos f (by simp))
    obtain ⟨hlo, -⟩ := hcov
    refine symbolCut_gt ?_
    rw [SymbolInfo.Apart] at hap
    simp only [UInt64.toNat_zero] at hsz
    omega
  · have hle : f.symbolStart.toNat ≤ b.symbolStart.toNat := (List.pairwise_cons.mp hsf).1 b hb
    have hap : f.Apart b := (List.pairwise_cons.mp haf).1 b hb
    have hsz := UInt64.lt_iff_toNat_lt.mp (hpos b (by simp [hb]))
    obtain ⟨-, hhi⟩ := hcov
    refine symbolCut_lt ?_
    rw [SymbolInfo.Apart] at hap
    simp only [UInt64.toNat_zero] at hsz
    omega

/-- Where no symbol covers the address, none is found. -/
theorem rbSearchSymbol_eq_none (h : ∀ s ∈ root.toList, ¬s.Covers addr) :
    rbSearchSymbol root addr = none :=
  RbTree.walk_eq_none fun s hs hcut => h s hs (covers_of_symbolCut hcut)

end Search

/-! ## The tree that is built -/

/-- A collection whose tree is a sorted red-black tree of these symbols. -/
structure SymbolCollection.Holds (c : SymbolCollection) (syms : List SymbolInfo) : Prop where
  color_eq : c.symbolTree.color = .black
  sorted : c.symbolTree.Sorted SymbolInfo.key
  perm : c.symbolTree.toList.Perm syms
  total_eq : c.totalSymbols = syms.length

section Build

variable {e : Elf} {calloc : Nat → Bool} {c : SymbolCollection} {syms : List SymbolInfo}

/-- Inserting one symbol. -/
theorem SymbolCollection.Holds.insert (h : c.Holds syms) (sym : SymbolInfo) :
    ∃ tree, insertSymbolIntoTree c.symbolTree sym = some tree ∧
      (SymbolCollection.mk (c.totalSymbols + 1) tree).Holds (syms ++ [sym]) := by
  obtain ⟨tree, as, bs, hins, hblack, hsorted, hold, hnew, -, -⟩ :=
    RbTree.rbInsert_spec (x := sym) h.color_eq h.sorted
  refine ⟨tree, hins, hblack, hsorted, ?_, by simp [h.total_eq]⟩
  have hperm := h.perm
  rw [hold] at hperm
  rw [hnew]
  exact List.perm_middle.trans ((hperm.cons sym).trans (List.perm_append_singleton sym syms).symm)

/-- The loop over a whole table adds its function symbols. -/
theorem symbolLoop_spec {shLink : Nat} {table : List GElfSym} (hcalloc : ∀ i, calloc i = true)
    (hnamed : ∀ sym ∈ table, sym.isFunction → (e.strptr shLink sym.stName).isSome)
    (k m : Nat) (hkm : k + m = table.length) (sym : GElfSym) (h : c.Holds syms) :
    ∃ c', symbolLoop e shLink table calloc (List.range' k m) sym c = some c' ∧
      c'.Holds (syms ++ functionSymbols e shLink (table.drop k)) := by
  induction m generalizing k sym c syms with
  | zero =>
      refine ⟨c, rfl, ?_⟩
      rw [List.drop_eq_nil_of_le (by omega)]
      simpa [functionSymbols] using h
  | succ m ih =>
      have hk : k < table.length := by omega
      have hget : table.getD k sym = table[k] := by simp [hk]
      rw [List.range'_succ, symbolLoop, hget, List.drop_eq_getElem_cons hk]
      by_cases hfun : table[k].isFunction
      · obtain ⟨name, hname⟩ := Option.isSome_iff_exists.mp (hnamed _ (List.getElem_mem hk) hfun)
        obtain ⟨tree, hins, hholds⟩ := h.insert ⟨name, table[k].stValue, table[k].stSize⟩
        obtain ⟨c', hloop, hc'⟩ := ih (k + 1) (by omega) table[k] hholds
        refine ⟨c', by simp [hfun, hcalloc k, hname, hins, hloop], ?_⟩
        rw [functionSymbols_cons_of_isFunction hfun hname]
        simpa using hc'
      · obtain ⟨c', hloop, hc'⟩ := ih (k + 1) (by omega) table[k] h
        refine ⟨c', by simp [hfun, hloop], ?_⟩
        rw [functionSymbols_cons_of_not hfun]
        exact hc'

theorem processSymbolSection_spec {scn : ElfSection} {table : List GElfSym}
    (hcalloc : ∀ i, calloc i = true) (hscn : scn.WellFormed e table) (stale : GElfSym)
    (h : c.Holds syms) :
    ∃ c', processSymbolSection e scn stale calloc c = some c' ∧
      c'.Holds (syms ++ scn.functions e) := by
  have hcount : scn.shSize / scn.shEntsize = table.length := by
    rw [hscn.entsize_eq, hscn.size_eq]
    omega
  obtain ⟨c', hloop, hc'⟩ :=
    symbolLoop_spec hcalloc hscn.named 0 table.length (Nat.zero_add _) stale h
  refine ⟨c', ?_, by simpa [ElfSection.functions, hscn.data_eq] using hc'⟩
  rw [processSymbolSection, hscn.data_eq]
  dsimp only
  rw [hcount, hscn.entsize_eq, if_neg (by decide), List.range_eq_range', hloop]

/-- **Collecting the symbols.**  From a file whose symbol tables are well
formed, all function symbols are collected into one sorted tree. -/
theorem sectionLoop_spec (hcalloc : ∀ i, calloc i = true) (stale : GElfSym)
    {scns : List ElfSection}
    (hwf : ∀ scn ∈ scns, scn.isSymbolTable → ∃ table, scn.WellFormed e table) (h : c.Holds syms) :
    ∃ c', sectionLoop e stale calloc scns c = some c' ∧
      c'.Holds (syms ++ (scns.filter (·.isSymbolTable)).flatMap (·.functions e)) := by
  induction scns generalizing c syms with
  | nil => exact ⟨c, rfl, by simpa using h⟩
  | cons scn scns ih =>
      have htl := fun s hs => hwf s (List.mem_cons_of_mem scn hs)
      rw [sectionLoop]
      by_cases ht : scn.isSymbolTable
      · obtain ⟨table, htable⟩ := hwf scn List.mem_cons_self ht
        obtain ⟨c₁, hproc, h₁⟩ := processSymbolSection_spec hcalloc htable stale h
        obtain ⟨c', hloop, hc'⟩ := ih htl h₁
        refine ⟨c', ?_, by simpa [ht, List.append_assoc] using hc'⟩
        rw [if_pos ht, hproc, Option.bind_some, hloop]
      · obtain ⟨c', hloop, hc'⟩ := ih htl h
        refine ⟨c', ?_, by simpa [ht] using hc'⟩
        rw [if_neg ht, hloop]

/-- What `build_symbol_collection` returns for a file with well-formed symbol
tables: `NULL` without functions, else a collection of all of them. -/
theorem buildSymbolCollection_spec (hcalloc : ∀ i, calloc i = true) (stale : GElfSym)
    (hwf : e.WellFormed) :
    ∃ c, c.Holds e.functions ∧ buildSymbolCollection e stale calloc =
      some (if e.functions = [] then none else some c) := by
  have hempty : (SymbolCollection.mk 0 .nil).Holds [] :=
    ⟨rfl, List.Pairwise.nil, List.Perm.refl _, rfl⟩
  obtain ⟨c, hloop, hc⟩ := sectionLoop_spec hcalloc stale hwf hempty
  rw [List.nil_append] at hc
  refine ⟨c, hc, ?_⟩
  have htotal : c.totalSymbols = 0 ↔ e.functions = [] := by
    rw [hc.total_eq, List.length_eq_zero_iff]
    rfl
  simp [buildSymbolCollection, hloop, htotal]

/-- Every function that is collected has a size. -/
theorem symbolSize_pos {f : SymbolInfo} (h : f ∈ e.functions) : 0 < f.symbolSize := by
  simp only [Elf.functions, ElfSection.functions, functionSymbols, List.mem_flatMap,
    List.mem_filterMap, List.mem_filter, Option.map_eq_some_iff, decide_eq_true_eq] at h
  obtain ⟨scn, -, sym, ⟨-, hfun⟩, name, -, rfl⟩ := h
  exact hfun.2

end Build

/-! ## Names -/

section Names

variable {c : SymbolCollection} {syms : List SymbolInfo} {addr : UInt64}

/-- The function that covers the address gives the name. -/
theorem findSymbolName_of_covers (h : c.Holds syms) (hapart : syms.Pairwise SymbolInfo.Apart)
    (hpos : ∀ s ∈ syms, 0 < s.symbolSize) {f : SymbolInfo} (hf : f ∈ syms) (hcov : f.Covers addr)
    (hwrap : f.symbolStart.toNat + f.symbolSize.toNat < 2 ^ 64) :
    findSymbolNameFromElf (some ⟨some c⟩) addr = f.symbolName := by
  have hsearch : rbSearchSymbol c.symbolTree addr = some f :=
    rbSearchSymbol_of_covers h.sorted
      ((h.perm.pairwise_iff SymbolInfo.Apart.symm).mpr hapart)
      (fun s hs => hpos s (h.perm.mem_iff.mp hs)) (h.perm.mem_iff.mpr hf) hcov hwrap
  have htotal : c.totalSymbols ≠ 0 := by
    rw [h.total_eq]
    exact Nat.ne_of_gt (List.length_pos_of_mem hf)
  simp [findSymbolNameFromElf, htotal, hsearch]

/-- An address that no function covers has no name. -/
theorem findSymbolName_of_uncovered (h : c.Holds syms) (hne : syms ≠ [])
    (hout : ∀ s ∈ syms, ¬s.Covers addr) :
    findSymbolNameFromElf (some ⟨some c⟩) addr = cstr "unknown_function" := by
  have hsearch : rbSearchSymbol c.symbolTree addr = none :=
    rbSearchSymbol_eq_none fun s hs => hout s (h.perm.mem_iff.mp hs)
  have htotal : c.totalSymbols ≠ 0 := by
    rw [h.total_eq]
    exact fun h0 => hne (List.length_eq_zero_iff.mp h0)
  simp [findSymbolNameFromElf, htotal, hsearch]

end Names

end Profiling
