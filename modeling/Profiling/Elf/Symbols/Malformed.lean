import Profiling.Elf.Symbols

/-!
# Profiling.Elf.Symbols.Malformed

`process_symbol_section` on sections whose headers say anything.

The loop runs `sh_size / sh_entsize` times, whatever the data is; beyond the
data `gelf_getsym` leaves the local `sym` as it is (`readSym`).  What the section
adds is then known (`symbolLoop_read`), and with it when just the functions of
the data are added (`processSymbolSection_iff`).
-/

namespace Profiling

/-- The entry that the loop looks at: the one in the data, behind it the one read
last, and without any what was in the local before. -/
def readSym (syms : List GElfSym) (stale : GElfSym) (i : Nat) : GElfSym :=
  syms.getD i (syms.getLastD stale)

namespace ElfSection

/-- How often the loop runs. -/
def entryCount (scn : ElfSection) : Nat := scn.shSize / scn.shEntsize

/-- What the section is for: it is read without a division by zero and without a
`NULL` for `strdup`, the counter is the number of nodes, and if the allocations
succeed there is a new node for each function symbol of the data that has a valid
name, and no other. -/
def Collects (e : Elf) (scn : ElfSection) (stale : GElfSym) (calloc : Nat → Bool)
    (c : SymbolCollection) : Prop :=
  ∃ c', processSymbolSection e scn stale calloc c = some c' ∧
    c'.totalSymbols = c'.symbolTree.toList.length ∧
    ((∀ i, calloc i = true) →
      c'.symbolTree.toList.Perm (c.symbolTree.toList ++ scn.functions e))

/-- The header agrees with the data: `sh_entsize` is not zero, the functions that
are read have names, and, if the allocations succeed, no function with a name is
behind the entries that are read, and none is read again behind the data. -/
def Agrees (e : Elf) (scn : ElfSection) (stale : GElfSym) (calloc : Nat → Bool) : Prop :=
  ∀ syms, scn.data = some syms →
    scn.shEntsize ≠ 0 ∧
    (∀ i < scn.entryCount, (readSym syms stale i).isFunction → calloc i = true →
      (e.strptr scn.shLink (readSym syms stale i).stName).isSome) ∧
    ((∀ i, calloc i = true) →
      (∀ sym ∈ syms.drop scn.entryCount, sym.isFunction →
        e.strptr scn.shLink sym.stName = none) ∧
      (syms.length < scn.entryCount → ¬(syms.getLastD stale).isFunction))

end ElfSection

/-! ## The loop -/

section Loop

variable {e : Elf} {shLink : Nat} {syms : List GElfSym} {stale : GElfSym} {calloc : Nat → Bool}
  {c : SymbolCollection} {held : List SymbolInfo}

theorem functionSymbols_append (e : Elf) (shLink : Nat) (as bs : List GElfSym) :
    functionSymbols e shLink (as ++ bs) =
      functionSymbols e shLink as ++ functionSymbols e shLink bs := by
  rw [functionSymbols, List.filter_append, List.filterMap_append]
  rfl

theorem functionSymbols_eq_nil_iff {as : List GElfSym} :
    functionSymbols e shLink as = [] ↔
      ∀ sym ∈ as, sym.isFunction → e.strptr shLink sym.stName = none := by
  simp only [functionSymbols, List.filterMap_eq_nil_iff, List.mem_filter, decide_eq_true_eq,
    Option.map_eq_none_iff, and_imp]

/-- Behind the data, the local is the entry read last. -/
theorem getD_of_behind {i : Nat} {sym : GElfSym}
    (hsym : syms.length ≤ i → sym = syms.getLastD stale) : syms.getD i sym = readSym syms stale i := by
  by_cases hi : i < syms.length
  · simp [readSym, hi]
  · rw [readSym, hsym (Nat.le_of_not_lt hi)]

/-- Before the first entry it is what it was. -/
theorem stale_eq_getLastD (h : syms.length ≤ 0) : stale = syms.getLastD stale := by
  rw [List.eq_nil_of_length_eq_zero (Nat.le_zero.mp h)]
  rfl

/-- And from there on it stays so. -/
theorem readSym_behind {i : Nat} (h : syms.length ≤ i + 1) :
    readSym syms stale i = syms.getLastD stale := by
  by_cases hi : i < syms.length
  · obtain rfl : i = syms.length - 1 := by omega
    have hne : syms ≠ [] := List.ne_nil_of_length_pos (by omega)
    rw [readSym, List.getD_eq_getElem _ _ hi, List.getLastD_eq_getLast?,
      List.getLast?_eq_some_getLast hne, Option.getD_some, List.getLast_eq_getElem]
  · rw [readSym, List.getD_eq_default _ _ (Nat.le_of_not_lt hi)]

/-- **What the loop adds.**  If the functions that are read and allocated have
names, there is a node for each of them. -/
theorem symbolLoop_read (k m : Nat) {sym : GElfSym}
    (hsym : syms.length ≤ k → sym = syms.getLastD stale)
    (hnamed : ∀ i, i < k + m → (readSym syms stale i).isFunction → calloc i = true →
      (e.strptr shLink (readSym syms stale i).stName).isSome) (h : c.Holds held) :
    ∃ c', symbolLoop e shLink syms calloc (List.range' k m) sym c = some c' ∧
      c'.Holds (held ++ functionSymbols e shLink
        (((List.range' k m).filter calloc).map (readSym syms stale))) := by
  induction m generalizing k sym c held with
  | zero => exact ⟨c, rfl, by simpa [functionSymbols] using h⟩
  | succ m ih =>
      have hnext : syms.length ≤ k + 1 → readSym syms stale k = syms.getLastD stale :=
        readSym_behind
      have hnamed' : ∀ i, i < k + 1 + m → (readSym syms stale i).isFunction → calloc i = true →
          (e.strptr shLink (readSym syms stale i).stName).isSome :=
        fun i hi => hnamed i (by omega)
      rw [List.range'_succ, symbolLoop, getD_of_behind hsym]
      cases hcalloc : calloc k with
      | false =>
          obtain ⟨c', hloop, hc'⟩ := ih (k + 1) hnext hnamed' h
          exact ⟨c', by simp [hloop], by simpa [hcalloc] using hc'⟩
      | true =>
          rw [List.filter_cons_of_pos hcalloc, List.map_cons]
          by_cases hfun : (readSym syms stale k).isFunction
          · obtain ⟨name, hname⟩ :=
              Option.isSome_iff_exists.mp (hnamed k (by omega) hfun hcalloc)
            obtain ⟨tree, hins, hholds⟩ := h.insert ⟨name, (readSym syms stale k).stValue,
              (readSym syms stale k).stSize⟩
            obtain ⟨c', hloop, hc'⟩ := ih (k + 1) hnext hnamed' hholds
            refine ⟨c', by simp [hfun, hname, hins, hloop], ?_⟩
            rw [functionSymbols_cons_of_isFunction hfun hname]
            simpa using hc'
          · obtain ⟨c', hloop, hc'⟩ := ih (k + 1) hnext hnamed' h
            refine ⟨c', by simp [hfun, hloop], ?_⟩
            rw [functionSymbols_cons_of_not hfun]
            exact hc'

/-- **Where it stops.**  A function without a name that is read and allocated. -/
theorem symbolLoop_unnamed (k m : Nat) (sym : GElfSym)
    (hsym : syms.length ≤ k → sym = syms.getLastD stale) {i : Nat} (hki : k ≤ i) (hi : i < k + m)
    (hfun : (readSym syms stale i).isFunction) (hcalloc : calloc i = true)
    (hname : e.strptr shLink (readSym syms stale i).stName = none) (c : SymbolCollection) :
    symbolLoop e shLink syms calloc (List.range' k m) sym c = none := by
  induction m generalizing k sym c with
  | zero => omega
  | succ m ih =>
      rw [List.range'_succ, symbolLoop, getD_of_behind hsym]
      rcases Nat.eq_or_lt_of_le hki with rfl | hlt
      · simp [hfun, hcalloc, hname]
      · have hrest := ih (k + 1) (readSym syms stale k) readSym_behind hlt (by omega)
        simp [hrest]

/-- The entries that are read: those of the data, as far as the count goes, and
copies of the last one if it goes further. -/
theorem map_readSym (n : Nat) :
    (List.range n).map (readSym syms stale) =
      syms.take n ++ List.replicate (n - syms.length) (syms.getLastD stale) := by
  refine List.ext_getElem (by simp; omega) fun i hi _ => ?_
  rw [List.length_map, List.length_range] at hi
  rw [List.getElem_map, List.getElem_range, readSym, List.getElem_append]
  split
  · next htake =>
    rw [List.length_take] at htake
    rw [List.getD_eq_getElem _ _ (by omega), List.getElem_take]
  · next htake =>
    rw [List.length_take] at htake
    rw [List.getD_eq_default _ _ (by omega), List.getElem_replicate]

end Loop

/-! ## The section -/

section Section

variable {e : Elf} {scn : ElfSection} {syms : List GElfSym} {stale : GElfSym}
  {calloc : Nat → Bool} {c : SymbolCollection}

/-- What is read is what the data has just if no function with a name is behind
the count and none is copied. -/
theorem perm_read_iff (held : List SymbolInfo)
    (hlast : syms.length < scn.entryCount → (syms.getLastD stale).isFunction →
      (e.strptr scn.shLink (syms.getLastD stale).stName).isSome) :
    (held ++ functionSymbols e scn.shLink
        ((List.range scn.entryCount).map (readSym syms stale))).Perm
      (held ++ functionSymbols e scn.shLink syms) ↔
      (∀ sym ∈ syms.drop scn.entryCount, sym.isFunction → e.strptr scn.shLink sym.stName = none) ∧
        (syms.length < scn.entryCount → ¬(syms.getLastD stale).isFunction) := by
  rw [List.perm_append_left_iff, map_readSym, functionSymbols_append]
  rcases Nat.lt_or_ge syms.length scn.entryCount with hlt | hge
  · -- copies of the last entry are read
    have hdrop : syms.drop scn.entryCount = [] := List.drop_of_length_le hlt.le
    have hcopies : functionSymbols e scn.shLink
        (List.replicate (scn.entryCount - syms.length) (syms.getLastD stale)) = [] ↔
        ¬(syms.getLastD stale).isFunction := by
      rw [functionSymbols_eq_nil_iff]
      have hmem : syms.getLastD stale ∈
          List.replicate (scn.entryCount - syms.length) (syms.getLastD stale) :=
        List.mem_replicate.mpr ⟨by omega, rfl⟩
      constructor
      · intro hall hfun
        have hname := hlast hlt hfun
        rw [hall _ hmem hfun] at hname
        cases hname
      · intro hnot sym hsym hfun
        rw [List.eq_of_mem_replicate hsym] at hfun
        exact absurd hfun hnot
    rw [List.take_of_length_le hlt.le, hdrop, ← hcopies]
    constructor
    · intro hperm
      have hlength := hperm.length_eq
      rw [List.length_append] at hlength
      exact ⟨by simp, fun _ => List.length_eq_zero_iff.mp (by omega)⟩
    · rintro ⟨-, hnil⟩
      rw [hnil hlt, List.append_nil]
  · -- the entries behind the count are not read
    have hzero : scn.entryCount - syms.length = 0 := Nat.sub_eq_zero_of_le hge
    have hsplit := functionSymbols_append e scn.shLink
      (syms.take scn.entryCount) (syms.drop scn.entryCount)
    rw [List.take_append_drop] at hsplit
    have hempty : functionSymbols e scn.shLink [] = [] := rfl
    rw [hzero, List.replicate_zero, hempty, List.append_nil, ← functionSymbols_eq_nil_iff, hsplit]
    constructor
    · intro hperm
      have hlength := hperm.length_eq
      rw [List.length_append] at hlength
      exact ⟨List.length_eq_zero_iff.mp (by omega), fun hlt => absurd hlt (Nat.not_lt.mpr hge)⟩
    · rintro ⟨hnil, -⟩
      rw [hnil, List.append_nil]

/-- A section that is read: the counter is the number of nodes, and there is a
new node for each function that is read and allocated. -/
theorem processSymbolSection_read (hc : c.Holds c.symbolTree.toList) (hdata : scn.data = some syms)
    (hentsize : scn.shEntsize ≠ 0)
    (hnamed : ∀ i < scn.entryCount, (readSym syms stale i).isFunction → calloc i = true →
      (e.strptr scn.shLink (readSym syms stale i).stName).isSome) :
    ∃ c', processSymbolSection e scn stale calloc c = some c' ∧
      c'.Holds (c.symbolTree.toList ++ functionSymbols e scn.shLink
        (((List.range scn.entryCount).filter calloc).map (readSym syms stale))) := by
  obtain ⟨c', hloop, hc'⟩ := symbolLoop_read 0 scn.entryCount stale_eq_getLastD
    (fun i hi => hnamed i (by omega)) hc
  rw [← List.range_eq_range'] at hloop hc'
  refine ⟨c', ?_, hc'⟩
  rw [processSymbolSection, hdata]
  dsimp only
  rw [if_neg hentsize]
  exact hloop

/-- A section that is not: `sh_entsize` is zero, or a function that is read and
allocated has no name. -/
theorem processSymbolSection_fails (hdata : scn.data = some syms)
    (h : scn.shEntsize = 0 ∨ ∃ i < scn.entryCount, (readSym syms stale i).isFunction ∧
      calloc i = true ∧ e.strptr scn.shLink (readSym syms stale i).stName = none) :
    processSymbolSection e scn stale calloc c = none := by
  rw [processSymbolSection, hdata]
  dsimp only
  rcases h with hzero | ⟨i, hi, hfun, hcalloc, hname⟩
  · rw [if_pos hzero]
  · split
    · rfl
    · rw [List.range_eq_range']
      exact symbolLoop_unnamed 0 scn.entryCount stale stale_eq_getLastD (Nat.zero_le i)
        (by rw [Nat.zero_add]; exact hi) hfun hcalloc hname c

/-- What has been read stood in nothing's way. -/
theorem of_processSymbolSection {c' : SymbolCollection} (hdata : scn.data = some syms)
    (h : processSymbolSection e scn stale calloc c = some c') :
    scn.shEntsize ≠ 0 ∧
      ∀ i < scn.entryCount, (readSym syms stale i).isFunction → calloc i = true →
        (e.strptr scn.shLink (readSym syms stale i).stName).isSome := by
  refine ⟨fun hzero => ?_, fun i hi hfun hcalloc => ?_⟩
  · rw [processSymbolSection_fails hdata (.inl hzero)] at h
    cases h
  · rw [Option.isSome_iff_ne_none]
    intro hname
    rw [processSymbolSection_fails hdata (.inr ⟨i, hi, hfun, hcalloc, hname⟩)] at h
    cases h

/-- **Any section.**  It is collected as it should be just when its header agrees
with its data. -/
theorem processSymbolSection_iff (e : Elf) (scn : ElfSection) (stale : GElfSym)
    (calloc : Nat → Bool) (c : SymbolCollection) (hc : c.Holds c.symbolTree.toList) :
    scn.Collects e stale calloc c ↔ scn.Agrees e stale calloc := by
  cases hdata : scn.data with
  | none =>
      -- `elf_getdata` has failed, and nothing is read
      have hfunctions : scn.functions e = [] := by
        rw [ElfSection.functions, hdata]
        rfl
      refine iff_of_true ⟨c, by rw [processSymbolSection, hdata], hc.total_eq, fun _ => ?_⟩ ?_
      · rw [hfunctions, List.append_nil]
      · intro syms hsyms
        rw [hdata] at hsyms
        cases hsyms
  | some syms =>
      have hfunctions : scn.functions e = functionSymbols e scn.shLink syms := by
        rw [ElfSection.functions, hdata]
        rfl
      have hreads : ∀ {p : Nat → Bool}, (∀ i, p i = true) →
          (List.range scn.entryCount).filter p = List.range scn.entryCount := fun hp =>
        List.filter_eq_self.mpr fun i _ => hp i
      have hlast : (∀ i < scn.entryCount, (readSym syms stale i).isFunction → calloc i = true →
          (e.strptr scn.shLink (readSym syms stale i).stName).isSome) → (∀ i, calloc i = true) →
          syms.length < scn.entryCount → (syms.getLastD stale).isFunction →
            (e.strptr scn.shLink (syms.getLastD stale).stName).isSome := by
        intro hnamed hcalloc hlt hfun
        have hbehind : readSym syms stale syms.length = syms.getLastD stale :=
          readSym_behind (Nat.le_succ _)
        have := hnamed syms.length hlt
        rw [hbehind] at this
        exact this hfun (hcalloc _)
      constructor
      · rintro ⟨c', hproc, -, hperm⟩ syms' hsyms'
        obtain rfl : syms = syms' := Option.some.inj (hdata.symm.trans hsyms')
        obtain ⟨hentsize, hnamed⟩ := of_processSymbolSection hdata hproc
        refine ⟨hentsize, hnamed, fun hcalloc => ?_⟩
        obtain ⟨c'', hproc', hholds⟩ := processSymbolSection_read hc hdata hentsize hnamed
        obtain rfl : c' = c'' := Option.some.inj (hproc.symm.trans hproc')
        have hadded := hperm hcalloc
        rw [hreads hcalloc] at hholds
        rw [hfunctions] at hadded
        exact (perm_read_iff c.symbolTree.toList (hlast hnamed hcalloc)).mp
          (hholds.perm.symm.trans hadded)
      · intro hagrees
        obtain ⟨hentsize, hnamed, hfits⟩ := hagrees syms hdata
        obtain ⟨c', hproc, hholds⟩ := processSymbolSection_read hc hdata hentsize hnamed
        refine ⟨c', hproc, hholds.total_eq.trans hholds.perm.length_eq.symm, fun hcalloc => ?_⟩
        rw [hreads hcalloc] at hholds
        rw [hfunctions]
        exact hholds.perm.trans
          ((perm_read_iff c.symbolTree.toList (hlast hnamed hcalloc)).mpr (hfits hcalloc))

/-- **A file.**  However its sections are, the counter is the number of nodes. -/
theorem total_sectionLoop {scns : List ElfSection} {c' : SymbolCollection}
    (hc : c.Holds c.symbolTree.toList) (h : sectionLoop e stale calloc scns c = some c') :
    c'.Holds c'.symbolTree.toList := by
  induction scns generalizing c with
  | nil =>
      obtain rfl := Option.some.inj h
      exact hc
  | cons scn scns ih =>
      rw [sectionLoop] at h
      split at h
      · obtain ⟨c₁, hproc, hrest⟩ := Option.bind_eq_some_iff.mp h
        refine ih ?_ hrest
        cases hdata : scn.data with
        | none =>
            rw [processSymbolSection, hdata] at hproc
            exact Option.some.inj hproc ▸ hc
        | some syms =>
            obtain ⟨hentsize, hnamed⟩ := of_processSymbolSection hdata hproc
            obtain ⟨c₂, hproc', hholds⟩ := processSymbolSection_read hc hdata hentsize hnamed
            obtain rfl : c₁ = c₂ := Option.some.inj (hproc.symm.trans hproc')
            exact ⟨hholds.color_eq, hholds.sorted, List.Perm.refl _,
              hholds.total_eq.trans hholds.perm.length_eq.symm⟩
      · exact ih hc h

end Section

/-- A collection that is empty. -/
def emptyCollection : SymbolCollection := ⟨0, .nil⟩

theorem holds_emptyCollection : emptyCollection.Holds emptyCollection.symbolTree.toList :=
  ⟨rfl, List.Pairwise.nil, List.Perm.refl _, rfl⟩

/-- A file with one name, at offset 1 of the string table. -/
def oneNameElf : Elf where
  sections := []
  strptr := fun _ offset => if offset = 1 then some (cstr "main") else none

/-- A section of one function, and of an entry behind it that is none. -/
def mainSection : ElfSection where
  shType := shtSymtab
  shSize := 48
  shEntsize := 24
  shLink := 3
  data := some [⟨1, 18, 0x400, 16⟩, ⟨0, 0, 0, 0⟩]

theorem collects_mainSection :
    mainSection.Collects oneNameElf ⟨0, 0, 0, 0⟩ (fun _ => true) emptyCollection := by
  refine (processSymbolSection_iff oneNameElf mainSection ⟨0, 0, 0, 0⟩ (fun _ => true)
    emptyCollection holds_emptyCollection).mpr fun syms hsyms => ?_
  obtain rfl : _ = syms := Option.some.inj hsyms
  refine ⟨by decide, ?_, fun _ => ⟨by simp [mainSection, ElfSection.entryCount], ?_⟩⟩
  · decide
  · intro hlt
    exact absurd hlt (by decide)

/-- The same section with an `sh_entsize` of zero. -/
theorem not_collects_zeroEntsize :
    ¬({ mainSection with shEntsize := 0 } : ElfSection).Collects oneNameElf ⟨0, 0, 0, 0⟩
      (fun _ => true) emptyCollection := by
  rintro ⟨c', hproc, -, -⟩
  rw [processSymbolSection_fails rfl (.inl rfl)] at hproc
  cases hproc

end Profiling
