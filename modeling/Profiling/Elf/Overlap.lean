import Profiling.Elf.Symbols
import Profiling.RbTree.Rebalance

/-!
# Profiling.Elf.Overlap

`rb_search_symbol` where the ranges of symbols overlap.

The tree is ordered by start, and which of two symbols is met first is up to
the rebalancing.  All that is assumed of it here is that it keeps the in-order
sequence (`KeepsOrder`), and what `rb_insert_color` does is one such rebalancing
(`keepsOrder_rbInsertColor`).  Whatever it does, a search can be relied on just
for the addresses that the last of the symbols that start at or below them
covers, and for those that no symbol covers (`search_correct_iff`).
-/

namespace Profiling

open RbTree

/-! ## Insertion -/

/-- A rebalancing: the tree after a record has been linked at the end of a path. -/
abbrev Rebalance := SymbolInfo → List (Frame SymbolInfo) → RbTree SymbolInfo

/-- The in-order sequence is that of the tree with the new node in its place. -/
def KeepsOrder (rebalance : Rebalance) : Prop :=
  ∀ newSym path,
    (rebalance newSym path).toList = (zip (.node .red .nil newSym .nil) path).toList

/-- `insert_symbol_into_tree`, for some `rb_insert_color`. -/
def insertSymbolWith (rebalance : Rebalance) (root : RbTree SymbolInfo) (newSym : SymbolInfo) :
    RbTree SymbolInfo :=
  rebalance newSym (linkPath SymbolInfo.key newSym root [])

/-- The tree of these symbols, inserted one after another. -/
def symbolTreeWith (rebalance : Rebalance) (syms : List SymbolInfo) : RbTree SymbolInfo :=
  syms.foldl (insertSymbolWith rebalance) .nil

/-- What the program's `rb_insert_color` does. -/
def rbInsertColor : Rebalance := fun newSym path =>
  (insertColor .nil newSym .nil path).getD (zip (.node .red .nil newSym .nil) path)

/-- A search gives a symbol that covers the address if there is one, and else
`NULL`. -/
def SearchCorrect (root : RbTree SymbolInfo) (syms : List SymbolInfo) (addr : UInt64) : Prop :=
  ((∃ sym ∈ syms, sym.Covers addr) →
      ∃ found ∈ syms, rbSearchSymbol root addr = some found ∧ found.Covers addr) ∧
    ((∀ sym ∈ syms, ¬sym.Covers addr) → rbSearchSymbol root addr = none)

/-- Of the symbols that start at or below the address the one that starts last;
of several of these the one inserted last. -/
def nearestSymbol (addr : UInt64) (syms : List SymbolInfo) : Option SymbolInfo :=
  syms.foldl (fun nearest sym =>
    if sym.symbolStart ≤ addr ∧ ∀ other ∈ nearest, other.symbolStart ≤ sym.symbolStart then some sym
    else nearest) none

section

variable {rebalance : Rebalance} {root : RbTree SymbolInfo} {syms : List SymbolInfo}
  {addr : UInt64}

theorem keepsOrder_rbInsertColor : KeepsOrder rbInsertColor := keepsSequence_repaired

/-- The program's insertion is the one with its `rb_insert_color`. -/
theorem insertSymbolIntoTree_eq {tree : RbTree SymbolInfo} {newSym : SymbolInfo}
    (h : insertSymbolIntoTree root newSym = some tree) :
    insertSymbolWith rbInsertColor root newSym = tree := insertWith_repaired h

/-- Inserting one symbol: it comes behind those that do not start behind it. -/
theorem insertSymbolWith_spec (hkeeps : KeepsOrder rebalance) (hsorted : root.Sorted SymbolInfo.key)
    (newSym : SymbolInfo) :
    ∃ as bs, root.toList = as ++ bs ∧
      (insertSymbolWith rebalance root newSym).toList = as ++ newSym :: bs ∧
      (∀ a ∈ as, a.key ≤ newSym.key) ∧ ∀ b ∈ bs, newSym.key < b.key :=
  insertWith_spec hkeeps hsorted newSym

theorem symbolTreeWith_concat (newSym : SymbolInfo) :
    symbolTreeWith rebalance (syms ++ [newSym]) =
      insertSymbolWith rebalance (symbolTreeWith rebalance syms) newSym := by
  rw [symbolTreeWith, List.foldl_concat]
  rfl

theorem key_le_iff {sym : SymbolInfo} : sym.key ≤ addr.toNat ↔ sym.symbolStart ≤ addr :=
  UInt64.le_iff_toNat_le.symm

/-- How the nearest symbol changes when one is inserted between others. -/
theorem getLast?_filter_insert {as bs : List SymbolInfo} {newSym : SymbolInfo}
    (has : ∀ a ∈ as, a.key ≤ newSym.key) (hbs : ∀ b ∈ bs, newSym.key < b.key) :
    ((as ++ newSym :: bs).filter (·.symbolStart ≤ addr)).getLast? =
      if newSym.symbolStart ≤ addr ∧
          ∀ other ∈ ((as ++ bs).filter (·.symbolStart ≤ addr)).getLast?,
            other.symbolStart ≤ newSym.symbolStart then some newSym
      else ((as ++ bs).filter (·.symbolStart ≤ addr)).getLast? := by
  have hle : ∀ {other : SymbolInfo},
      other.symbolStart ≤ newSym.symbolStart ↔ other.key ≤ newSym.key :=
    UInt64.le_iff_toNat_le
  rw [List.filter_append, List.filter_append, List.filter_cons]
  by_cases hstart : newSym.symbolStart ≤ addr
  · rw [if_pos (decide_eq_true hstart)]
    cases hlast : (bs.filter (·.symbolStart ≤ addr)).getLast? with
    | none =>
        -- it is the last of those at or below the address
        have hnil := List.getLast?_eq_none_iff.mp hlast
        rw [hnil, List.append_nil, List.getLast?_concat, if_pos]
        refine ⟨hstart, fun other hother => hle.mpr (has other ?_)⟩
        exact List.mem_of_mem_filter (List.mem_of_getLast? hother)
    | some last =>
        have hmem := List.mem_of_mem_filter (List.mem_of_getLast? hlast)
        rw [List.getLast?_append, List.getLast?_append, List.getLast?_cons, hlast, if_neg]
        · rfl
        · rintro ⟨-, hall⟩
          exact Nat.not_le.mpr (hbs last hmem) (hle.mp (hall last rfl))
  · rw [if_neg (by simpa using hstart), if_neg fun h => hstart h.1]

/-- **The tree.**  It is sorted and has the symbols in it, and the last of those
that start at or below an address is the nearest. -/
theorem symbolTreeWith_spec (hkeeps : KeepsOrder rebalance) (syms : List SymbolInfo)
    (addr : UInt64) :
    (symbolTreeWith rebalance syms).Sorted SymbolInfo.key ∧
      (symbolTreeWith rebalance syms).toList.Perm syms ∧
      ((symbolTreeWith rebalance syms).toList.filter (·.symbolStart ≤ addr)).getLast? =
        nearestSymbol addr syms := by
  have hspec : ∀ syms, (symbolTreeWith rebalance syms).Sorted SymbolInfo.key ∧
      (symbolTreeWith rebalance syms).toList.Perm syms := insertAll_spec hkeeps
  refine ⟨(hspec syms).1, (hspec syms).2, ?_⟩
  induction syms using List.reverseRecOn with
  | nil => rfl
  | append_singleton syms newSym ih =>
      obtain ⟨as, bs, hold, hnew, has, hbs⟩ :=
        insertSymbolWith_spec hkeeps (hspec syms).1 newSym
      rw [hold] at ih
      rw [symbolTreeWith_concat, hnew, getLast?_filter_insert has hbs, ih, nearestSymbol,
        nearestSymbol, List.foldl_concat]

/-- A sorted sequence is cut by an address. -/
theorem filter_append_of_sorted {l : List SymbolInfo}
    (h : l.Pairwise fun a b => a.key ≤ b.key) (addr : UInt64) :
    l = l.filter (·.symbolStart ≤ addr) ++ l.filter (fun sym => ¬sym.symbolStart ≤ addr) := by
  induction l with
  | nil => rfl
  | cons a l ih =>
      obtain ⟨ha, hl⟩ := List.pairwise_cons.mp h
      by_cases hstart : a.symbolStart ≤ addr
      · rw [List.filter_cons_of_pos (by simpa using hstart),
          List.filter_cons_of_neg (by simpa using hstart), List.cons_append, ← ih hl]
      · have hnone : ∀ b ∈ a :: l, ¬b.symbolStart ≤ addr := by
          refine List.forall_mem_cons.mpr ⟨hstart, fun b hb hle => hstart ?_⟩
          exact key_le_iff.mp ((ha b hb).trans (key_le_iff.mpr hle))
        rw [List.filter_eq_nil_iff.mpr fun b hb => by simpa using hnone b hb, List.nil_append,
          List.filter_eq_self.mpr fun b hb => by simpa using hnone b hb]

/-- The nearest symbol is where the sequence is cut. -/
theorem split_at_nearest (hkeeps : KeepsOrder rebalance) {found : SymbolInfo}
    (hnearest : nearestSymbol addr syms = some found) :
    ∃ as bs, (symbolTreeWith rebalance syms).toList = as ++ found :: bs ∧
      (∀ a ∈ as, a.symbolStart ≤ addr) ∧ found.symbolStart ≤ addr ∧
      ∀ b ∈ bs, ¬b.symbolStart ≤ addr := by
  obtain ⟨hsorted, -, hlast⟩ := symbolTreeWith_spec hkeeps syms addr
  rw [hnearest] at hlast
  obtain ⟨as, has⟩ := List.getLast?_eq_some_iff.mp hlast
  have hbelow : ∀ a ∈ as ++ [found], a.symbolStart ≤ addr := fun a ha => by
    rw [← has] at ha
    simpa using List.of_mem_filter ha
  have hcut := filter_append_of_sorted hsorted addr
  rw [has, List.append_assoc] at hcut
  refine ⟨as, _, hcut, fun a ha => hbelow a (List.mem_append_left _ ha), hbelow found (by simp),
    fun b hb => by simpa using List.of_mem_filter hb⟩

/-! ## What a search can be relied on for -/

/-- If the nearest symbol covers the address, every tree gives a symbol that does. -/
theorem rbSearchSymbol_of_nearest (hkeeps : KeepsOrder rebalance)
    (hwrap : ∀ sym ∈ syms, sym.symbolStart.toNat + sym.symbolSize.toNat < 2 ^ 64)
    {found : SymbolInfo} (hnearest : nearestSymbol addr syms = some found)
    (hcov : found.Covers addr) :
    ∃ sym ∈ syms, rbSearchSymbol (symbolTreeWith rebalance syms) addr = some sym ∧
      sym.Covers addr := by
  obtain ⟨as, bs, hsplit, has, hfound, hbs⟩ := split_at_nearest hkeeps hnearest
  obtain ⟨-, hperm, -⟩ := symbolTreeWith_spec hkeeps syms addr
  have hcut := symbolCut_eq hcov (hwrap found (hperm.mem_iff.mp (by simp [hsplit])))
  have hsome := walk_isSome_of_split hsplit (fun a ha => ?_) hcut fun b hb => ?_
  · obtain ⟨sym, hsym⟩ := Option.isSome_iff_exists.mp hsome
    obtain ⟨hmem, heq⟩ := walk_eq_some hsym
    exact ⟨sym, hperm.mem_iff.mp hmem, hsym, covers_of_symbolCut heq⟩
  · -- what starts at or below the address does not send the search to the left
    rw [symbolCut]
    split
    · simp
    · rw [if_neg (UInt64.not_lt.mpr (has a ha))]
      simp
  · exact symbolCut_lt (UInt64.lt_iff_toNat_lt.mp (UInt64.not_le.mp (hbs b hb)))

/-- A tree that leans to the right. -/
def spine : List SymbolInfo → RbTree SymbolInfo
  | [] => .nil
  | sym :: syms => .node .black .nil sym (spine syms)

theorem toList_spine (syms : List SymbolInfo) : (spine syms).toList = syms := by
  induction syms with
  | nil => rfl
  | cons sym syms ih => rw [spine, RbTree.toList, ih]; rfl

/-- A tree of a sequence with the last symbol of its first part at the root. -/
def pivoted (front back : List SymbolInfo) : RbTree SymbolInfo :=
  match front.getLast? with
  | none => spine back
  | some sym => .node .black (spine front.dropLast) sym (spine back)

theorem toList_pivoted (front back : List SymbolInfo) :
    (pivoted front back).toList = front ++ back := by
  rw [pivoted]
  cases h : front.getLast? with
  | none => rw [List.getLast?_eq_none_iff.mp h, toList_spine, List.nil_append]
  | some sym =>
      obtain ⟨as, rfl⟩ := List.getLast?_eq_some_iff.mp h
      simp [RbTree.toList, toList_spine]

/-- A rebalancing that brings the nearest symbol to the root. -/
def pivotAt (addr : UInt64) : Rebalance := fun newSym path =>
  let sequence := (zip (.node .red .nil newSym .nil) path).toList
  pivoted (sequence.takeWhile (·.symbolStart ≤ addr)) (sequence.dropWhile (·.symbolStart ≤ addr))

theorem keepsOrder_pivotAt (addr : UInt64) : KeepsOrder (pivotAt addr) := fun newSym path => by
  rw [pivotAt, toList_pivoted, List.takeWhile_append_dropWhile]

/-- The tree with the nearest symbol at the root. -/
theorem symbolTreeWith_pivotAt (hne : syms ≠ []) :
    symbolTreeWith (pivotAt addr) syms =
      pivoted ((symbolTreeWith (pivotAt addr) syms).toList.takeWhile (·.symbolStart ≤ addr))
        ((symbolTreeWith (pivotAt addr) syms).toList.dropWhile (·.symbolStart ≤ addr)) := by
  obtain ⟨init, newSym, rfl⟩ := List.eq_nil_or_concat syms |>.resolve_left hne
  rw [List.concat_eq_append, symbolTreeWith_concat, insertSymbolWith, keepsOrder_pivotAt]
  rfl

/-- If the nearest symbol does not cover the address, that tree gives none. -/
theorem rbSearchSymbol_pivotAt {found : SymbolInfo} (hnearest : nearestSymbol addr syms = some found)
    (hcov : ¬found.Covers addr) : rbSearchSymbol (symbolTreeWith (pivotAt addr) syms) addr = none := by
  have hne : syms ≠ [] := fun hnil => by simp [hnil, nearestSymbol] at hnearest
  obtain ⟨as, bs, hsplit, has, hfound, hbs⟩ :=
    split_at_nearest (keepsOrder_pivotAt addr) hnearest
  have hbelow : ∀ a ∈ as ++ [found], decide (a.symbolStart ≤ addr) = true := by
    simp only [List.forall_mem_append, List.forall_mem_singleton, decide_eq_true_eq]
    exact ⟨has, hfound⟩
  have habove : bs.takeWhile (·.symbolStart ≤ addr) = [] ∧
      bs.dropWhile (·.symbolStart ≤ addr) = bs := by
    cases bs with
    | nil => exact ⟨rfl, rfl⟩
    | cons b bs =>
        have hb : ¬decide (b.symbolStart ≤ addr) = true := by simpa using hbs b List.mem_cons_self
        exact ⟨List.takeWhile_cons_of_neg hb, List.dropWhile_cons_of_neg hb⟩
  have hsplit' : (symbolTreeWith (pivotAt addr) syms).toList = (as ++ [found]) ++ bs := by
    simp [hsplit]
  have hright : symbolCut addr found = .gt := by
    refine symbolCut_gt (Nat.not_lt.mp fun hlt => hcov ⟨?_, hlt⟩)
    exact UInt64.le_iff_toNat_le.mp hfound
  rw [symbolTreeWith_pivotAt hne, hsplit', List.takeWhile_append_of_pos hbelow,
    List.dropWhile_append_of_pos hbelow, habove.1, habove.2, List.append_nil, pivoted,
    List.getLast?_concat, rbSearchSymbol]
  simp only [walk, hright]
  refine walk_eq_none fun b hb hcut => hbs b (by rwa [toList_spine] at hb) ?_
  exact UInt64.le_iff_toNat_le.mpr (covers_of_symbolCut hcut).1

end

/-- **When a search is right.**  However the tree is rebalanced: if and only if no
symbol covers the address, or the one does that starts last at or below it. -/
theorem search_correct_iff {syms : List SymbolInfo} {addr : UInt64}
    (hwrap : ∀ sym ∈ syms, sym.symbolStart.toNat + sym.symbolSize.toNat < 2 ^ 64) :
    (∀ rebalance, KeepsOrder rebalance →
        SearchCorrect (symbolTreeWith rebalance syms) syms addr) ↔
      (∀ sym ∈ syms, ¬sym.Covers addr) ∨ ∃ found ∈ nearestSymbol addr syms, found.Covers addr := by
  constructor
  · intro hall
    by_contra hnot
    push Not at hnot
    obtain ⟨⟨sym, hsym, hcov⟩, hnearest⟩ := hnot
    have hspec := symbolTreeWith_spec (keepsOrder_pivotAt addr) syms addr
    cases hfound : nearestSymbol addr syms with
    | none =>
        have hnil := List.getLast?_eq_none_iff.mp (hspec.2.2.trans hfound)
        refine List.filter_eq_nil_iff.mp hnil sym (hspec.2.1.mem_iff.mpr hsym) ?_
        exact decide_eq_true (UInt64.le_iff_toNat_le.mpr hcov.1)
    | some found =>
        have hnone := rbSearchSymbol_pivotAt hfound (hnearest found hfound)
        obtain ⟨_, -, hsome, -⟩ := (hall _ (keepsOrder_pivotAt addr)).1 ⟨sym, hsym, hcov⟩
        rw [hnone] at hsome
        cases hsome
  · intro hcond rebalance hkeeps
    have hperm := (symbolTreeWith_spec hkeeps syms addr).2.1
    refine ⟨fun hsome => ?_, fun hnone =>
      rbSearchSymbol_eq_none fun sym hsym => hnone sym (hperm.mem_iff.mp hsym)⟩
    rcases hcond with hnone | ⟨found, hfound, hcov⟩
    · obtain ⟨sym, hsym, hcov⟩ := hsome
      exact absurd hcov (hnone sym hsym)
    · exact rbSearchSymbol_of_nearest hkeeps hwrap hfound hcov

/-- A function with two others inside it. -/
def nestedSymbols : List SymbolInfo :=
  [⟨cstr "a", 0, 100⟩, ⟨cstr "b", 10, 10⟩, ⟨cstr "c", 30, 10⟩]

theorem search_correct_iff_nested :
    SearchCorrect (symbolTreeWith rbInsertColor nestedSymbols) nestedSymbols 35 :=
  (search_correct_iff (by decide)).mpr
    (.inr ⟨⟨cstr "c", 30, 10⟩, by decide, by simp [SymbolInfo.Covers]⟩)
    rbInsertColor keepsOrder_rbInsertColor

/-- Behind the inner functions the search has lost the outer one. -/
theorem outer_symbol_not_found :
    (rbSearchSymbol (symbolTreeWith rbInsertColor nestedSymbols) 50 = none ∧
      ∃ sym ∈ nestedSymbols, sym.Covers 50) ∧
    ¬∀ rebalance syms addr, KeepsOrder rebalance → (∀ sym ∈ syms, 0 < sym.symbolSize) →
      (∀ sym ∈ syms, sym.symbolStart.toNat + sym.symbolSize.toNat < 2 ^ 64) →
      SearchCorrect (symbolTreeWith rebalance syms) syms addr := by
  have hnone : rbSearchSymbol (symbolTreeWith rbInsertColor nestedSymbols) 50 = none := by decide
  have hcov : ∃ sym ∈ nestedSymbols, sym.Covers 50 :=
    ⟨⟨cstr "a", 0, 100⟩, by decide, by simp [SymbolInfo.Covers]⟩
  refine ⟨⟨hnone, hcov⟩, fun hall => ?_⟩
  obtain ⟨found, -, hsome, -⟩ :=
    (hall rbInsertColor _ 50 keepsOrder_rbInsertColor (by decide) (by decide)).1 hcov
  rw [hnone] at hsome
  cases hsome

end Profiling
