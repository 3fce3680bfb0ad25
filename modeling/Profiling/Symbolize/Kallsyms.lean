import Profiling.RbTree.Rebalance
import Profiling.Scanf.Line
import Profiling.Symbolize

/-!
# Profiling.Symbolize.Kallsyms

The kernel's symbols: `insert_symbol` and `load_kernel_symbols` of
`src/core/kernel_symbol.c`, with `find_kernel_symbol` over the tree they build.

The file is read line by line, and of the lines of an address just the first
with a symbol of the text section gets into the tree.  What a search finds is
then the nearest of these lines (`findKernelSymbol_loadKernelSymbols`), with its
name as it fits into `name[256]`.
-/

namespace Profiling

open RbTree

/-! ## The loader -/

/-- The descent of `insert_symbol`; `none` where the address is there already. -/
def linkSymbol (newSymbol : KernelSymbol) :
    RbTree KernelSymbol → List (Frame KernelSymbol) → Option (List (Frame KernelSymbol))
  | .nil, path => some path
  | .node c left entry right, path =>
      if newSymbol.address < entry.address then
        linkSymbol newSymbol left (⟨.left, c, entry, right⟩ :: path)
      else if entry.address < newSymbol.address then
        linkSymbol newSymbol right (⟨.right, c, entry, left⟩ :: path)
      else none

/-- `insert_symbol`, for some `rb_insert_color`: the tree, and whether it has
taken the symbol. -/
def insertSymbol (rebalance : Rebalancing KernelSymbol) (root : RbTree KernelSymbol)
    (newSymbol : KernelSymbol) : RbTree KernelSymbol × Bool :=
  match linkSymbol newSymbol root [] with
  | none => (root, false)
  | some path => (rebalance newSymbol path, true)

/-- `"%lx %c %255s"` -/
def kallsymsFormat : List Conversion := [.readHex, .space, .readChar, .space, .readString 255]

/-- `type == 't' || type == 'T'` -/
def isTextType (type : UInt8) : Bool := type == 116 || type == 84

/-- The body of the loop of `load_kernel_symbols`; `allocated` says whether
`malloc` and `strdup` succeed. -/
def loadSymbolLine (rebalance : Rebalancing KernelSymbol) (allocated : Bool)
    (root : RbTree KernelSymbol) (line : CString) : RbTree KernelSymbol :=
  match sscanf kallsymsFormat (bufferString line) with
  | [.number address, .char type, .string name] =>
      if isTextType type && allocated then (insertSymbol rebalance root ⟨address, name⟩).1 else root
  | _ => root

/-- What `load_kernel_symbols` is answered. -/
structure KallsymsReads where
  /-- `fopen`, and what is in the file -/
  file : Option CString
  /-- the `malloc` of the root -/
  rootAllocated : Bool
  /-- `malloc` and `strdup` for a line -/
  allocated : Nat → Bool

/-- The loop of `load_kernel_symbols`, from a line on. -/
def loadSymbolLines (rebalance : Rebalancing KernelSymbol) (allocated : Nat → Bool) :
    Nat → RbTree KernelSymbol → List CString → RbTree KernelSymbol
  | _, root, [] => root
  | i, root, line :: lines =>
      loadSymbolLines rebalance allocated (i + 1)
        (loadSymbolLine rebalance (allocated i) root line) lines

/-- `load_kernel_symbols`, for some `rb_insert_color`. -/
def loadKernelSymbols (rebalance : Rebalancing KernelSymbol) (reads : KallsymsReads) :
    Option (RbTree KernelSymbol) :=
  match reads.file with
  | none => none
  | some text =>
      if reads.rootAllocated then
        some (loadSymbolLines rebalance reads.allocated 0 .nil (getlines text))
      else none

/-! ## What is in the file -/

/-- A line of `/proc/kallsyms`; `origin` is what stands behind the name, such as
the name of a module. -/
structure KallsymsLine where
  address : UInt64
  type : UInt8
  name : CString
  origin : CString
  type_clean : isspace type = false ∧ type ≠ 0
  name_ne_nil : name ≠ []
  name_clean : ∀ b ∈ name, isspace b = false ∧ b ≠ 0
  origin_blank : EndsToken origin
  origin_line : 10 ∉ origin

namespace KallsymsLine

/-- The line as it is printed, without its newline. -/
def text (line : KallsymsLine) : CString :=
  hexText 16 line.address.toNat ++ 32 :: line.type :: 32 :: (line.name ++ line.origin)

/-- A symbol of type `t` or `T`. -/
def IsText (line : KallsymsLine) : Prop := isTextType line.type = true

/-- What `load_kernel_symbols` keeps of the line. -/
def symbol (line : KallsymsLine) : KernelSymbol := ⟨line.address, line.name.take 255⟩

@[simp] theorem symbol_address (line : KallsymsLine) : line.symbol.address = line.address := rfl

end KallsymsLine

/-- The file. -/
def kallsymsText (lines : List KallsymsLine) : CString :=
  (lines.map KallsymsLine.text).flatMap (· ++ [10])

/-- The file is there, and no allocation fails. -/
def kallsymsReads (lines : List KallsymsLine) : KallsymsReads :=
  ⟨some (kallsymsText lines), true, fun _ => true⟩

/-- Of the lines with a text symbol that is not above the address one with the
greatest address, and of these the first in the file. -/
def IsNearestLine (lines : List KallsymsLine) (addr : UInt64) (line : KallsymsLine) : Prop :=
  ∃ front back, lines = front ++ line :: back ∧ line.IsText ∧ line.address ≤ addr ∧
    (∀ other ∈ lines, other.IsText → other.address ≤ addr → other.address ≤ line.address) ∧
    ∀ other ∈ front, other.IsText → other.address ≠ line.address

/-- The symbols that `load_kernel_symbols` tries to insert. -/
def textSymbols (lines : List KallsymsLine) : List KernelSymbol :=
  (lines.filter fun line => isTextType line.type).map KallsymsLine.symbol

/-! ## Reading a line -/

theorem newline_notMem_text (line : KallsymsLine) : 10 ∉ line.text := by
  simp only [KallsymsLine.text, List.mem_append, List.mem_cons, not_or]
  refine ⟨fun h => ?_, by decide, fun h => ?_, by decide, fun h => ?_, line.origin_line⟩
  · exact absurd (isxdigit_of_mem_hexText h) (by decide)
  · exact absurd (h ▸ line.type_clean.1) (by decide)
  · exact absurd (line.name_clean 10 h).1 (by decide)

/-- What is left of a line in the buffer as a string. -/
theorem bufferString_text (line : KallsymsLine) :
    ∃ rest, EndsToken rest ∧ bufferString (line.text ++ [10]) =
      hexText 16 line.address.toNat ++ 32 :: line.type :: 32 :: (line.name ++ rest) := by
  refine ⟨(line.origin ++ [10]).takeWhile fun b => b != 0, ?_, ?_⟩
  · intro b hb
    have hmem := List.mem_of_head? hb
    cases horigin : line.origin with
    | nil =>
        rw [horigin] at hmem
        obtain rfl : b = 10 := by simpa using hmem
        rfl
    | cons c origin =>
        have hc := line.origin_blank c (by rw [horigin]; rfl)
        have hzero : c ≠ 0 := fun h => absurd (h ▸ hc) (by decide)
        rw [horigin, List.cons_append, List.takeWhile_cons_of_pos (by simp [hzero])] at hb
        obtain rfl : c = b := Option.some.inj hb
        exact hc
  · have hhex : ∀ b ∈ hexText 16 line.address.toNat, (b != 0) = true := by
      intro b hb
      rw [bne_iff_ne]
      rintro rfl
      exact absurd (isxdigit_of_mem_hexText hb) (by decide)
    have hname : ∀ b ∈ line.name, (b != 0) = true := fun b hb => by
      simp [(line.name_clean b hb).2]
    rw [bufferString, KallsymsLine.text, List.append_assoc,
      List.takeWhile_append_of_pos hhex, List.cons_append, List.cons_append, List.cons_append,
      List.takeWhile_cons_of_pos (by decide),
      List.takeWhile_cons_of_pos (by simp [line.type_clean.2]),
      List.takeWhile_cons_of_pos (by decide), List.append_assoc,
      List.takeWhile_append_of_pos hname]

/-- **A line is taken apart** into its address, its type and its name. -/
theorem sscanf_kallsyms (line : KallsymsLine) :
    sscanf kallsymsFormat (bufferString (line.text ++ [10])) =
      [.number line.address, .char line.type, .string (line.name.take 255)] := by
  obtain ⟨rest, hrest, hstring⟩ := bufferString_text line
  have hhex : EndsHex (32 :: line.type :: 32 :: (line.name ++ rest)) := by
    rintro b ⟨⟩
    decide
  have htype : (line.type :: 32 :: (line.name ++ rest)).dropWhile isspace =
      line.type :: 32 :: (line.name ++ rest) :=
    List.dropWhile_cons_of_neg (by simp [line.type_clean.1])
  have hclean : ∀ b ∈ line.name, isspace b = false := fun b hb => (line.name_clean b hb).1
  rw [hstring, kallsymsFormat, sscanf_readHex line.address.toNat_lt 16 hhex, sscanf_space,
    List.dropWhile_cons_of_pos (by decide), htype, sscanf_readChar,
    sscanf_space_token line.name_ne_nil hclean,
    sscanf_readString (by decide) line.name_ne_nil hclean hrest, UInt64.ofNat_toNat]
  rfl

theorem loadSymbolLine_text (rebalance : Rebalancing KernelSymbol) (root : RbTree KernelSymbol)
    (line : KallsymsLine) :
    loadSymbolLine rebalance true root (line.text ++ [10]) =
      if isTextType line.type then (insertSymbol rebalance root line.symbol).1 else root := by
  rw [loadSymbolLine, sscanf_kallsyms]
  simp only [Bool.and_true, KallsymsLine.symbol]

/-! ## Inserting a symbol -/

section Insert

variable {rebalance : Rebalancing KernelSymbol} {root : RbTree KernelSymbol}
  {symbols : List KernelSymbol} {newSymbol : KernelSymbol}

/-- What the tree is ordered by. -/
def KernelSymbol.key (symbol : KernelSymbol) : Nat := symbol.address.toNat

theorem KernelSymbol.key_inj {a b : KernelSymbol} : a.key = b.key ↔ a.address = b.address :=
  UInt64.toNat_inj

/-- The tree has the first symbol of each address in it, in the order of the addresses. -/
structure Loaded (symbols : List KernelSymbol) (root : RbTree KernelSymbol) : Prop where
  sorted : root.toList.Pairwise fun a b => a.key < b.key
  mem_iff : ∀ symbol, symbol ∈ root.toList ↔
    symbols.find? (fun other => other.address == symbol.address) = some symbol

theorem loaded_nil : Loaded [] .nil where
  sorted := List.Pairwise.nil
  mem_iff := by simp [RbTree.toList]

theorem Loaded.le (h : Loaded symbols root) : root.Sorted KernelSymbol.key :=
  h.sorted.imp Nat.le_of_lt

/-- Where the descent stops, there is a symbol of the address. -/
theorem linkSymbol_eq_none {path : List (Frame KernelSymbol)}
    (h : linkSymbol newSymbol root path = none) :
    ∃ entry ∈ root.toList, entry.address = newSymbol.address := by
  induction root generalizing path with
  | nil => cases h
  | node c left entry right ihl ihr =>
      simp only [RbTree.toList, List.mem_append, List.mem_cons]
      rw [linkSymbol] at h
      split at h
      · obtain ⟨e, he, heq⟩ := ihl h
        exact ⟨e, .inl he, heq⟩
      · next hge =>
        split at h
        · obtain ⟨e, he, heq⟩ := ihr h
          exact ⟨e, .inr (.inr he), heq⟩
        · next hle =>
          exact ⟨entry, .inr (.inl rfl), UInt64.le_antisymm (UInt64.not_lt.mp hge) (UInt64.not_lt.mp hle)⟩

/-- Where it does not, it is the descent of every insertion, and there is none. -/
theorem linkSymbol_eq_some {path path' : List (Frame KernelSymbol)}
    (hsorted : root.Sorted KernelSymbol.key) (h : linkSymbol newSymbol root path = some path') :
    path' = linkPath KernelSymbol.key newSymbol root path ∧
      ∀ entry ∈ root.toList, entry.address ≠ newSymbol.address := by
  induction root generalizing path with
  | nil => exact ⟨(Option.some.inj h).symm, by simp [RbTree.toList]⟩
  | node c left entry right ihl ihr =>
      obtain ⟨hl, hr, hle, hge, -⟩ := sorted_node.mp hsorted
      simp only [RbTree.toList, List.mem_append, List.mem_cons]
      rw [linkSymbol] at h
      split at h
      · next hlt =>
        have hkey : newSymbol.key < entry.key := hlt
        obtain ⟨rfl, hne⟩ := ihl hl h
        refine ⟨by rw [linkPath, if_pos hkey], ?_⟩
        rintro e (he | rfl | he) heq
        · exact hne e he heq
        · exact absurd hlt (heq ▸ UInt64.lt_irrefl _)
        · have := hge e he
          have := KernelSymbol.key_inj.mpr heq
          omega
      · next hnlt =>
        split at h
        · next hgt =>
          have hkey : entry.key < newSymbol.key := hgt
          obtain ⟨rfl, hne⟩ := ihr hr h
          refine ⟨by rw [linkPath, if_neg (Nat.not_lt.mpr hkey.le)], ?_⟩
          rintro e (he | rfl | he) heq
          · have := hle e he
            have := KernelSymbol.key_inj.mpr heq
            omega
          · exact absurd hgt (heq ▸ UInt64.lt_irrefl _)
          · exact hne e he heq
        · cases h

/-- **Inserting a symbol** keeps the first symbol of each address. -/
theorem Loaded.insertSymbol (hkeeps : KeepsSequence rebalance) (h : Loaded symbols root)
    (newSymbol : KernelSymbol) :
    Loaded (symbols ++ [newSymbol]) (insertSymbol rebalance root newSymbol).1 := by
  rw [Profiling.insertSymbol]
  cases hlink : linkSymbol newSymbol root [] with
  | none =>
      -- a symbol of the address is in front of the new one already
      obtain ⟨entry, hentry, heq⟩ := linkSymbol_eq_none hlink
      have hfound := (h.mem_iff entry).mp hentry
      refine ⟨h.sorted, fun symbol => ?_⟩
      rw [h.mem_iff, List.find?_append]
      by_cases haddr : newSymbol.address = symbol.address
      · rw [heq, haddr] at hfound
        rw [hfound, Option.some_or]
      · simp [haddr]
  | some path =>
      obtain ⟨rfl, hne⟩ := linkSymbol_eq_some h.le hlink
      have hnone : symbols.find? (fun other => other.address == newSymbol.address) = none := by
        cases hfind : symbols.find? (fun other => other.address == newSymbol.address) with
        | none => rfl
        | some entry =>
            have haddr : entry.address = newSymbol.address := by
              simpa using List.find?_some hfind
            exact absurd haddr (hne entry ((h.mem_iff entry).mpr (haddr ▸ hfind)))
      obtain ⟨as, bs, hold, hnew, has, hbs⟩ := insertWith_spec hkeeps h.le newSymbol
      rw [insertWith] at hnew
      have hmem : ∀ symbol, symbol ∈ as ++ newSymbol :: bs ↔
          symbol = newSymbol ∨ symbol ∈ root.toList := by
        intro symbol
        rw [hold, List.mem_append, List.mem_append, List.mem_cons]
        exact or_left_comm
      have hlt : ∀ a ∈ as, a.key < newSymbol.key := fun a ha =>
        lt_of_le_of_ne (has a ha) fun heq =>
          hne a (hold ▸ List.mem_append_left bs ha) (KernelSymbol.key_inj.mp heq)
      constructor
      · have hsorted := h.sorted
        rw [hold, List.pairwise_append] at hsorted
        obtain ⟨h₁, h₂, h₁₂⟩ := hsorted
        rw [hnew, List.pairwise_append, List.pairwise_cons]
        refine ⟨h₁, ⟨hbs, h₂⟩, fun a ha b hb => ?_⟩
        obtain rfl | hb := List.mem_cons.mp hb
        · exact hlt a ha
        · exact h₁₂ a ha b hb
      · intro symbol
        rw [hnew, hmem, h.mem_iff, List.find?_append]
        by_cases haddr : newSymbol.address = symbol.address
        · rw [haddr] at hnone
          simp [hnone, haddr, eq_comm]
        · have hne : symbol ≠ newSymbol := fun heq => haddr (by rw [heq])
          simp [haddr, hne]

end Insert

/-! ## The tree -/

section Load

variable {rebalance : Rebalancing KernelSymbol}

/-- The loop inserts the text symbols, one after another. -/
theorem loadSymbolLines_text (lines : List KallsymsLine) (i : Nat)
    (root : RbTree KernelSymbol) :
    loadSymbolLines rebalance (fun _ => true) i root (lines.map fun line => line.text ++ [10]) =
      (textSymbols lines).foldl (fun root symbol => (insertSymbol rebalance root symbol).1) root := by
  induction lines generalizing i root with
  | nil => rfl
  | cons line lines ih =>
      rw [List.map_cons, loadSymbolLines, loadSymbolLine_text, ih, textSymbols, textSymbols]
      cases htype : isTextType line.type with
      | true => simp only [List.filter_cons, htype, if_true, List.map_cons, List.foldl_cons]
      | false => simp only [List.filter_cons, htype, Bool.false_eq_true, if_false]

/-- **The tree that is loaded.** -/
theorem loadKernelSymbols_spec (hkeeps : KeepsSequence rebalance) (lines : List KallsymsLine) :
    ∃ root, loadKernelSymbols rebalance (kallsymsReads lines) = some root ∧
      Loaded (textSymbols lines) root := by
  have hlines : getlines (kallsymsText lines) = lines.map fun line => line.text ++ [10] := by
    rw [kallsymsText, getlines_lines, List.map_map]
    · rfl
    · rw [List.forall_mem_map]
      exact fun line _ => newline_notMem_text line
  refine ⟨loadSymbolLines rebalance (fun _ => true) 0 .nil (getlines (kallsymsText lines)), rfl, ?_⟩
  rw [hlines, loadSymbolLines_text]
  induction textSymbols lines using List.reverseRecOn with
  | nil => exact loaded_nil
  | append_singleton symbols symbol ih =>
      rw [List.foldl_concat]
      exact ih.insertSymbol hkeeps symbol

end Load

/-! ## The search -/

section Find

variable {rebalance : Rebalancing KernelSymbol} {root : RbTree KernelSymbol}
  {lines : List KallsymsLine} {addr : UInt64} {line : KallsymsLine}

theorem kernelSymbolLoop_eq_floorWalk (found : Option KernelSymbol) :
    kernelSymbolLoop addr root found =
      floorWalk (fun symbol => decide (symbol.address ≤ addr)) root found := by
  induction root generalizing found with
  | nil => rfl
  | node c left current right ihl ihr => simp only [kernelSymbolLoop, floorWalk, ihl, ihr, decide_eq_true_eq]

/-- The search gives the last of the symbols that are not above the address. -/
theorem kernelSymbolLoop_eq (h : root.Sorted KernelSymbol.key) :
    kernelSymbolLoop addr root none =
      (root.toList.filter fun symbol => decide (symbol.address ≤ addr)).getLast? := by
  have hprefix : root.toList.Pairwise fun a b =>
      decide (b.address ≤ addr) = true → decide (a.address ≤ addr) = true := by
    refine h.imp fun {a b} hab hb => ?_
    rw [decide_eq_true_eq] at hb ⊢
    exact UInt64.le_trans (UInt64.le_iff_toNat_le.mpr hab) hb
  rw [kernelSymbolLoop_eq_floorWalk, floorWalk_eq hprefix, Option.or_none]

/-- In ascending order, the last is the greatest. -/
theorem getLast?_filter_of_max {symbols : List KernelSymbol} {p : KernelSymbol → Bool}
    {symbol : KernelSymbol} (h : symbols.Pairwise fun a b => a.key < b.key)
    (hmem : symbol ∈ symbols) (hp : p symbol = true)
    (hmax : ∀ other ∈ symbols, p other = true → other.key ≤ symbol.key) :
    (symbols.filter p).getLast? = some symbol := by
  obtain ⟨as, bs, rfl⟩ := List.append_of_mem hmem
  obtain ⟨-, hbehind, -⟩ := List.pairwise_append.mp h
  have hnil : bs.filter p = [] := by
    refine List.filter_eq_nil_iff.mpr fun b hb hpb => ?_
    have hlt := List.rel_of_pairwise_cons hbehind hb
    have hle := hmax b (by simp [hb]) hpb
    omega
  rw [List.filter_append, List.filter_cons_of_pos hp, hnil, List.getLast?_concat]

/-- A symbol in the tree is that of a line. -/
theorem Loaded.exists_line (h : Loaded (textSymbols lines) root) {symbol : KernelSymbol}
    (hmem : symbol ∈ root.toList) : ∃ line ∈ lines, line.IsText ∧ line.symbol = symbol := by
  have htext := List.mem_of_find?_eq_some ((h.mem_iff symbol).mp hmem)
  obtain ⟨line, hline, heq⟩ := List.mem_map.mp htext
  obtain ⟨hline, htype⟩ := List.mem_filter.mp hline
  exact ⟨line, hline, htype, heq⟩

/-- The first line of an address is in the tree. -/
theorem Loaded.mem_first (h : Loaded (textSymbols lines) root) {front back : List KallsymsLine}
    (hlines : lines = front ++ line :: back) (htext : line.IsText)
    (hfirst : ∀ other ∈ front, other.IsText → other.address ≠ line.address) :
    line.symbol ∈ root.toList := by
  have hfront : (textSymbols front).find? (fun other => other.address == line.symbol.address) =
      none := by
    rw [List.find?_eq_none, textSymbols, List.forall_mem_map]
    intro other hother
    obtain ⟨hother, htype⟩ := List.mem_filter.mp hother
    simpa [KallsymsLine.symbol] using hfirst other hother htype
  have hsplit : textSymbols lines = textSymbols front ++ line.symbol :: textSymbols back := by
    have htype : isTextType line.type = true := htext
    simp only [hlines, textSymbols, List.filter_append, List.filter_cons, htype, if_true,
      List.map_append, List.map_cons]
  rw [h.mem_iff, hsplit, List.find?_append, hfront, Option.none_or, List.find?_cons_of_pos]
  exact beq_self_eq_true _

/-- **The nearest line is found.** -/
theorem Loaded.findKernelSymbol_of_isNearestLine (h : Loaded (textSymbols lines) root)
    (hnearest : IsNearestLine lines addr line) :
    findKernelSymbol (some root) addr = line.name.take 255 := by
  obtain ⟨front, back, hlines, htext, hle, hmax, hfirst⟩ := hnearest
  have hfound : kernelSymbolLoop addr root none = some line.symbol := by
    rw [kernelSymbolLoop_eq h.le]
    refine getLast?_filter_of_max h.sorted (h.mem_first hlines htext hfirst) (decide_eq_true hle) ?_
    intro other hother hbelow
    obtain ⟨otherLine, hmem, hotherText, rfl⟩ := h.exists_line hother
    exact UInt64.le_iff_toNat_le.mp 
      (hmax otherLine hmem hotherText (of_decide_eq_true hbelow))
  simp only [findKernelSymbol, hfound]
  rfl

/-- Below all lines, none is found. -/
theorem Loaded.findKernelSymbol_of_below (h : Loaded (textSymbols lines) root)
    (hbelow : ∀ line ∈ lines, line.IsText → addr < line.address) :
    findKernelSymbol (some root) addr = cstr "unknown_kernel_function" := by
  have hnone : kernelSymbolLoop addr root none = none := by
    rw [kernelSymbolLoop_eq h.le, List.getLast?_eq_none_iff, List.filter_eq_nil_iff]
    intro symbol hsymbol
    obtain ⟨line, hline, htext, rfl⟩ := h.exists_line hsymbol
    rw [decide_eq_true_eq]
    exact UInt64.not_le.mpr (hbelow line hline htext)
  simp only [findKernelSymbol, hnone]

/-- If a line is not above the address, one of them is the nearest. -/
theorem exists_isNearestLine (hline : line ∈ lines) (htext : line.IsText)
    (hle : line.address ≤ addr) : ∃ nearest, IsNearestLine lines addr nearest := by
  let height := fun line : KallsymsLine => line.address.toNat
  let candidates := lines.filter fun line => isTextType line.type && decide (line.address ≤ addr)
  have hmem : ∀ other, other ∈ candidates ↔
      other ∈ lines ∧ other.IsText ∧ other.address ≤ addr := by
    intro other
    simp [candidates, KallsymsLine.IsText]
  have hne : candidates ≠ [] := List.ne_nil_of_mem ((hmem line).mpr ⟨hline, htext, hle⟩)
  obtain ⟨greatest, hgreatest⟩ : ∃ m, m ∈ candidates.argmax height :=
    Option.ne_none_iff_exists'.mp fun hnone => hne (List.argmax_eq_none.mp hnone)
  obtain ⟨hin, hgtext, hgle⟩ := (hmem greatest).mp (List.argmax_mem hgreatest)
  -- of the lines of that address, the first
  let alike := fun line : KallsymsLine =>
    isTextType line.type && line.address == greatest.address
  have hgreat : alike greatest = true := by simpa [alike, KallsymsLine.IsText] using hgtext
  obtain ⟨nearest, hnearest⟩ :=
    Option.isSome_iff_exists.mp (List.find?_isSome.mpr ⟨greatest, hin, hgreat⟩)
  obtain ⟨hp, front, back, hsplit, hfirst⟩ := List.find?_eq_some_iff_append.mp hnearest
  obtain ⟨hntext, hnaddr⟩ : nearest.IsText ∧ nearest.address = greatest.address := by
    simpa [alike, KallsymsLine.IsText] using hp
  refine ⟨nearest, front, back, hsplit, hntext, hnaddr ▸ hgle, fun other hother hotext hole => ?_,
    fun other hother hotext heq => ?_⟩
  · rw [hnaddr]
    have hheight : height other ≤ height greatest :=
      List.le_of_mem_argmax ((hmem other).mpr ⟨hother, hotext, hole⟩) hgreatest
    exact UInt64.le_iff_toNat_le.mpr hheight
  · have := hfirst other hother
    simp only [alike, Bool.not_eq_true', Bool.and_eq_false_iff, beq_eq_false_iff_ne] at this
    rcases this with hno | hno
    · exact absurd hotext (by simp [KallsymsLine.IsText, hno])
    · exact hno (heq.trans hnaddr)

/-- **Looking up a kernel address.**  It is answered with the name of the nearest
line, cut to what `name[256]` holds, and with the fallback just when there is no
such line or it is named so. -/
theorem findKernelSymbol_loadKernelSymbols (hkeeps : KeepsSequence rebalance)
    (lines : List KallsymsLine) (addr : UInt64) :
    ∃ root, loadKernelSymbols rebalance (kallsymsReads lines) = some root ∧
      (∀ line, IsNearestLine lines addr line →
        findKernelSymbol (some root) addr = line.name.take 255) ∧
      ((∃ line, IsNearestLine lines addr line) ↔
        ∃ line ∈ lines, line.IsText ∧ line.address ≤ addr) ∧
      (findKernelSymbol (some root) addr = cstr "unknown_kernel_function" ↔
        (∀ line, ¬IsNearestLine lines addr line) ∨
          ∃ line, IsNearestLine lines addr line ∧
            line.name = cstr "unknown_kernel_function") := by
  obtain ⟨root, hload, h⟩ := loadKernelSymbols_spec hkeeps lines
  have hexists : (∃ line, IsNearestLine lines addr line) ↔
      ∃ line ∈ lines, line.IsText ∧ line.address ≤ addr := by
    constructor
    · rintro ⟨line, front, back, hlines, htext, hle, -, -⟩
      exact ⟨line, by simp [hlines], htext, hle⟩
    · rintro ⟨line, hline, htext, hle⟩
      exact exists_isNearestLine hline htext hle
  refine ⟨root, hload, fun line => h.findKernelSymbol_of_isNearestLine, hexists, ?_, ?_⟩
  · intro hunknown
    by_cases hsome : ∃ line, IsNearestLine lines addr line
    · obtain ⟨line, hline⟩ := hsome
      rw [h.findKernelSymbol_of_isNearestLine hline] at hunknown
      refine .inr ⟨line, hline, ?_⟩
      -- the fallback is shorter than the buffer, so nothing has been cut off
      have hlength := congrArg List.length hunknown
      rw [List.length_take, show (cstr "unknown_kernel_function").length = 23 from rfl] at hlength
      rwa [List.take_of_length_le (by omega)] at hunknown
    · exact .inl (not_exists.mp hsome)
  · rintro (hnone | ⟨line, hline, hname⟩)
    · refine h.findKernelSymbol_of_below fun line hline htext => ?_
      by_contra hnot
      have hle := UInt64.not_lt.mp hnot
      obtain ⟨nearest, hnearest⟩ := hexists.mpr ⟨line, hline, htext, hle⟩
      exact hnone nearest hnearest
    · rw [h.findKernelSymbol_of_isNearestLine hline, hname]
      rfl

end Find

/-- A line with this address, this type and this name, of no module. -/
def plainLine (address : UInt64) (type : UInt8) (name : CString)
    (htype : isspace type = false ∧ type ≠ 0) (hne : name ≠ [])
    (hname : ∀ b ∈ name, isspace b = false ∧ b ≠ 0) : KallsymsLine where
  address := address
  type := type
  name := name
  origin := []
  type_clean := htype
  name_ne_nil := hne
  name_clean := hname
  origin_blank := by simp [EndsToken]
  origin_line := List.not_mem_nil

/-- `T sys_read` -/
def sysReadLine : KallsymsLine :=
  plainLine 0x1000 84 (cstr "sys_read") (by decide) (by decide) (by decide +kernel)

/-- `t alias`, at the same address -/
def aliasLine : KallsymsLine :=
  plainLine 0x1000 116 (cstr "alias") (by decide) (by decide) (by decide +kernel)

theorem isNearestLine_sysRead : IsNearestLine [sysReadLine, aliasLine] 0x1008 sysReadLine := by
  refine ⟨[], [aliasLine], rfl, rfl, by decide, ?_, by simp⟩
  rintro other hother - -
  simp only [List.mem_cons, List.not_mem_nil, or_false] at hother
  rcases hother with rfl | rfl <;> decide

theorem findKernelSymbol_sysRead :
    ∃ root, loadKernelSymbols repaired (kallsymsReads [sysReadLine, aliasLine]) = some root ∧
      findKernelSymbol (some root) 0x1008 = cstr "sys_read" := by
  obtain ⟨root, hload, hfind, -, -⟩ :=
    findKernelSymbol_loadKernelSymbols keepsSequence_repaired [sysReadLine, aliasLine] 0x1008
  exact ⟨root, hload, hfind sysReadLine isNearestLine_sysRead⟩

/-- A name of 256 bytes. -/
def longNameLine : KallsymsLine :=
  plainLine 0x1000 84 (List.replicate 256 97) (by decide) (by decide)
    fun b hb => by rw [List.eq_of_mem_replicate hb]; decide

/-- A name that does not fit into `name[256]` is cut. -/
theorem findKernelSymbol_longName :
    IsNearestLine [longNameLine] 0x1000 longNameLine ∧
      ∀ root, loadKernelSymbols repaired (kallsymsReads [longNameLine]) = some root →
        findKernelSymbol (some root) 0x1000 ≠ longNameLine.name := by
  have hnearest : IsNearestLine [longNameLine] 0x1000 longNameLine := by
    refine ⟨[], [], rfl, rfl, by decide, ?_, by simp⟩
    rintro other hother - -
    obtain rfl := List.mem_singleton.mp hother
    exact UInt64.le_refl _
  refine ⟨hnearest, fun root hload heq => ?_⟩
  obtain ⟨root', hload', h⟩ := loadKernelSymbols_spec keepsSequence_repaired [longNameLine]
  obtain rfl := Option.some.inj (hload.symm.trans hload')
  rw [h.findKernelSymbol_of_isNearestLine hnearest] at heq
  have hlength := congrArg List.length heq
  rw [List.length_take, show longNameLine.name.length = 256 from List.length_replicate] at hlength
  exact absurd hlength (by decide)

end Profiling
