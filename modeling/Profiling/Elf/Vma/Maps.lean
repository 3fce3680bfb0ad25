import Profiling.Elf.Vma.Search
import Profiling.Scanf.Line

/-!
# Profiling.Elf.Vma.Maps

`parse_process_memory_maps` of `src/elf/vma.c`: from the text of
`/proc/<pid>/maps` to the tree of memory areas.

The text is read with `fgets` into `line[512]`, every piece is scanned, and
whatever the scan has assigned is inserted.  A line that fits becomes the area
that it describes (`describes_scanVma`); a longer one is read in pieces, and
each of them becomes an area (`parseProcessMemoryMaps_iff`).
-/

namespace Profiling

open RbTree

/-! ## The parser -/

/-- `"%lx-%lx %4s %lx %*s %*d %255s"` -/
def mapsFormat : List Conversion :=
  [.readHex, .literal 45, .readHex, .space, .readString 4, .space, .readHex, .space, .skipString,
    .space, .skipInt, .space, .readString 255]

/-- A number that the scan has assigned; `calloc` has left a zero else. -/
def scannedNumber (scanned : List Scanned) (i : Nat) : UInt64 :=
  match scanned[i]? with
  | some (.number n) => n
  | _ => 0

/-- A string that the scan has assigned to a buffer of zeros. -/
def scannedString (scanned : List Scanned) (i : Nat) : CString :=
  match scanned[i]? with
  | some (.string s) => s
  | _ => []

/-- The `vm_flags` of `perm`: `READ`, `WRITE` and `EXECUTE`. -/
def permFlags (perm : CString) : Nat :=
  (if perm[0]? = some 114 then 0x1 else 0) ||| (if perm[1]? = some 119 then 0x2 else 0) |||
    (if perm[2]? = some 120 then 0x4 else 0)

/-- The area that a piece of the file is made into. -/
def scanVma (line : CString) : VirtualMemoryArea :=
  let scanned := sscanf mapsFormat (bufferString line)
  let regionName := scannedString scanned 4
  { startAddr := scannedNumber scanned 0
    endAddr := scannedNumber scanned 1
    vmFlags := permFlags (scannedString scanned 2)
    fileOffset := scannedNumber scanned 3
    mappingName := if regionName = [] then none else some regionName
    elfFile := none }

/-- The loop of `parse_process_memory_maps`, from a piece on; `allocated` says
whether `calloc` succeeds.  `none` stands for a `NULL` that the repair follows. -/
def mapsLoop (allocated : Nat → Bool) :
    Nat → RbTree VirtualMemoryArea → List CString → Option (Int × RbTree VirtualMemoryArea)
  | _, memoryMapTree, [] => some (0, memoryMapTree)
  | i, memoryMapTree, line :: lines =>
      if allocated i then
        match insertVma memoryMapTree (scanVma line) with
        | none => none
        | some memoryMapTree => mapsLoop allocated (i + 1) memoryMapTree lines
      else some (1, memoryMapTree)

/-- `parse_process_memory_maps`: what it returns, and `memory_map_tree`; `file` is
what `fopen` finds. -/
def parseProcessMemoryMaps (file : Option CString) (allocated : Nat → Bool)
    (memoryMapTree : RbTree VirtualMemoryArea) : Option (Int × RbTree VirtualMemoryArea) :=
  match file with
  | none => some (1, memoryMapTree)
  | some text => mapsLoop allocated 0 .nil (fgetsLines 512 text)

/-! ## What is in the file -/

/-- A line of `/proc/<pid>/maps`. -/
structure MapsLine where
  startAddr : UInt64
  endAddr : UInt64
  read : Bool
  write : Bool
  execute : Bool
  shared : Bool
  offset : UInt64
  major : Nat
  minor : Nat
  inode : Nat
  /-- the number of blanks in front of the path, besides the one behind the inode -/
  padding : Nat
  path : CString
  nonempty : startAddr < endAddr
  path_line : 10 ∉ path

namespace MapsLine

/-- `rwxp` -/
def perms (line : MapsLine) : CString :=
  [if line.read then 114 else 45, if line.write then 119 else 45,
    if line.execute then 120 else 45, if line.shared then 115 else 112]

/-- `08:01` -/
def dev (line : MapsLine) : CString := hexText 2 line.major ++ 58 :: hexText 2 line.minor

/-- What is behind the inode. -/
def tail (line : MapsLine) : CString := List.replicate line.padding 32 ++ line.path

/-- The line in front of the blanks and the path. -/
def columns (line : MapsLine) (rest : CString) : CString :=
  hexText 8 line.startAddr.toNat ++ 45 :: (hexText 8 line.endAddr.toNat ++ 32 ::
    (line.perms ++ 32 :: (hexText 8 line.offset.toNat ++ 32 ::
      (line.dev ++ 32 :: (cstr (toString (line.inode : Int)) ++ 32 :: rest)))))

/-- The line as the kernel prints it, without its newline. -/
def text (line : MapsLine) : CString := line.columns line.tail

/-- The permissions as flags. -/
def flags (line : MapsLine) : Nat :=
  (if line.read then 0x1 else 0) ||| (if line.write then 0x2 else 0) |||
    (if line.execute then 0x4 else 0)

/-- The area has the start, the end, the offset and the permissions of the line. -/
def Describes (line : MapsLine) (vma : VirtualMemoryArea) : Prop :=
  vma.startAddr = line.startAddr ∧ vma.endAddr = line.endAddr ∧ vma.fileOffset = line.offset ∧
    vma.vmFlags = line.flags

/-- The line fits into `line[512]`, with its newline and the NUL. -/
def Fits (line : MapsLine) : Prop := line.text.length + 1 ≤ 511

instance (line : MapsLine) : Decidable line.Fits := inferInstanceAs (Decidable (_ ≤ _))

end MapsLine

/-- The file. -/
def mapsText (lines : List MapsLine) : CString := (lines.map MapsLine.text).flatMap (· ++ [10])

/-! ## Reading a line -/

section

variable {line : MapsLine}

theorem isspace_of_mem_perms : ∀ b ∈ line.perms, isspace b = false ∧ b ≠ 0 := by
  intro b hb
  simp only [MapsLine.perms, List.mem_cons, List.not_mem_nil, or_false] at hb
  rcases hb with rfl | rfl | rfl | rfl <;> split <;> decide

theorem isspace_of_mem_dev : ∀ b ∈ line.dev, isspace b = false ∧ b ≠ 0 := by
  intro b hb
  rw [MapsLine.dev, List.mem_append, List.mem_cons] at hb
  have hdigit : ∀ c, isxdigit c = true → isspace c = false ∧ c ≠ 0 := fun c hc =>
    ⟨not_isspace_of_isxdigit hc, fun h => absurd (h ▸ hc) (by decide)⟩
  rcases hb with hb | rfl | hb
  · exact hdigit b (isxdigit_of_mem_hexText hb)
  · decide
  · exact hdigit b (isxdigit_of_mem_hexText hb)

theorem dev_ne_nil : line.dev ≠ [] := List.append_ne_nil_of_left_ne_nil (hexText_ne_nil _ _) _

theorem perms_ne_nil : line.perms ≠ [] := List.cons_ne_nil _ _

theorem length_perms : line.perms.length = 4 := rfl

theorem permFlags_perms : permFlags line.perms = line.flags := by
  obtain ⟨-, -, read, write, execute, -, -, -, -, -, -, -, -, -⟩ := line
  cases read <;> cases write <;> cases execute <;> rfl

/-- A blank ends a number. -/
theorem endsHex_space (rest : CString) : EndsHex (32 :: rest) := by
  rintro b ⟨⟩
  decide

theorem endsToken_space (rest : CString) : EndsToken (32 :: rest) := by
  rintro b ⟨⟩
  rfl

theorem endsNumber_space (rest : CString) : EndsNumber (32 :: rest) := by
  rintro b ⟨⟩
  rfl

/-- **A line is taken apart** into its start, its end, its permissions and its
offset, and what is behind the inode may be a name. -/
theorem sscanf_maps (line : MapsLine) (rest : CString) :
    ∃ name, sscanf mapsFormat (line.columns rest) =
      [.number line.startAddr, .number line.endAddr, .string line.perms, .number line.offset] ++
        name := by
  have hminus : ∀ rest, EndsHex (45 :: rest) := by
    rintro rest b ⟨⟩
    decide
  have hhex : ∀ (n : UInt64) (rest : CString) (format : List Conversion),
      sscanf (.space :: .readHex :: format) (32 :: (hexText 8 n.toNat ++ 32 :: rest)) =
        .number n :: sscanf format (32 :: rest) := by
    intro n rest format
    rw [sscanf_space_token (hexText_ne_nil _ _) fun b hb =>
        not_isspace_of_isxdigit (isxdigit_of_mem_hexText hb),
      sscanf_readHex n.toNat_lt 8 (endsHex_space rest), UInt64.ofNat_toNat]
  have hperms : ∀ b ∈ line.perms, isspace b = false := fun b hb => (isspace_of_mem_perms b hb).1
  have hdev : ∀ b ∈ line.dev, isspace b = false := fun b hb => (isspace_of_mem_dev b hb).1
  have hinode : (cstr (toString (line.inode : Int)) ++ 32 :: rest).dropWhile isspace =
      cstr (toString (line.inode : Int)) ++ 32 :: rest := dropWhile_isspace_toString _ _
  refine ⟨sscanf [.space, .readString 255] (32 :: rest), ?_⟩
  rw [MapsLine.columns, mapsFormat, sscanf_readHex line.startAddr.toNat_lt 8 (hminus _),
    sscanf_literal, sscanf_readHex line.endAddr.toNat_lt 8 (endsHex_space _),
    sscanf_space_token perms_ne_nil hperms,
    sscanf_readString (by decide) perms_ne_nil hperms (endsToken_space _),
    List.take_of_length_le length_perms.le, List.drop_of_length_le length_perms.le,
    List.nil_append, hhex, sscanf_space_token dev_ne_nil hdev,
    sscanf_skipString dev_ne_nil hdev (endsToken_space _), sscanf_space,
    List.dropWhile_cons_of_pos (by decide), hinode, sscanf_skipInt _ (endsNumber_space rest),
    UInt64.ofNat_toNat, UInt64.ofNat_toNat]
  rfl

theorem newline_notMem_mapsText : 10 ∉ line.text := by
  have hhex : ∀ width n, 10 ∉ hexText width n := fun width n h =>
    absurd (isxdigit_of_mem_hexText h) (by decide)
  have hperms : 10 ∉ line.perms := fun h => absurd (isspace_of_mem_perms 10 h).1 (by decide)
  have hdev : 10 ∉ line.dev := fun h => absurd (isspace_of_mem_dev 10 h).1 (by decide)
  have hinode : 10 ∉ cstr (toString (line.inode : Int)) := fun h => by
    rcases mem_cstr_toString h with h | h <;> exact absurd h (by decide)
  have htail : 10 ∉ line.tail := by
    rw [MapsLine.tail, List.mem_append, not_or]
    exact ⟨fun h => absurd (List.eq_of_mem_replicate h) (by decide), line.path_line⟩
  simp only [MapsLine.text, MapsLine.columns, List.mem_append, List.mem_cons, not_or]
  exact ⟨hhex _ _, by decide, hhex _ _, by decide, hperms, by decide, hhex _ _, by decide, hdev,
    by decide, hinode, by decide, htail⟩

/-- What is left of a line in the buffer as a string: the columns are. -/
theorem bufferString_mapsText (line : MapsLine) :
    ∃ rest, bufferString (line.text ++ [10]) = line.columns rest := by
  have hpos : ∀ {b : UInt8}, b ≠ 0 → (b != 0) = true := fun h => bne_iff_ne.mpr h
  have hhex : ∀ width n, ∀ b ∈ hexText width n, (b != 0) = true := fun width n b hb =>
    hpos fun h => absurd (isxdigit_of_mem_hexText (h ▸ hb)) (by decide)
  have hinode : ∀ b ∈ cstr (toString (line.inode : Int)), (b != 0) = true := fun b hb =>
    hpos fun h => by rcases mem_cstr_toString (h ▸ hb) with h | h <;> exact absurd h (by decide)
  refine ⟨(line.tail ++ [10]).takeWhile fun b => b != 0, ?_⟩
  simp only [bufferString, MapsLine.text, MapsLine.columns, List.append_assoc, List.cons_append]
  rw [List.takeWhile_append_of_pos (hhex _ _), List.takeWhile_cons_of_pos (by decide),
    List.takeWhile_append_of_pos (hhex _ _), List.takeWhile_cons_of_pos (by decide),
    List.takeWhile_append_of_pos fun b hb => hpos (isspace_of_mem_perms b hb).2,
    List.takeWhile_cons_of_pos (by decide), List.takeWhile_append_of_pos (hhex _ _),
    List.takeWhile_cons_of_pos (by decide),
    List.takeWhile_append_of_pos fun b hb => hpos (isspace_of_mem_dev b hb).2,
    List.takeWhile_cons_of_pos (by decide), List.takeWhile_append_of_pos hinode,
    List.takeWhile_cons_of_pos (by decide)]

/-- **A line that is read whole** becomes the area that it describes. -/
theorem describes_scanVma (line : MapsLine) : line.Describes (scanVma (line.text ++ [10])) := by
  obtain ⟨rest, hstring⟩ := bufferString_mapsText line
  obtain ⟨name, hscan⟩ := sscanf_maps line rest
  rw [← hstring] at hscan
  refine ⟨?_, ?_, ?_, ?_⟩
  · simp only [scanVma, hscan]
    rfl
  · simp only [scanVma, hscan]
    rfl
  · simp only [scanVma, hscan]
    rfl
  · simp only [scanVma, hscan]
    exact permFlags_perms

end

/-! ## The tree -/

/-- The loop finishes, and every piece has become an area of the tree. -/
theorem mapsLoop_spec {memoryMapTree : RbTree VirtualMemoryArea}
    (hroot : memoryMapTree.color = .black) (hsorted : memoryMapTree.Sorted VirtualMemoryArea.key)
    (i : Nat) (pieces : List CString) :
    ∃ tree, mapsLoop (fun _ => true) i memoryMapTree pieces = some (0, tree) ∧
      tree.Sorted VirtualMemoryArea.key ∧
      tree.toList.Perm (memoryMapTree.toList ++ pieces.map scanVma) := by
  induction pieces generalizing i memoryMapTree with
  | nil => exact ⟨memoryMapTree, rfl, hsorted, by rw [List.map_nil, List.append_nil]⟩
  | cons line lines ih =>
      obtain ⟨next, as, bs, hins, hblack, hnext, hold, hnew, -, -⟩ :=
        rbInsert_spec (x := scanVma line) hroot hsorted
      obtain ⟨tree, hloop, htree, hperm⟩ := ih hblack hnext (i + 1)
      refine ⟨tree, ?_, htree, ?_⟩
      · rw [mapsLoop, if_pos rfl, insertVma, hins]
        exact hloop
      · have hmiddle : next.toList.Perm (memoryMapTree.toList ++ [scanVma line]) := by
          rw [hnew, hold, List.append_assoc]
          exact (List.perm_append_singleton _ bs).symm.append_left as
        rw [List.map_cons, ← List.singleton_append, ← List.append_assoc]
        exact hperm.trans (hmiddle.append_right _)

/-- The parser finishes, with an area for every piece of the file. -/
theorem parseProcessMemoryMaps_spec (text : CString) (memoryMapTree : RbTree VirtualMemoryArea) :
    ∃ tree, parseProcessMemoryMaps (some text) (fun _ => true) memoryMapTree = some (0, tree) ∧
      tree.Sorted VirtualMemoryArea.key ∧
      tree.toList.Perm ((fgetsLines 512 text).map scanVma) :=
  have hempty : (RbTree.nil : RbTree VirtualMemoryArea).Sorted VirtualMemoryArea.key :=
    List.Pairwise.nil
  mapsLoop_spec rfl hempty 0 (fgetsLines 512 text)

/-- Lines that fit are read as they are, and there are as many pieces as lines
just when they do. -/
theorem length_fgetsLines_iff (lines : List MapsLine) :
    (fgetsLines 512 (mapsText lines)).length = lines.length ↔ ∀ line ∈ lines, line.Fits := by
  have hnewline : ∀ body ∈ lines.map MapsLine.text, 10 ∉ body := by
    rw [List.forall_mem_map]
    exact fun line _ => newline_notMem_mapsText
  have hiff := @length_readLines_eq_iff (fun length => length + 1 == 512) _ hnewline
  rw [List.length_map, List.forall_mem_map] at hiff
  rw [fgetsLines, mapsText, hiff]
  refine forall₂_congr fun line _ => ?_
  constructor
  · intro hfull
    rw [MapsLine.Fits]
    by_contra hlong
    exact absurd (hfull 511 (by decide) (by omega)) (by decide)
  · intro hfits n hpos hle
    rw [MapsLine.Fits] at hfits
    rw [beq_eq_false_iff_ne]
    omega

theorem fgetsLines_of_fits {lines : List MapsLine} (h : ∀ line ∈ lines, line.Fits) :
    fgetsLines 512 (mapsText lines) = lines.map fun line => line.text ++ [10] := by
  rw [fgetsLines, mapsText, readLines_lines, List.map_map]
  · rfl
  · rw [List.forall_mem_map]
    exact fun line _ => newline_notMem_mapsText
  · rw [List.forall_mem_map]
    intro line hline n hpos hle
    have hfits : line.text.length + 1 ≤ 511 := h line hline
    rw [beq_eq_false_iff_ne]
    omega

/-- The areas of ascending lines are in the order of the tree. -/
theorem eq_of_perm_ascending {lines : List MapsLine} {vmas : List VirtualMemoryArea}
    (hascending : lines.Pairwise fun a b => a.endAddr ≤ b.startAddr)
    (hsorted : vmas.Pairwise fun a b => a.key ≤ b.key)
    (hperm : vmas.Perm (lines.map fun line => scanVma (line.text ++ [10]))) :
    vmas = lines.map fun line => scanVma (line.text ++ [10]) := by
  have hkey : ∀ line : MapsLine, (scanVma (line.text ++ [10])).key = line.startAddr.toNat :=
    fun line => by rw [VirtualMemoryArea.key, (describes_scanVma line).1]
  have hlt : (lines.map fun line => scanVma (line.text ++ [10])).Pairwise
      fun a b => a.key < b.key := by
    rw [List.pairwise_map]
    refine hascending.imp fun {a b} hle => ?_
    rw [hkey, hkey]
    exact lt_of_lt_of_le (UInt64.lt_iff_toNat_lt.mp a.nonempty) (UInt64.le_iff_toNat_le.mp hle)
  have hinj : ∀ a ∈ vmas, ∀ b ∈ lines.map (fun line => scanVma (line.text ++ [10])),
      a.key ≤ b.key → b.key ≤ a.key → a = b := by
    intro a ha b hb hab hba
    have hnodup : ((lines.map fun line => scanVma (line.text ++ [10])).map
        VirtualMemoryArea.key).Nodup := List.pairwise_map.mpr (hlt.imp Nat.ne_of_lt)
    exact List.inj_on_of_nodup_map hnodup (hperm.mem_iff.mp ha) hb (Nat.le_antisymm hab hba)
  exact hperm.eq_of_pairwise (fun a b ha hb => hinj a ha b hb) hsorted (hlt.imp Nat.le_of_lt)

/-- With one area for each line, every line fits. -/
theorem fits_of_describes {lines : List MapsLine} {memoryMapTree tree : RbTree VirtualMemoryArea}
    (hparse : parseProcessMemoryMaps (some (mapsText lines)) (fun _ => true) memoryMapTree =
      some (0, tree)) (hdescribes : List.Forall₂ MapsLine.Describes lines tree.toList) :
    ∀ line ∈ lines, line.Fits := by
  obtain ⟨tree', hparse', -, hperm⟩ := parseProcessMemoryMaps_spec (mapsText lines) memoryMapTree
  obtain rfl : tree' = tree := by
    have hpair := Option.some.inj (hparse'.symm.trans hparse)
    exact (Prod.mk.inj hpair).2
  have hlength := hperm.length_eq
  rw [List.length_map, ← hdescribes.length_eq] at hlength
  exact (length_fgetsLines_iff lines).mp hlength.symm

/-- **The areas of a process.**  For lines with disjoint ascending ranges the tree
has one area for each line, with its start, its end, its offset and its
permissions, and no other, just when every line fits into the buffer. -/
theorem parseProcessMemoryMaps_iff (lines : List MapsLine)
    (hascending : lines.Pairwise fun a b => a.endAddr ≤ b.startAddr)
    (memoryMapTree : RbTree VirtualMemoryArea) :
    (∃ tree, parseProcessMemoryMaps (some (mapsText lines)) (fun _ => true) memoryMapTree =
        some (0, tree) ∧ List.Forall₂ MapsLine.Describes lines tree.toList) ↔
      ∀ line ∈ lines, line.Fits := by
  constructor
  · rintro ⟨tree, hparse, hdescribes⟩
    exact fits_of_describes hparse hdescribes
  · intro hfits
    obtain ⟨tree, hparse, hsorted, hperm⟩ :=
      parseProcessMemoryMaps_spec (mapsText lines) memoryMapTree
    refine ⟨tree, hparse, ?_⟩
    rw [fgetsLines_of_fits hfits, List.map_map] at hperm
    rw [eq_of_perm_ascending hascending hsorted hperm, List.forall₂_map_right_iff,
      List.forall₂_same]
    exact fun line _ => describes_scanVma line

/-- `00400000-00401000 r-xp 00000000 08:01 9`, with a path. -/
def codeLine (path : CString) (hpath : 10 ∉ path) : MapsLine where
  startAddr := 0x400000
  endAddr := 0x401000
  read := true
  write := false
  execute := true
  shared := false
  offset := 0
  major := 8
  minor := 1
  inode := 9
  padding := 32
  path := path
  nonempty := by decide
  path_line := hpath

/-- Of one line, with a short path. -/
theorem parseProcessMemoryMaps_short :
    ∃ tree, parseProcessMemoryMaps (some (mapsText [codeLine (cstr "/bin/sh") (by decide)]))
        (fun _ => true) .nil = some (0, tree) ∧
      List.Forall₂ MapsLine.Describes [codeLine (cstr "/bin/sh") (by decide)] tree.toList :=
  (parseProcessMemoryMaps_iff [codeLine (cstr "/bin/sh") (by decide)]
    (List.pairwise_singleton _ _) .nil).mpr
    (List.forall_mem_singleton.mpr (by decide +kernel))

theorem newline_notMem_replicate (k : Nat) : (10 : UInt8) ∉ List.replicate k (97 : UInt8) :=
  fun h => absurd (List.eq_of_mem_replicate h) (by decide)

/-- A path of 440 bytes does not fit any more. -/
theorem parseProcessMemoryMaps_long :
    ¬∃ tree, parseProcessMemoryMaps
        (some (mapsText [codeLine (List.replicate 440 97) (newline_notMem_replicate 440)]))
        (fun _ => true) .nil = some (0, tree) ∧
      List.Forall₂ MapsLine.Describes
        [codeLine (List.replicate 440 97) (newline_notMem_replicate 440)] tree.toList := by
  rintro ⟨tree, hparse, hdescribes⟩
  have hfits := fits_of_describes hparse hdescribes _ (List.mem_singleton_self _)
  exact absurd hfits (by decide +kernel)

end Profiling
