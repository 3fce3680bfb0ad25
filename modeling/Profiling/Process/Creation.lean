import Profiling.Elf.Vma.Maps
import Profiling.Ledger
import Profiling.Process

/-!
# Profiling.Process.Creation

`find_new_process` of `src/core/process.c` with its allocations: the node, the
strings, and the areas that `parse_process_memory_maps` makes.

Where the allocations are left out it is `findNewProcess`
(`Alloc.findNewProcess_refines`).  An exit that returns `NULL` has given everything
back, but for the one behind a parser that failed: it frees the node alone
(`Alloc.findNewProcess_settled_iff`).
-/

namespace Profiling

/-- A string of the heap: its block, and its text. -/
structure HeapString where
  block : Nat
  text : CString
  deriving DecidableEq, Repr

/-- The block that a pointer to a string has, if it is not `NULL`. -/
def blockOf (pointer : Option HeapString) : Option Nat := pointer.map (·.block)

/-- The string that a pointer points to. -/
def textOf (pointer : Option HeapString) : Option CString := pointer.map (·.text)

@[simp] theorem textOf_none : textOf none = none := rfl

@[simp] theorem textOf_some (s : HeapString) : textOf (some s) = some s.text := rfl

@[simp] theorem blockOf_none : blockOf none = none := rfl

@[simp] theorem blockOf_some (s : HeapString) : blockOf (some s) = some s.block := rfl

/-- What one `read_proc_file` comes to. -/
structure FileRead where
  opened : Bool
  /-- `malloc` of the buffer -/
  allocated : Bool
  /-- what is in the file; nothing where `read` fails -/
  content : List UInt8

/-- The outcomes of one `find_new_process`. -/
structure CreationSteps where
  calloc : Bool
  startTime : Nat
  comm : FileRead
  cmdline : FileRead
  dupName : Bool
  dupCmdline : Bool
  alive : Bool
  /-- what `fopen` finds -/
  maps : Option CString
  /-- the `calloc` of each area, and the `strdup` of its name -/
  callocVma : Nat → Bool
  dupRegion : Nat → Bool

/-! ## The function -/

namespace Alloc

/-- `read_proc_file`; `read` is what it makes of the bytes. -/
def readProcFile (read : Option (List UInt8) → Option CString) (file : FileRead) (l : Ledger) :
    Option HeapString × Ledger :=
  if file.opened && file.allocated then
    let (buffer, l) := l.acquire
    match read (some file.content) with
    | none => (none, l.release buffer)
    | some text => (some ⟨buffer, text⟩, l)
  else (none, l)

/-- `strdup` -/
def strdup (allocated : Bool) (text : CString) (l : Ledger) : Option HeapString × Ledger :=
  if allocated then
    let (block, l) := l.acquire
    (some ⟨block, text⟩, l)
  else (none, l)

/-- The name, where `comm` could not be read or is empty. -/
def fallbackName (dupName : Bool) (pid : Int) (name commandLine : Option HeapString)
    (l : Ledger) : Option HeapString × Ledger :=
  match name with
  | none =>
      let text :=
        match textOf commandLine with
        | none | some [] => cstr "unknown"
        | some commandLine => basename (commandLine.takeWhile (· ≠ 32))
      strdup dupName text l
  | some name =>
      let text := name.text.takeWhile (· ≠ 10)
      if text = [] then strdup dupName (cstr "pid_" ++ cstr (toString pid)) (l.release name.block)
      else (some { name with text }, l)

/-- The command line, where it could not be read or is empty; `none` if `strdup`
is given `NULL`. -/
def fallbackCmdline (dupCmdline : Bool) (name commandLine : Option HeapString) (l : Ledger) :
    Option (Option HeapString × Ledger) :=
  match textOf commandLine with
  | none | some [] =>
      let l := l.releaseOption (blockOf commandLine)
      name.map fun name => strdup dupCmdline name.text l
  | some _ => some (commandLine, l)

/-- The name and the command line of a record. -/
def acquireStrings (steps : CreationSteps) (pid : Int) (l : Ledger) :
    Option (Option HeapString × Option HeapString × Ledger) :=
  let (name, l) := readProcFile readComm steps.comm l
  let (commandLine, l) := readProcFile readCmdline steps.cmdline l
  let (name, l) := fallbackName steps.dupName pid name commandLine l
  (fallbackCmdline steps.dupCmdline name commandLine l).map fun (commandLine, l) =>
    (name, commandLine, l)

/-- The loop of `parse_process_memory_maps`, from a piece on. -/
def mapsLoop (steps : CreationSteps) (i : Nat) (memoryMapTree : RbTree VirtualMemoryArea)
    (l : Ledger) : List CString → Option (Int × RbTree VirtualMemoryArea × Ledger)
  | [] => some (0, memoryMapTree, l)
  | line :: lines =>
      if steps.callocVma i then
        let l := l.acquire.2
        let vma := scanVma line
        let (mappingName, l) :=
          match vma.mappingName with
          | none => (none, l)
          | some regionName => strdup (steps.dupRegion i) regionName l
        match insertVma memoryMapTree { vma with mappingName := textOf mappingName } with
        | none => none
        | some memoryMapTree => mapsLoop steps (i + 1) memoryMapTree l lines
      else some (1, memoryMapTree, l)

/-- `parse_process_memory_maps` -/
def parseProcessMemoryMaps (steps : CreationSteps) (l : Ledger) :
    Option (Int × RbTree VirtualMemoryArea × Ledger) :=
  match steps.maps with
  | none => some (1, .nil, l)
  | some text => mapsLoop steps 0 .nil l (fgetsLines 512 text)

/-- What a call leaves, with the ledger of its own allocations. -/
structure Creation where
  table : ProcessTable
  found : Option ProcessNode
  ledger : Ledger

/-- `find_new_process`; `none` if the call does not come back. -/
def findNewProcess (table : ProcessTable) (pid : Int) (steps : CreationSteps) (fresh : Nat) :
    Option Creation :=
  match findProcess table pid with
  | some node => some ⟨table, some node, .empty⟩
  | none =>
      if steps.calloc = false then some ⟨table, none, .empty⟩
      else
        let (newNode, l) := Ledger.empty.acquire
        match acquireStrings steps pid l with
        | none => none
        | some (name, commandLine, l) =>
            if steps.alive = false then
              let l := l.releaseOption (blockOf name)
              let l := l.releaseOption (blockOf commandLine)
              some ⟨table, none, l.release newNode⟩
            else
              match parseProcessMemoryMaps steps l with
              | none => none
              | some (status, memoryMapTree, l) =>
                  if status ≠ 0 then some ⟨table, none, l.release newNode⟩
                  else
                    let node : ProcessNode :=
                      { addr := fresh
                        info :=
                          { processId := pid
                            startTime := steps.startTime
                            processName := textOf name
                            commandLine := textOf commandLine
                            memoryMapTree } }
                    let index := hashPid pid
                    some ⟨Function.update table index (node :: table index), some node, l⟩

end Alloc

namespace CreationSteps

/-- The bytes that a `read_proc_file` has got hold of. -/
def found (file : FileRead) : Option (List UInt8) :=
  if file.opened && file.allocated then some file.content else none

/-- The outcomes without the allocations of strings and areas. -/
def reads (steps : CreationSteps) : ProcReads where
  calloc := steps.calloc
  dupName := steps.dupName
  dupCmdline := steps.dupCmdline
  startTime := steps.startTime
  comm := found steps.comm
  cmdline := found steps.cmdline
  alive := steps.alive
  maps :=
    match Alloc.parseProcessMemoryMaps steps .empty with
    | some (0, memoryMapTree, _) => some memoryMapTree
    | _ => none

/-- The command line could not be read, or is empty. -/
def NoCmdline (steps : CreationSteps) : Prop :=
  readCmdline (found steps.cmdline) = none ∨ readCmdline (found steps.cmdline) = some []

/-- `strdup` is given the name, which is `NULL`. -/
def DupsNull (steps : CreationSteps) (pid : Int) : Prop :=
  steps.NoCmdline ∧ storedName steps.reads pid = none

/-- The parser fails: there is no file, or no memory for one of its areas. -/
def MapsFail (steps : CreationSteps) : Prop :=
  ∀ text, steps.maps = some text →
    ∃ i < (fgetsLines 512 text).length, steps.callocVma i = false

/-- The call comes to the parser, and that fails. -/
def LosesMaps (steps : CreationSteps) (table : ProcessTable) (pid : Int) : Prop :=
  findProcess table pid = none ∧ steps.calloc = true ∧ ¬steps.DupsNull pid ∧
    steps.alive = true ∧ steps.MapsFail

end CreationSteps

/-! ## What is held -/

namespace Alloc

open CreationSteps

section

variable {l : Ledger} {held : List Nat} {steps : CreationSteps} {pid : Int}
  {name commandLine : Option HeapString}

theorem readProcFile_holds (read : Option (List UInt8) → Option CString) (file : FileRead)
    (h : l.Holds held) :
    (readProcFile read file l).2.Holds
      ((blockOf (readProcFile read file l).1).toList ++ held) := by
  rw [readProcFile]
  split
  · cases hread : read (some file.content) with
    | none => simpa [hread] using h.acquire.release
    | some text => simpa [hread] using h.acquire
  · exact h

/-- Where no buffer is acquired, nothing is read. -/
theorem textOf_readProcFile {read : Option (List UInt8) → Option CString} (hnone : read none = none)
    (file : FileRead) (l : Ledger) : textOf (readProcFile read file l).1 = read (found file) := by
  rw [readProcFile, found]
  split
  · cases hread : read (some file.content) <;> simp
  · exact hnone.symm

theorem strdup_holds (allocated : Bool) (text : CString) (h : l.Holds held) :
    (strdup allocated text l).2.Holds ((blockOf (strdup allocated text l).1).toList ++ held) := by
  cases allocated with
  | false => exact h
  | true => exact h.acquire

theorem textOf_strdup (allocated : Bool) (text : CString) (l : Ledger) :
    textOf (strdup allocated text l).1 = if allocated then some text else none := by
  cases allocated <;> rfl

theorem fallbackName_holds (dupName : Bool) (pid : Int) (commandLine : Option HeapString)
    (h : l.Holds ((blockOf name).toList ++ held)) :
    (fallbackName dupName pid name commandLine l).2.Holds
      ((blockOf (fallbackName dupName pid name commandLine l).1).toList ++ held) := by
  cases name with
  | none => exact strdup_holds _ _ h
  | some name =>
    simp only [fallbackName]
    split
    · exact strdup_holds _ _ (Ledger.Holds.release h)
    · exact h

/-- A command line that is replaced is given back. -/
theorem fallbackCmdline_holds {dupCmdline : Bool} {result : Option HeapString × Ledger}
    (h : l.Holds ((blockOf commandLine).toList ++ held))
    (hresult : fallbackCmdline dupCmdline name commandLine l = some result) :
    result.2.Holds ((blockOf result.1).toList ++ held) := by
  have hfree := h.releaseOption
  simp only [fallbackCmdline] at hresult
  split at hresult
  · obtain ⟨name, -, rfl⟩ := Option.map_eq_some_iff.mp hresult
    exact strdup_holds _ _ hfree
  · obtain ⟨name, -, rfl⟩ := Option.map_eq_some_iff.mp hresult
    exact strdup_holds _ _ hfree
  · obtain rfl := Option.some.inj hresult
    exact h

theorem textOf_fallbackName (l : Ledger) (hname : textOf name = readComm (found steps.comm))
    (hcmdline : textOf commandLine = readCmdline (found steps.cmdline)) :
    textOf (fallbackName steps.dupName pid name commandLine l).1 = storedName steps.reads pid := by
  rw [storedName, reads, ← hname, ← hcmdline]
  cases name with
  | none =>
    simp only [fallbackName, textOf_strdup]
    rfl
  | some name =>
    simp only [fallbackName]
    by_cases hempty : name.text.takeWhile (· ≠ 10) = []
    · simp only [textOf, Option.map_some]
      rw [if_pos hempty, if_pos hempty, ← textOf, textOf_strdup]
    · simp only [textOf, Option.map_some]
      rw [if_neg hempty, if_neg hempty]
      rfl

/-- Without a command line the name is copied, which must not be `NULL`; a record
has one of the two strings in any case. -/
theorem fallbackCmdline_spec (dupCmdline : Bool) (l : Ledger) :
    (fallbackCmdline dupCmdline name commandLine l = none ↔
      (textOf commandLine = none ∨ textOf commandLine = some []) ∧ textOf name = none) ∧
    ∀ result, fallbackCmdline dupCmdline name commandLine l = some result →
      (textOf result.1 = match textOf commandLine with
        | none | some [] => if dupCmdline then textOf name else none
        | some commandLine => some commandLine) ∧
      (name ≠ none ∨ result.1 ≠ none) := by
  simp only [fallbackCmdline]
  cases hcmdline : textOf commandLine with
  | none =>
    cases name with
    | none => simp
    | some name => simp [textOf_strdup]
  | some text =>
    cases text with
    | nil =>
      cases name with
      | none => simp
      | some name => simp [textOf_strdup]
    | cons b text =>
      simp only [reduceCtorEq, false_iff, Option.some.injEq, forall_eq']
      refine ⟨by simp, hcmdline, .inr ?_⟩
      rintro rfl
      simp at hcmdline

/-- **The strings of a record**: what the model without allocations stores, and they
are what is held in addition. -/
theorem acquireStrings_spec (steps : CreationSteps) (pid : Int) (l : Ledger) :
    (acquireStrings steps pid l = none ↔ steps.DupsNull pid) ∧
    ∀ name commandLine l', acquireStrings steps pid l = some (name, commandLine, l') →
      textOf name = storedName steps.reads pid ∧
      textOf commandLine = storedCmdline steps.reads pid ∧
      (name ≠ none ∨ commandLine ≠ none) ∧
      ∀ held, l.Holds held →
        l'.Holds ((blockOf commandLine).toList ++ ((blockOf name).toList ++ held)) := by
  obtain ⟨comm, l₁, hcomm⟩ : ∃ comm l₁, readProcFile readComm steps.comm l = (comm, l₁) := ⟨_, _, rfl⟩
  obtain ⟨cmdline, l₂, hcmdline⟩ :
    ∃ cmdline l₂, readProcFile readCmdline steps.cmdline l₁ = (cmdline, l₂) := ⟨_, _, rfl⟩
  obtain ⟨name, l₃, hname⟩ :
    ∃ name l₃, fallbackName steps.dupName pid comm cmdline l₂ = (name, l₃) := ⟨_, _, rfl⟩
  have hcommText : textOf comm = readComm (found steps.comm) := by
    rw [← @textOf_readProcFile readComm rfl _ l, hcomm]
  have hcmdlineText : textOf cmdline = readCmdline (found steps.cmdline) := by
    rw [← @textOf_readProcFile readCmdline rfl _ l₁, hcmdline]
  have hnameText : textOf name = storedName steps.reads pid := by
    rw [← textOf_fallbackName l₂ hcommText hcmdlineText, hname]
  obtain ⟨hnone, hsome⟩ :=
    @fallbackCmdline_spec name cmdline steps.dupCmdline l₃
  have hstrings : acquireStrings steps pid l =
      (fallbackCmdline steps.dupCmdline name cmdline l₃).map fun (commandLine, l) =>
        (name, commandLine, l) := by
    simp only [acquireStrings, hcomm, hcmdline, hname]
  constructor
  · rw [hstrings, Option.map_eq_none_iff, hnone, hcmdlineText, hnameText]
    rfl
  · intro name' commandLine l' hresult
    rw [hstrings, Option.map_eq_some_iff] at hresult
    obtain ⟨⟨commandLine, l'⟩, hfallback, heq⟩ := hresult
    cases heq
    obtain ⟨htext, hone⟩ := hsome _ hfallback
    refine ⟨hnameText, ?_, hone, fun held hheld => ?_⟩
    · rw [htext, hcmdlineText, hnameText]
      rfl
    · have hread := readProcFile_holds readComm steps.comm hheld
      rw [hcomm] at hread
      have hread := readProcFile_holds readCmdline steps.cmdline hread
      rw [hcmdline] at hread
      have hfallen := fallbackName_holds steps.dupName pid cmdline
        (hread.perm (List.perm_append_comm_assoc _ _ _))
      rw [hname] at hfallen
      exact fallbackCmdline_holds (hfallen.perm (List.perm_append_comm_assoc _ _ _)) hfallback

/-- **The parser** comes back, with a tree that the ledger has no part in, and has
failed just when an area could not be made; what it made is held. -/
theorem mapsLoop_spec (steps : CreationSteps) {memoryMapTree : RbTree VirtualMemoryArea}
    (hroot : memoryMapTree.color = .black) (hsorted : memoryMapTree.Sorted VirtualMemoryArea.key)
    (i : Nat) (lines : List CString) :
    ∃ status tree, (status ≠ 0 ↔ ∃ k < lines.length, steps.callocVma (i + k) = false) ∧
      ∀ l, ∃ l' made, mapsLoop steps i memoryMapTree l lines = some (status, tree, l') ∧
        ∀ held, l.Holds held → l'.Holds (made ++ held) := by
  induction lines generalizing i memoryMapTree with
  | nil => exact ⟨0, memoryMapTree, by simp, fun l => ⟨l, [], rfl, fun _ h => h⟩⟩
  | cons line lines ih =>
    cases hcalloc : steps.callocVma i with
    | false =>
      refine ⟨1, memoryMapTree, by simpa using ⟨0, by simp, hcalloc⟩, fun l => ⟨l, [], ?_, ?_⟩⟩
      · simp [mapsLoop, hcalloc]
      · exact fun _ h => h
    | true =>
      -- the name is in the tree, and its block in the ledger
      obtain ⟨mappingName, hmapping⟩ : ∃ mappingName : Option CString, ∀ l : Ledger,
          ∃ l' pointer, (match (scanVma line).mappingName with
            | none => (none, l)
            | some regionName => strdup (steps.dupRegion i) regionName l) = (pointer, l') ∧
          textOf pointer = mappingName ∧
          ∀ held, l.Holds held → l'.Holds ((blockOf pointer).toList ++ held) := by
        cases (scanVma line).mappingName with
        | none => exact ⟨none, fun l => ⟨l, none, rfl, rfl, fun _ h => h⟩⟩
        | some regionName =>
          exact ⟨_, fun l => ⟨_, _, rfl, textOf_strdup _ _ l, fun _ h => strdup_holds _ _ h⟩⟩
      obtain ⟨next, -, -, hins, hblack, hnext, -⟩ :=
        RbTree.rbInsert_spec (x := { scanVma line with mappingName := mappingName }) hroot hsorted
      obtain ⟨status, tree, hstatus, hloop⟩ := ih hblack hnext (i + 1)
      refine ⟨status, tree, ?_, fun l => ?_⟩
      · rw [hstatus, List.length_cons, Nat.exists_lt_succ_left]
        simp [hcalloc, Nat.add_assoc, Nat.add_comm 1]
      · obtain ⟨l₁, pointer, hpointer, htext, hheld₁⟩ := hmapping l.acquire.2
        obtain ⟨l', made, hrest, hheld⟩ := hloop l₁
        refine ⟨l', made ++ (blockOf pointer).toList ++ [l.acquire.1], ?_, fun held h => ?_⟩
        · rw [mapsLoop, if_pos hcalloc]
          simp only [hpointer, htext, insertVma, hins]
          exact hrest
        · have := hheld _ (hheld₁ _ h.acquire)
          simpa using this

theorem parseProcessMemoryMaps_spec (steps : CreationSteps) :
    ∃ status tree, (status ≠ 0 ↔ steps.MapsFail) ∧
      ∀ l, ∃ l' made, parseProcessMemoryMaps steps l = some (status, tree, l') ∧
        ∀ held, l.Holds held → l'.Holds (made ++ held) := by
  simp only [parseProcessMemoryMaps, MapsFail]
  cases steps.maps with
  | none => exact ⟨1, .nil, by simp, fun l => ⟨l, [], rfl, fun _ h => h⟩⟩
  | some text =>
    have hempty : (RbTree.nil : RbTree VirtualMemoryArea).Sorted VirtualMemoryArea.key :=
      List.Pairwise.nil
    simpa using mapsLoop_spec steps rfl hempty 0 (fgetsLines 512 text)

end

/-- With memory for every name the parser is the one without a ledger. -/
theorem mapsLoop_refines {steps : CreationSteps} (hdup : ∀ i, steps.dupRegion i = true) (i : Nat)
    (memoryMapTree : RbTree VirtualMemoryArea) (l : Ledger) (lines : List CString) :
    (mapsLoop steps i memoryMapTree l lines).map (fun result => (result.1, result.2.1)) =
      Profiling.mapsLoop steps.callocVma i memoryMapTree lines := by
  induction lines generalizing i memoryMapTree l with
  | nil => rfl
  | cons line lines ih =>
    rw [mapsLoop, Profiling.mapsLoop]
    split
    · have hname : ∀ l : Ledger, textOf (match (scanVma line).mappingName with
          | none => (none, l)
          | some regionName => strdup (steps.dupRegion i) regionName l).1 =
          (scanVma line).mappingName := by
        intro l
        cases (scanVma line).mappingName with
        | none => rfl
        | some regionName => simp [textOf_strdup, hdup]
      simp only [hname]
      cases insertVma memoryMapTree (scanVma line) with
      | none => rfl
      | some next => exact ih (i + 1) next _
    · rfl

theorem parseProcessMemoryMaps_refines {steps : CreationSteps}
    (hdup : ∀ i, steps.dupRegion i = true) (l : Ledger) :
    (parseProcessMemoryMaps steps l).map (fun result => (result.1, result.2.1)) =
      Profiling.parseProcessMemoryMaps steps.maps steps.callocVma .nil := by
  rw [parseProcessMemoryMaps]
  unfold Profiling.parseProcessMemoryMaps
  cases steps.maps with
  | none => rfl
  | some text => exact mapsLoop_refines hdup 0 .nil l (fgetsLines 512 text)

/-! ## The exits -/

section

variable {table : ProcessTable} {pid : Int} {steps : CreationSteps} {fresh : Nat}

/-- The ways out of the call, with what each of them leaves. -/
inductive Exit (table : ProcessTable) (pid : Int) (steps : CreationSteps) (fresh : Nat) :
    Option Creation → Prop
  | cached {node : ProcessNode} (hfind : findProcess table pid = some node) :
      Exit table pid steps fresh (some ⟨table, some node, .empty⟩)
  | noNode (hfind : findProcess table pid = none) (hcalloc : steps.calloc = false) :
      Exit table pid steps fresh (some ⟨table, none, .empty⟩)
  | crash (hfind : findProcess table pid = none) (hcalloc : steps.calloc = true)
      (hnull : steps.DupsNull pid) : Exit table pid steps fresh none
  | dead {l : Ledger} (hfind : findProcess table pid = none) (hcalloc : steps.calloc = true)
      (hnull : ¬steps.DupsNull pid) (halive : steps.alive = false) (hsettled : l.Settled) :
      Exit table pid steps fresh (some ⟨table, none, l⟩)
  | noMaps {l : Ledger} (hfind : findProcess table pid = none) (hcalloc : steps.calloc = true)
      (hnull : ¬steps.DupsNull pid) (halive : steps.alive = true) (hmaps : steps.MapsFail)
      (htree : steps.reads.maps = none) (hlost : ¬l.Settled) : Exit table pid steps fresh (some ⟨table, none, l⟩)
  | created {l : Ledger} {memoryMapTree : RbTree VirtualMemoryArea} {node : ProcessNode}
      (hfind : findProcess table pid = none) (hcalloc : steps.calloc = true)
      (halive : steps.alive = true) (hmaps : ¬steps.MapsFail)
      (htree : steps.reads.maps = some memoryMapTree)
      (hnode : node =
        { addr := fresh
          info :=
            { processId := pid
              startTime := steps.startTime
              processName := storedName steps.reads pid
              commandLine := storedCmdline steps.reads pid
              memoryMapTree } }) :
      Exit table pid steps fresh
        (some ⟨Function.update table (hashPid pid) (node :: table (hashPid pid)), some node, l⟩)

theorem exit_findNewProcess (table : ProcessTable) (pid : Int) (steps : CreationSteps)
    (fresh : Nat) : Exit table pid steps fresh (findNewProcess table pid steps fresh) := by
  rw [findNewProcess]
  cases hfind : findProcess table pid with
  | some node => exact .cached hfind
  | none =>
    cases hcalloc : steps.calloc with
    | false => exact .noNode hfind hcalloc
    | true =>
      dsimp only
      rw [if_neg (by decide)]
      obtain ⟨hnull, hstrings⟩ := acquireStrings_spec steps pid Ledger.empty.acquire.2
      cases hacquire : acquireStrings steps pid Ledger.empty.acquire.2 with
      | none => exact .crash hfind hcalloc (hnull.mp hacquire)
      | some result =>
        obtain ⟨name, commandLine, l⟩ := result
        obtain ⟨hname, hcmdline, hone, hheld⟩ := hstrings _ _ _ hacquire
        have hnull : ¬steps.DupsNull pid := fun h => by
          rw [hnull.mpr h] at hacquire
          cases hacquire
        have hheld := hheld _ Ledger.holds_empty.acquire
        dsimp only
        cases halive : steps.alive with
        | false =>
          rw [if_pos rfl]
          refine .dead hfind hcalloc hnull halive ?_
          have hfreed := (hheld.perm (List.perm_append_comm_assoc _ _ _)).releaseOption.releaseOption
          exact hfreed.release.settled_iff.mpr rfl
        | true =>
          rw [if_neg (by decide)]
          obtain ⟨status, tree, hstatus, hparse⟩ := parseProcessMemoryMaps_spec steps
          obtain ⟨l', made, hparsed, hmade⟩ := hparse l
          obtain ⟨l₀, made₀, hempty, -⟩ := hparse .empty
          rw [hparsed]
          dsimp only
          by_cases hfail : steps.MapsFail
          · rw [if_pos (hstatus.mpr hfail)]
            refine .noMaps hfind hcalloc hnull halive hfail ?_ ?_
            · simp only [reads, hempty]
              split
              · next heq =>
                cases heq
                exact absurd rfl (hstatus.mpr hfail)
              · rfl
            -- the node is freed, and the strings are still held
            have hleft : l'.Holds (Ledger.empty.acquire.1 ::
                (made ++ ((blockOf commandLine).toList ++ (blockOf name).toList))) := by
              refine (hmade _ hheld).perm ?_
              rw [← List.append_assoc, ← List.append_assoc, ← List.append_assoc]
              exact (List.perm_append_singleton _ _).symm
            rw [hleft.release.settled_iff]
            rcases hone with hone | hone
            · obtain ⟨name, rfl⟩ := Option.ne_none_iff_exists'.mp hone
              simp
            · obtain ⟨commandLine, rfl⟩ := Option.ne_none_iff_exists'.mp hone
              simp
          · have hzero : status = 0 := not_not.mp fun h => hfail (hstatus.mp h)
            subst hzero
            rw [if_neg (by decide)]
            refine .created hfind hcalloc halive hfail (?_ : steps.reads.maps = some tree) ?_
            · simp only [reads, hempty]
            · rw [hname, hcmdline]

/-- Without its allocations the call is the one of the table. -/
theorem findNewProcess_refines {c : Creation} (h : findNewProcess table pid steps fresh = some c) :
    Profiling.findNewProcess table pid steps.reads fresh = (c.table, c.found) := by
  have hexit := exit_findNewProcess table pid steps fresh
  rw [h] at hexit
  rw [Profiling.findNewProcess]
  cases hexit with
  | cached hfind => rw [hfind]
  | noNode hfind hcalloc =>
    rw [hfind]
    exact if_pos hcalloc
  | dead hfind hcalloc hnull halive hsettled =>
    rw [hfind]
    simp [reads, hcalloc, halive]
  | noMaps hfind hcalloc hnull halive hmaps htree hlost =>
    rw [hfind]
    simp only [htree]
    simp [reads, hcalloc, halive]
  | created hfind hcalloc halive hmaps htree hnode =>
    rw [hfind]
    simp only [htree, hnode]
    simp [reads, hcalloc, halive]

/-- **A call that returns `NULL`** leaves the table as it was and has released
everything that it acquired, once, unless it came to the parser and that failed. -/
theorem findNewProcess_settled_iff (table : ProcessTable) (pid : Int) (steps : CreationSteps)
    (fresh : Nat) :
    (∀ c, findNewProcess table pid steps fresh = some c → c.found = none →
      c.table = table ∧ c.ledger.Settled) ↔ ¬steps.LosesMaps table pid := by
  have hexit := exit_findNewProcess table pid steps fresh
  generalize findNewProcess table pid steps fresh = result at hexit
  cases hexit with
  | cached hfind =>
    refine iff_of_true (fun c hc hfound => ?_) fun hloses => ?_
    · cases hc
      cases hfound
    · rw [hloses.1] at hfind
      cases hfind
  | noNode hfind hcalloc =>
    refine iff_of_true (fun c hc hfound => ?_) fun hloses => ?_
    · cases hc
      exact ⟨rfl, Ledger.holds_empty.settled_iff.mpr rfl⟩
    · exact Bool.false_ne_true (hcalloc.symm.trans hloses.2.1)
  | crash hfind hcalloc hnull =>
    exact iff_of_true (fun c hc => absurd hc (by simp)) fun hloses => hloses.2.2.1 hnull
  | dead hfind hcalloc hnull halive hsettled =>
    refine iff_of_true (fun c hc hfound => ?_) fun hloses => ?_
    · cases hc
      exact ⟨rfl, hsettled⟩
    · exact Bool.false_ne_true (halive.symm.trans hloses.2.2.2.1)
  | noMaps hfind hcalloc hnull halive hmaps htree hlost =>
    refine iff_of_false (fun hclean => ?_) (not_not.mpr ⟨hfind, hcalloc, hnull, halive, hmaps⟩)
    exact hlost (hclean _ rfl rfl).2
  | created hfind hcalloc halive hmaps htree hnode =>
    refine iff_of_true (fun c hc hfound => ?_) fun hloses => hmaps hloses.2.2.2.2
    cases hc
    cases hfound

/-- A process that is alive and has a name, but no `maps`. -/
def unmappedSteps : CreationSteps where
  calloc := true
  startTime := 4711
  comm := ⟨true, true, cstr "sh\n"⟩
  cmdline := ⟨true, true, cstr "/bin/sh"⟩
  dupName := true
  dupCmdline := true
  alive := true
  maps := none
  callocVma _ := true
  dupRegion _ := true

/-- Its name and its command line are lost. -/
theorem findNewProcess_unmapped :
    ∃ c, findNewProcess (fun _ => []) 7 unmappedSteps 0 = some c ∧ c.found = none ∧
      c.ledger = ⟨3, [0]⟩ ∧ ¬c.ledger.Settled :=
  ⟨_, rfl, rfl, rfl, by decide⟩

end

end Alloc

end Profiling
