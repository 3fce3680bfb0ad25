import Profiling.Elf.Symbols
import Profiling.Machine
import Profiling.Process

/-!
# Profiling.Elf.Cache

The ELF cache of `src/elf/elf.c`: a hash table of parsed files, one for each
build-id, with a count of the references to it.

Opening a file is a parameter: what libelf gives for a path, or that it fails.
An entry is a heap node with an identity, its address, which is what
`find_or_create_elf` returns and `release_elf_by_ptr` takes.
-/

namespace Profiling

/-- `(unsigned int)*str`, where `char` is signed -/
def signedChar (b : UInt8) : UInt32 := if b < 128 then b.toUInt32 else b.toUInt32 - 256

/-- `hash_str` -/
def hashStr (str : CString) : Nat :=
  (str.foldl (fun (hash : UInt32) b => (hash <<< 5) - hash + signedChar b) 0).toNat % hashtableSize

/-- `struct elf_file_hash_node` with its `struct elf_file`, and its address. -/
structure ElfNode where
  addr : Nat
  buildId : CString
  filePath : CString
  file : ElfFile
  referenceCount : Int

/-- `struct elf_file_cache`: the chain of each bucket. -/
abbrev ElfCache := Nat → List ElfNode

/-- An open file: what `get_elf_build_id_from_elf` and `build_symbol_collection`
return for it. -/
structure ElfHandle where
  buildId : Option CString
  symbols : Option SymbolCollection

/-- What is answered during one `find_or_create_elf`. -/
structure ElfReads where
  /-- `elf_parser_init` of a path -/
  parserInit : CString → Option ElfHandle
  /-- `calloc` of the node -/
  calloc : Bool
  /-- `strdup` of the path -/
  dupPath : Bool

/-! ## The operations -/

/-- `find_elf_in_table` -/
def findElfInTable (cache : ElfCache) (buildId : CString) : Option ElfNode :=
  (cache (hashStr buildId)).find? fun node => node.buildId = buildId

/-- `insert_elf_into_table` -/
def insertElfIntoTable (cache : ElfCache) (newNode : ElfNode) : ElfCache :=
  let index := hashStr newNode.buildId
  Function.update cache index (newNode :: cache index)

/-- `elf_obj->reference_count += delta` -/
def addReferences (cache : ElfCache) (addr : Nat) (delta : Int) : ElfCache := fun i =>
  (cache i).map fun node =>
    if node.addr = addr then { node with referenceCount := node.referenceCount + delta } else node

/-- `host_path` -/
def hostPath (pid : Int) (filename : CString) : CString :=
  (cstr "/proc/" ++ cstr (toString pid) ++ cstr "/root" ++ filename).take 4095

/-- The file as the process sees it, or else under its own path. -/
def openElf (reads : ElfReads) (pid : Int) (filename : CString) : Option ElfHandle :=
  match reads.parserInit (hostPath pid filename) with
  | some e => some e
  | none => reads.parserInit filename

/-- The build-id of the file that a call is for, if the file can be opened. -/
def fileBuildId (reads : ElfReads) (pid : Int) (filename : Option CString) : Option CString :=
  filename.bind fun filename =>
    if filename.head? ≠ some 47 then none else (openElf reads pid filename).bind (·.buildId)

/-- `find_or_create_elf`; `fresh` is the address that `calloc` would return. -/
def findOrCreateElf (cache : ElfCache) (pid : Int) (filename : Option CString) (reads : ElfReads)
    (fresh : Nat) : ElfCache × Option Nat :=
  match filename with
  | none => (cache, none)
  | some filename =>
      if filename.head? ≠ some 47 then (cache, none)
      else
        match openElf reads pid filename with
        | none => (cache, none)
        | some e =>
            match e.buildId with
            | none => (cache, none)
            | some buildId =>
                match findElfInTable cache buildId with
                | some elfObj => (addReferences cache elfObj.addr 1, some elfObj.addr)
                | none =>
                    if reads.calloc = false then (cache, none)
                    else if reads.dupPath = false then (cache, none)
                    else
                      match e.symbols with
                      | none => (cache, none)
                      | some symbols =>
                          (insertElfIntoTable cache
                            { addr := fresh
                              buildId
                              filePath := filename
                              file := ⟨some symbols⟩
                              referenceCount := 1 }, some fresh)

/-- `remove_elf`, with the node that it frees. -/
def removeElf (cache : ElfCache) (buildId : CString) : ElfCache × Option ElfNode :=
  let index := hashStr buildId
  (Function.update cache index ((cache index).eraseP fun node => node.buildId = buildId),
    (cache index).find? fun node => node.buildId = buildId)

/-- The entry at an address. -/
def derefElf (cache : ElfCache) (addr : Nat) : Option ElfNode :=
  (Buckets.entries hashtableSize cache).find? fun node => node.addr = addr

/-- `release_elf_by_ptr`, with the node that it frees.  Reading an entry that is
gone is undefined. -/
def releaseElfByPtr (cache : ElfCache) (elfObj : Option Nat) :
    Option (ElfCache × Option ElfNode) :=
  match elfObj with
  | none => some (cache, none)
  | some addr =>
      (derefElf cache addr).map fun node =>
        let cache := addReferences cache addr (-1)
        if node.referenceCount - 1 = 0 then removeElf cache node.buildId else (cache, none)

/-- The `while` loop of `clear_elf_cache`, with the nodes that it frees. -/
def clearBucket : Nat → Nat → ElfCache → Option (ElfCache × List ElfNode)
  | 0, _, _ => none
  | fuel + 1, i, cache =>
      match cache i with
      | [] => some (cache, [])
      | node :: _ =>
          let (cache, freed) := removeElf cache node.buildId
          (clearBucket fuel i cache).map fun (cache, gone) => (cache, freed.toList ++ gone)

/-- `clear_elf_cache`; each bucket may take `fuel` steps. -/
def clearElfCache (fuel : Nat) (cache : ElfCache) : Option (ElfCache × List ElfNode) :=
  (List.range hashtableSize).foldlM
    (fun (cache, freed) i => (clearBucket fuel i cache).map fun (cache, gone) =>
      (cache, freed ++ gone)) (cache, [])

/-! ## The cache and its references -/

/-- The entry is in the cache. -/
abbrev Cached (cache : ElfCache) (node : ElfNode) : Prop :=
  Buckets.Mem ElfNode.buildId hashStr cache node

/-- Every entry is in the bucket of its build-id, and no build-id or address
occurs twice. -/
structure ElfCache.WF (cache : ElfCache) (fresh : Nat) : Prop where
  placed : Buckets.Placed ElfNode.buildId hashStr cache
  addr : ∀ node, Cached cache node → ∀ node', Cached cache node' →
    node.addr = node'.addr → node = node'
  addr_lt : ∀ node, Cached cache node → node.addr < fresh

/-- The entries are those that there are references to, and count them. -/
structure ElfCache.Counts (cache : ElfCache) (refs : Nat → Nat) : Prop where
  count : ∀ node, Cached cache node → node.referenceCount = refs node.addr
  pos : ∀ node, Cached cache node → 0 < refs node.addr
  cached : ∀ addr, 0 < refs addr → ∃ node, Cached cache node ∧ node.addr = addr

theorem hashStr_lt (str : CString) : hashStr str < hashtableSize := Nat.mod_lt _ (by decide)

namespace ElfCache

variable {cache : ElfCache} {fresh : Nat} {refs : Nat → Nat} {node : ElfNode} {addr : Nat}

theorem wf_empty (fresh : Nat) : WF (fun _ => []) fresh :=
  ⟨Buckets.placed_empty, by simp [Buckets.Mem], by simp [Buckets.Mem]⟩

theorem WF.mem_entries (h : cache.WF fresh) :
    node ∈ Buckets.entries hashtableSize cache ↔ Cached cache node :=
  h.placed.mem_entries hashStr_lt

theorem WF.derefElf_eq_some (h : cache.WF fresh) :
    derefElf cache addr = some node ↔ Cached cache node ∧ node.addr = addr := by
  have hmem (n : ElfNode) : n ∈ Buckets.entries hashtableSize cache ↔ Cached cache n :=
    h.mem_entries
  unfold derefElf
  generalize Buckets.entries hashtableSize cache = entries at hmem
  constructor
  · intro hfind
    exact ⟨(hmem _).mp (List.mem_of_find?_eq_some hfind), by simpa using List.find?_some hfind⟩
  · rintro ⟨hn, rfl⟩
    cases hfind : entries.find? fun n => n.addr = node.addr with
    | none => simpa using List.find?_eq_none.mp hfind node ((hmem _).mpr hn)
    | some node' =>
        have haddr : node'.addr = node.addr := by simpa using List.find?_some hfind
        have hn' := (hmem _).mp (List.mem_of_find?_eq_some hfind)
        rw [h.addr node' hn' node hn haddr]

/-! ## Counting references -/

/-- The entries after some references to one of them. -/
theorem cached_addReferences (addr : Nat) (delta : Int) :
    Cached (addReferences cache addr delta) node ↔
      Cached cache node ∧ node.addr ≠ addr ∨
        ∃ n, Cached cache n ∧ n.addr = addr ∧
          node = { n with referenceCount := n.referenceCount + delta } := by
  unfold addReferences
  rw [Cached, Buckets.mem_map fun n => by split <;> rfl]
  constructor
  · rintro ⟨n, hn, rfl⟩
    by_cases haddr : n.addr = addr
    · exact .inr ⟨n, hn, haddr, by rw [if_pos haddr]⟩
    · rw [if_neg haddr]
      exact .inl ⟨hn, haddr⟩
  · rintro (⟨hn, haddr⟩ | ⟨n, hn, haddr, rfl⟩)
    · exact ⟨node, hn, if_neg haddr⟩
    · exact ⟨n, hn, if_pos haddr⟩

theorem WF.addReferences (h : cache.WF fresh) (addr : Nat) (delta : Int) :
    (addReferences cache addr delta).WF fresh := by
  have hold : ∀ n, Cached (Profiling.addReferences cache addr delta) n →
      ∃ m, Cached cache m ∧ m.addr = n.addr ∧ n = if m.addr = addr then
        { m with referenceCount := m.referenceCount + delta } else m := by
    intro n hn
    obtain ⟨m, hm, rfl⟩ := (Buckets.mem_map fun n => by split <;> rfl).mp hn
    exact ⟨m, hm, by split <;> rfl, rfl⟩
  refine ⟨h.placed.map fun n => by split <;> rfl, fun n hn n' hn' haddr => ?_, fun n hn => ?_⟩
  · obtain ⟨m, hm, hm₁, heq⟩ := hold n hn
    obtain ⟨m', hm', hm₁', heq'⟩ := hold n' hn'
    rw [heq, heq', h.addr m hm m' hm' (hm₁.trans (haddr.trans hm₁'.symm))]
  · obtain ⟨m, hm, haddr, -⟩ := hold n hn
    exact haddr ▸ h.addr_lt m hm

theorem WF.mono (h : cache.WF fresh) {fresh' : Nat} (hle : fresh ≤ fresh') : cache.WF fresh' :=
  ⟨h.placed, h.addr, fun n hn => Nat.lt_of_lt_of_le (h.addr_lt n hn) hle⟩

/-- One more reference to an entry. -/
theorem Counts.addReference (h : cache.Counts refs) (hnode : Cached cache node) :
    (addReferences cache node.addr 1).Counts
      (Function.update refs node.addr (refs node.addr + 1)) := by
  constructor
  · intro n hn
    rcases (cached_addReferences node.addr 1).mp hn with ⟨hn, hne⟩ | ⟨m, hm, haddr, rfl⟩
    · rw [Function.update_of_ne hne, h.count n hn]
    · have hcount := h.count m hm
      rw [haddr] at hcount
      simp [haddr, hcount]
  · intro n hn
    rcases (cached_addReferences node.addr 1).mp hn with ⟨hn, hne⟩ | ⟨m, hm, haddr, rfl⟩
    · rw [Function.update_of_ne hne]
      exact h.pos n hn
    · simp [haddr]
  · intro a ha
    by_cases hne : a = node.addr
    · exact ⟨_, (cached_addReferences node.addr 1).mpr (.inr ⟨node, hnode, rfl, rfl⟩), hne.symm⟩
    · rw [Function.update_of_ne hne] at ha
      obtain ⟨n, hn, rfl⟩ := h.cached a ha
      exact ⟨n, (cached_addReferences node.addr 1).mpr (.inl ⟨hn, hne⟩), rfl⟩

/-- A new entry, under a fresh address and for a build-id that has none. -/
theorem WF.insert (h : cache.WF fresh) (haddr : node.addr = fresh)
    (hnew : ∀ n, Cached cache n → n.buildId ≠ node.buildId) :
    (insertElfIntoTable cache node).WF (fresh + 1) := by
  refine ⟨h.placed.push hnew, fun n hn n' hn' heq => ?_, fun n hn => ?_⟩
  · have hlt := h.addr_lt
    replace hn := (Buckets.mem_push _ _ node).mp hn
    replace hn' := (Buckets.mem_push _ _ node).mp hn'
    rcases hn with hn | rfl <;> rcases hn' with hn' | rfl
    · exact h.addr n hn n' hn' heq
    · have := hlt n hn
      omega
    · have := hlt n' hn'
      omega
    · rfl
  · rcases (Buckets.mem_push _ _ node).mp hn with hn | rfl
    · exact Nat.lt_succ_of_lt (h.addr_lt n hn)
    · omega

theorem Counts.insert (h : cache.Counts refs) (hwf : cache.WF fresh) (haddr : node.addr = fresh)
    (hcount : node.referenceCount = 1) :
    (insertElfIntoTable cache node).Counts
      (Function.update refs node.addr (refs node.addr + 1)) := by
  have hzero : refs node.addr = 0 := by
    by_contra hpos
    obtain ⟨n, hn, heq⟩ := h.cached node.addr (Nat.pos_of_ne_zero hpos)
    have := hwf.addr_lt n hn
    omega
  have hne : ∀ n, Cached cache n → n.addr ≠ node.addr := fun n hn => by
    have := hwf.addr_lt n hn
    omega
  constructor
  · intro n hn
    rcases (Buckets.mem_push _ _ node).mp hn with hn | rfl
    · rw [Function.update_of_ne (hne n hn), h.count n hn]
    · simp [hcount, hzero]
  · intro n hn
    rcases (Buckets.mem_push _ _ node).mp hn with hn | rfl
    · rw [Function.update_of_ne (hne n hn)]
      exact h.pos n hn
    · simp
  · intro a ha
    by_cases heq : a = node.addr
    · exact ⟨node, (Buckets.mem_push _ _ node).mpr (.inr rfl), heq.symm⟩
    · rw [Function.update_of_ne heq] at ha
      obtain ⟨n, hn, rfl⟩ := h.cached a ha
      exact ⟨n, (Buckets.mem_push _ _ node).mpr (.inl hn), rfl⟩

/-- What `find_or_create_elf` can do: fail, take one more reference to the entry
of the file's build-id, or add an entry. -/
theorem findOrCreateElf_cases (cache : ElfCache) (pid : Int) (filename : Option CString)
    (reads : ElfReads) (fresh : Nat) :
    findOrCreateElf cache pid filename reads fresh = (cache, none) ∨
    (∃ node, findOrCreateElf cache pid filename reads fresh =
        (Profiling.addReferences cache node.addr 1, some node.addr) ∧
      fileBuildId reads pid filename = some node.buildId ∧ Cached cache node) ∨
    ∃ node, findOrCreateElf cache pid filename reads fresh =
        (insertElfIntoTable cache node, some node.addr) ∧
      fileBuildId reads pid filename = some node.buildId ∧
      node.addr = fresh ∧ node.referenceCount = 1 ∧
      ∀ n, Cached cache n → n.buildId ≠ node.buildId := by
  unfold findOrCreateElf fileBuildId
  cases filename with
  | none => exact .inl rfl
  | some filename =>
      dsimp only [Option.bind_some]
      split
      · exact .inl rfl
      · cases openElf reads pid filename with
        | none => exact .inl rfl
        | some e =>
            dsimp only [Option.bind_some]
            cases e.buildId with
            | none => exact .inl rfl
            | some buildId =>
                dsimp only
                cases hfind : findElfInTable cache buildId with
                | some node =>
                    obtain ⟨rfl, hn⟩ := Buckets.mem_of_find? hfind
                    exact .inr (.inl ⟨node, rfl, rfl, hn⟩)
                | none =>
                    dsimp only
                    split
                    · exact .inl rfl
                    · split
                      · exact .inl rfl
                      · cases e.symbols with
                        | none => exact .inl rfl
                        | some symbols =>
                            exact .inr (.inr
                              ⟨_, rfl, rfl, rfl, rfl, Buckets.find?_eq_none_iff.mp hfind⟩)

/-- A file whose build-id is cached gets the entry. -/
theorem WF.findOrCreateElf (hwf : cache.WF fresh) (hnode : Cached cache node) {pid : Int}
    {filename : Option CString} {reads : ElfReads}
    (hid : fileBuildId reads pid filename = some node.buildId) (fresh' : Nat) :
    findOrCreateElf cache pid filename reads fresh' =
      (Profiling.addReferences cache node.addr 1, some node.addr) := by
  unfold fileBuildId at hid
  unfold Profiling.findOrCreateElf
  cases filename with
  | none => contradiction
  | some filename =>
      dsimp only [Option.bind_some] at hid ⊢
      split at hid
      · contradiction
      · next habsolute =>
        rw [if_neg habsolute]
        cases hopen : openElf reads pid filename with
        | none => simp [hopen] at hid
        | some e =>
            rw [hopen, Option.bind_some] at hid
            have hfind : findElfInTable cache node.buildId = some node :=
              hwf.placed.find?_eq_some_iff.mpr ⟨rfl, hnode⟩
            simp only [hid, hfind]

/-- A call that succeeds takes one reference to what it returns. -/
theorem findOrCreateElf_spec (hwf : cache.WF fresh) (h : cache.Counts refs) (pid : Int)
    (filename : Option CString) (reads : ElfReads) :
    (findOrCreateElf cache pid filename reads fresh).1.WF (fresh + 1) ∧
    match (findOrCreateElf cache pid filename reads fresh).2 with
    | none => (findOrCreateElf cache pid filename reads fresh).1 = cache
    | some addr => (findOrCreateElf cache pid filename reads fresh).1.Counts
        (Function.update refs addr (refs addr + 1)) := by
  rcases findOrCreateElf_cases cache pid filename reads fresh with
    hcase | ⟨node, hcase, -, hn⟩ | ⟨node, hcase, -, haddr, hcount, hnew⟩
  · rw [hcase]
    exact ⟨hwf.mono (Nat.le_succ _), rfl⟩
  · rw [hcase]
    exact ⟨(hwf.addReferences _ _).mono (Nat.le_succ _), h.addReference hn⟩
  · rw [hcase]
    exact ⟨hwf.insert haddr hnew, h.insert hwf haddr hcount⟩

/-- Below a distinct address is a distinct entry. -/
theorem WF.ne_iff (hwf : cache.WF fresh) (hnode : Cached cache node) {m : ElfNode}
    (hm : Cached cache m) : m.addr ≠ node.addr ↔ m ≠ node :=
  ⟨fun hne heq => hne (by rw [heq]), fun hne heq => hne (hwf.addr m hm node hnode heq)⟩

/-- One reference to an entry less. -/
theorem WF.cached_release (hwf : cache.WF fresh) (hnode : Cached cache node) (m : ElfNode) :
    Cached (Profiling.addReferences cache node.addr (-1)) m ↔
      Cached cache m ∧ m ≠ node ∨ m = { node with referenceCount := node.referenceCount - 1 } := by
  rw [cached_addReferences]
  constructor
  · rintro (⟨hm, hne⟩ | ⟨n, hn, haddr, rfl⟩)
    · exact .inl ⟨hm, (hwf.ne_iff hnode hm).mp hne⟩
    · obtain rfl := hwf.addr n hn node hnode haddr
      exact .inr rfl
  · rintro (⟨hm, hne⟩ | rfl)
    · exact .inl ⟨hm, (hwf.ne_iff hnode hm).mpr hne⟩
    · exact .inr ⟨node, hnode, rfl, rfl⟩

/-- Releasing a reference lowers the count, or removes the entry and no other. -/
theorem WF.releaseElfByPtr (hwf : cache.WF fresh) (hnode : Cached cache node) :
    ∃ cache' freed, releaseElfByPtr cache (some node.addr) = some (cache', freed) ∧
      cache'.WF fresh ∧
      if node.referenceCount = 1 then
        freed = some { node with referenceCount := 0 } ∧
          ∀ m, Cached cache' m ↔ Cached cache m ∧ m ≠ node
      else
        freed = none ∧ ∀ m, Cached cache' m ↔ Cached cache m ∧ m ≠ node ∨
          m = { node with referenceCount := node.referenceCount - 1 } := by
  have hderef : derefElf cache node.addr = some node := hwf.derefElf_eq_some.mpr ⟨hnode, rfl⟩
  have hwf' := hwf.addReferences node.addr (-1)
  have hcached := hwf.cached_release hnode
  rw [Profiling.releaseElfByPtr, hderef, Option.map_some]
  by_cases hone : node.referenceCount = 1
  · simp only [hone, if_true, sub_self]
    have hmem := fun m => hwf'.placed.mem_erase (x := m) node.buildId
    have hkept : ∀ m, Cached (removeElf (Profiling.addReferences cache node.addr (-1))
        node.buildId).1 m ↔ Cached cache m ∧ m ≠ node := by
      intro m
      rw [removeElf, Cached, hmem]
      refine (and_congr_left' (hcached m)).trans ?_
      constructor
      · rintro ⟨hm | rfl, hne⟩
        · exact hm
        · exact absurd rfl hne
      · rintro ⟨hm, hne⟩
        exact ⟨.inl ⟨hm, hne⟩, fun heq => hne (hwf.placed.eq_of_key hm hnode heq)⟩
    refine ⟨_, _, rfl, ⟨hwf'.placed.erase _, fun m hm m' hm' => ?_, fun m hm => ?_⟩, ?_, hkept⟩
    · exact hwf.addr m ((hkept m).mp hm).1 m' ((hkept m').mp hm').1
    · exact hwf.addr_lt m ((hkept m).mp hm).1
    · refine hwf'.placed.find?_eq_some_iff.mpr ⟨rfl, (hcached _).mpr (.inr ?_)⟩
      simp [hone]
  · have hne : node.referenceCount - 1 ≠ 0 := by omega
    simp only [hone, hne, if_false]
    exact ⟨_, none, rfl, hwf', rfl, hcached⟩

theorem Counts.releaseElfByPtr (hwf : cache.WF fresh) (h : cache.Counts refs)
    (haddr : 0 < refs addr) :
    ∃ cache' freed, releaseElfByPtr cache (some addr) = some (cache', freed) ∧
      cache'.WF fresh ∧ cache'.Counts (Function.update refs addr (refs addr - 1)) := by
  obtain ⟨node, hnode, rfl⟩ := h.cached addr haddr
  obtain ⟨cache', freed, hrelease, hwf', hcases⟩ := hwf.releaseElfByPtr hnode
  have hcount := h.count node hnode
  have hother : ∀ m, Cached cache m ∧ m ≠ node → m.addr ≠ node.addr := fun m hm =>
    (hwf.ne_iff hnode hm.1).mpr hm.2
  refine ⟨cache', freed, hrelease, hwf', ?_⟩
  split at hcases
  · next hone =>
    obtain ⟨-, hcached⟩ := hcases
    have hrefs : refs node.addr = 1 := by omega
    refine ⟨fun m hm => ?_, fun m hm => ?_, fun a ha => ?_⟩
    · have hm := (hcached m).mp hm
      rw [Function.update_of_ne (hother m hm), h.count m hm.1]
    · have hm := (hcached m).mp hm
      rw [Function.update_of_ne (hother m hm)]
      exact h.pos m hm.1
    · by_cases heq : a = node.addr
      · simp [heq, hrefs] at ha
      · rw [Function.update_of_ne heq] at ha
        obtain ⟨n, hn, rfl⟩ := h.cached a ha
        exact ⟨n, (hcached n).mpr ⟨hn, (hwf.ne_iff hnode hn).mp heq⟩, rfl⟩
  · next hmore =>
    obtain ⟨-, hcached⟩ := hcases
    refine ⟨fun m hm => ?_, fun m hm => ?_, fun a ha => ?_⟩
    · rcases (hcached m).mp hm with hm | rfl
      · rw [Function.update_of_ne (hother m hm), h.count m hm.1]
      · rw [Function.update_self]
        dsimp only
        omega
    · rcases (hcached m).mp hm with hm | rfl
      · rw [Function.update_of_ne (hother m hm)]
        exact h.pos m hm.1
      · rw [Function.update_self]
        omega
    · by_cases heq : a = node.addr
      · exact ⟨_, (hcached _).mpr (.inr rfl), heq.symm⟩
      · rw [Function.update_of_ne heq] at ha
        obtain ⟨n, hn, rfl⟩ := h.cached a ha
        exact ⟨n, (hcached n).mpr (.inl ⟨hn, (hwf.ne_iff hnode hn).mp heq⟩), rfl⟩

/-! ## Clearing -/

/-- Removing the first entry of a bucket leaves the rest of it. -/
theorem removeElf_head (hplaced : Buckets.Placed ElfNode.buildId hashStr cache) {i : Nat}
    {rest : List ElfNode} (hi : cache i = node :: rest) :
    removeElf cache node.buildId = (Function.update cache i rest, some node) := by
  have hhash : hashStr node.buildId = i := hplaced.bucket i node (hi ▸ List.mem_cons_self)
  simp [removeElf, hhash, hi]

/-- The loop over one bucket frees its entries, first to last. -/
theorem clearBucket_eq (hplaced : Buckets.Placed ElfNode.buildId hashStr cache) {i fuel : Nat}
    (hfuel : (cache i).length < fuel) :
    clearBucket fuel i cache = some (Function.update cache i [], cache i) := by
  generalize hlist : cache i = chain at hfuel ⊢
  induction chain generalizing cache fuel with
  | nil =>
      obtain ⟨fuel, rfl⟩ := Nat.exists_eq_succ_of_ne_zero (Nat.ne_zero_of_lt hfuel)
      have hsame : Function.update cache i [] = cache := by rw [← hlist, Function.update_eq_self]
      rw [clearBucket, hlist, hsame]
  | cons node chain ih =>
      obtain ⟨fuel, rfl⟩ := Nat.exists_eq_succ_of_ne_zero (Nat.ne_zero_of_lt hfuel)
      have hremove := removeElf_head hplaced hlist
      have hplaced' : Buckets.Placed ElfNode.buildId hashStr (Function.update cache i chain) := by
        refine hplaced.sublist fun j => ?_
        by_cases hj : j = i
        · subst hj
          rw [Function.update_self, hlist]
          exact List.sublist_cons_self _ _
        · rw [Function.update_of_ne hj]
      have hrest := ih hplaced' (Function.update_self ..) (Nat.lt_of_succ_lt_succ hfuel)
      rw [clearBucket, hlist]
      simp [hremove, hrest]

/-- The buckets are cleared one after the other. -/
theorem clearBuckets_eq (hplaced : Buckets.Placed ElfNode.buildId hashStr cache) {fuel : Nat}
    (hfuel : ∀ i, (cache i).length < fuel) (n : Nat) :
    (List.range n).foldlM
      (fun (cache, freed) i => (clearBucket fuel i cache).map fun (cache, gone) =>
        (cache, freed ++ gone)) (cache, []) =
      some (fun i => if i < n then [] else cache i, Buckets.entries n cache) := by
  induction n with
  | zero => simp [Buckets.entries]
  | succ n ih =>
      have hplaced' : Buckets.Placed ElfNode.buildId hashStr
          fun i => if i < n then [] else cache i :=
        hplaced.sublist fun i => by
          split
          · exact List.nil_sublist _
          · exact List.Sublist.refl _
      have hclear : clearBucket fuel n _ = _ := clearBucket_eq hplaced' (by simpa using hfuel n)
      have hcleared : Function.update (fun i => if i < n then [] else cache i) n [] =
          fun i => if i < n + 1 then [] else cache i := by
        funext i
        rw [Function.update_apply]
        by_cases hi : i = n
        · simp [hi]
        · simp only [hi, if_false, show i < n + 1 ↔ i < n by omega]
      rw [hcleared] at hclear
      rw [List.range_succ, List.foldlM_append, ih]
      simp [hclear, Buckets.entries, List.range_succ]

/-- Clearing frees every entry. -/
theorem clearElfCache_eq (hplaced : Buckets.Placed ElfNode.buildId hashStr cache) {fuel : Nat}
    (hfuel : ∀ i, (cache i).length < fuel) :
    clearElfCache fuel cache =
      some (fun _ => [], Buckets.entries hashtableSize cache) := by
  have hempty : (fun i => if i < hashtableSize then [] else cache i) = fun _ => [] := by
    funext i
    split
    · rfl
    · next hi =>
      refine List.eq_nil_iff_forall_not_mem.mpr fun node hn => hi ?_
      rw [← hplaced.bucket i node hn]
      exact hashStr_lt _
  rw [clearElfCache, clearBuckets_eq hplaced hfuel, hempty]

end ElfCache

/-! ## Every sequence of calls -/

/-- The cache, and the references that its users hold. -/
structure ElfUse where
  cache : ElfCache
  /-- the address that the next `calloc` returns -/
  fresh : Nat
  refs : List Nat

inductive ElfAction where
  | findOrCreate (pid : Int) (filename : Option CString) (reads : ElfReads)
  /-- a holder of a reference gives it back -/
  | release (addr : Nat)

/-- The users of a cache that is empty at first. -/
def elfMachine : Machine ElfUse ElfAction where
  init s := s.cache = (fun _ => []) ∧ s.refs = []
  step s
    | .findOrCreate pid filename reads =>
        let (cache, elfObj) := findOrCreateElf s.cache pid filename reads s.fresh
        some { cache, fresh := s.fresh + 1, refs := s.refs ++ elfObj.toList }
    | .release addr =>
        if addr ∈ s.refs then
          (releaseElfByPtr s.cache (some addr)).map fun (cache, _) =>
            { s with cache, refs := s.refs.erase addr }
        else none

namespace ElfUse

variable {s t : ElfUse}

/-- The entries count the references that are held. -/
structure Inv (s : ElfUse) : Prop where
  wf : s.cache.WF s.fresh
  counts : s.cache.Counts fun addr => s.refs.count addr

theorem inv_init (h : elfMachine.init s) : s.Inv := by
  obtain ⟨hcache, hrefs⟩ := h
  refine ⟨hcache ▸ ElfCache.wf_empty _, ?_, ?_, ?_⟩ <;> simp [hcache, hrefs, Buckets.Mem]

theorem count_append (refs : List Nat) (addr : Nat) :
    (fun a => (refs ++ [addr]).count a) =
      Function.update (refs.count ·) addr (refs.count addr + 1) := by
  funext a
  rw [Function.update_apply, List.count_append, List.count_singleton]
  by_cases h : a = addr
  · simp [h]
  · simp [h, Ne.symm h]

theorem count_erase (refs : List Nat) (addr : Nat) :
    (fun a => (refs.erase addr).count a) =
      Function.update (refs.count ·) addr (refs.count addr - 1) := by
  funext a
  rw [Function.update_apply, List.count_erase]
  by_cases h : a = addr
  · simp [h]
  · simp [h, Ne.symm h]

theorem inv_step {a : ElfAction} (hi : s.Inv) (h : elfMachine.step s a = some t) : t.Inv := by
  cases a with
  | findOrCreate pid filename reads =>
      obtain ⟨hwf, hcounts⟩ := ElfCache.findOrCreateElf_spec hi.wf hi.counts pid filename reads
      simp only [elfMachine] at h
      cases hcall : findOrCreateElf s.cache pid filename reads s.fresh with
      | mk cache' elfObj =>
        rw [hcall] at h hwf hcounts
        obtain rfl := Option.some.inj h
        refine ⟨hwf, ?_⟩
        cases elfObj with
        | none =>
            obtain rfl : cache' = s.cache := hcounts
            simpa using hi.counts
        | some addr =>
            rw [Option.toList_some, count_append]
            exact hcounts
  | release addr =>
      simp only [elfMachine] at h
      split at h
      · next hmem =>
        obtain ⟨cache', freed, hrelease, hwf, hcounts⟩ :=
          hi.counts.releaseElfByPtr hi.wf (List.count_pos_iff.mpr hmem)
        rw [hrelease] at h
        obtain rfl := Option.some.inj h
        refine ⟨hwf, ?_⟩
        rw [count_erase]
        exact hcounts
      · contradiction

theorem inv_of_reachable (h : elfMachine.Reachable s) : s.Inv :=
  elfMachine.invariant (fun _ => inv_init) (fun _ _ _ hi hstep => inv_step hi hstep) h

/-! ## The object of a build-id -/

/-- An entry at this address is one of this build-id, now and later. -/
def Names (s : ElfUse) (addr : Nat) (buildId : CString) : Prop :=
  addr < s.fresh ∧ ∀ node, Cached s.cache node → node.addr = addr → node.buildId = buildId

variable {addr : Nat} {buildId : CString}

theorem names_step {a : ElfAction} (hi : s.Inv) (hnames : s.Names addr buildId)
    (h : elfMachine.step s a = some t) : t.Names addr buildId := by
  obtain ⟨hlt, hids⟩ := hnames
  cases a with
  | findOrCreate pid filename reads =>
      simp only [elfMachine] at h
      rcases ElfCache.findOrCreateElf_cases s.cache pid filename reads s.fresh with
        hcase | ⟨n, hcase, -, -⟩ | ⟨n, hcase, -, hfresh, -, -⟩
      · rw [hcase] at h
        obtain rfl := Option.some.inj h
        exact ⟨Nat.lt_succ_of_lt hlt, hids⟩
      · rw [hcase] at h
        obtain rfl := Option.some.inj h
        refine ⟨Nat.lt_succ_of_lt hlt, fun node hn haddr => ?_⟩
        rcases (ElfCache.cached_addReferences n.addr 1).mp hn with ⟨hn, -⟩ | ⟨m, hm, -, rfl⟩
        · exact hids node hn haddr
        · exact hids m hm haddr
      · rw [hcase] at h
        obtain rfl := Option.some.inj h
        refine ⟨Nat.lt_succ_of_lt hlt, fun node hn haddr => ?_⟩
        rcases (Buckets.mem_push _ _ n).mp hn with hn | rfl
        · exact hids node hn haddr
        · omega
  | release addr' =>
      simp only [elfMachine] at h
      split at h
      · next hmem =>
        obtain ⟨n, hn, rfl⟩ := hi.counts.cached addr' (List.count_pos_iff.mpr hmem)
        obtain ⟨cache', freed, hrelease, -, hcases⟩ := hi.wf.releaseElfByPtr hn
        rw [hrelease] at h
        obtain rfl := Option.some.inj h
        refine ⟨hlt, fun node hn' haddr => ?_⟩
        split at hcases
        · exact hids node ((hcases.2 node).mp hn').1 haddr
        · rcases (hcases.2 node).mp hn' with hn' | rfl
          · exact hids node hn'.1 haddr
          · exact hids n hn haddr
      · contradiction

theorem names_run {as : List ElfAction} (hi : s.Inv) (hnames : s.Names addr buildId)
    (h : elfMachine.run s as = some t) : t.Inv ∧ t.Names addr buildId :=
  elfMachine.run_induction (P := fun s => s.Inv ∧ s.Names addr buildId)
    (fun _ _ _ hs hstep => ⟨inv_step hs.1 hstep, names_step hs.1 hs.2 hstep⟩) ⟨hi, hnames⟩ h

/-- What a call returns has the build-id of its file. -/
theorem names_of_found {pid : Int} {filename : Option CString} {reads : ElfReads} (hi : s.Inv)
    (hid : fileBuildId reads pid filename = some buildId)
    (hfound : (findOrCreateElf s.cache pid filename reads s.fresh).2 = some addr)
    (h : elfMachine.step s (.findOrCreate pid filename reads) = some t) :
    t.Names addr buildId := by
  simp only [elfMachine] at h
  rcases ElfCache.findOrCreateElf_cases s.cache pid filename reads s.fresh with
    hcase | ⟨n, hcase, hid', hn⟩ | ⟨n, hcase, hid', hfresh, -, -⟩
  · simp [hcase] at hfound
  · rw [hcase] at h hfound
    obtain rfl := Option.some.inj h
    obtain rfl := Option.some.inj hfound
    obtain rfl := Option.some.inj (hid.symm.trans hid')
    refine ⟨Nat.lt_succ_of_lt (hi.wf.addr_lt n hn), fun node hn' haddr => ?_⟩
    rcases (ElfCache.cached_addReferences n.addr 1).mp hn' with ⟨hn', hne⟩ | ⟨m, hm, hm', rfl⟩
    · exact absurd haddr hne
    · rw [hi.wf.addr m hm n hn hm']
  · rw [hcase] at h hfound
    obtain rfl := Option.some.inj h
    obtain rfl := Option.some.inj hfound
    obtain rfl := Option.some.inj (hid.symm.trans hid')
    refine ⟨hfresh ▸ Nat.lt_succ_self _, fun node hn' haddr => ?_⟩
    rcases (Buckets.mem_push _ _ n).mp hn' with hn' | rfl
    · have := hi.wf.addr_lt node hn'
      omega
    · rfl

/-- Two calls on files of one build-id get one object, if there are references to
it in between. -/
theorem Inv.same_object (hi : s.Inv) {pid : Int} {filename : Option CString} {reads : ElfReads}
    (hid : fileBuildId reads pid filename = some buildId)
    (hfound : (findOrCreateElf s.cache pid filename reads s.fresh).2 = some addr)
    {as : List ElfAction}
    (hrun : elfMachine.run s (.findOrCreate pid filename reads :: as) = some t)
    {node : ElfNode} (hnode : Cached t.cache node) (haddr : node.addr = addr) {pid' : Int}
    {filename' : Option CString} {reads' : ElfReads}
    (hid' : fileBuildId reads' pid' filename' = some buildId) :
    (findOrCreateElf t.cache pid' filename' reads' t.fresh).2 = some addr := by
  rw [Machine.run_cons] at hrun
  cases hstep : elfMachine.step s (.findOrCreate pid filename reads) with
  | none => simp [hstep] at hrun
  | some u =>
      rw [hstep, Option.bind_some] at hrun
      have hnames := names_of_found hi hid hfound hstep
      obtain ⟨ht, -, hids⟩ := names_run (inv_step hi hstep) hnames hrun
      have hbuildId := hids node hnode haddr
      rw [ht.wf.findOrCreateElf hnode (hid'.trans (congrArg some hbuildId.symm)), haddr]

/-- What the release of a reference does. -/
theorem Inv.release (hi : s.Inv) (haddr : addr ∈ s.refs) :
    ∃ node cache' freed, Cached s.cache node ∧ node.addr = addr ∧
      releaseElfByPtr s.cache (some addr) = some (cache', freed) ∧ cache'.WF s.fresh ∧
      if node.referenceCount = 1 then
        freed = some { node with referenceCount := 0 } ∧
          ∀ m, Cached cache' m ↔ Cached s.cache m ∧ m ≠ node
      else
        freed = none ∧ ∀ m, Cached cache' m ↔ Cached s.cache m ∧ m ≠ node ∨
          m = { node with referenceCount := node.referenceCount - 1 } := by
  obtain ⟨node, hn, rfl⟩ := hi.counts.cached addr (List.count_pos_iff.mpr haddr)
  obtain ⟨cache', freed, hrelease⟩ := hi.wf.releaseElfByPtr hn
  exact ⟨node, cache', freed, hn, rfl, hrelease⟩

end ElfUse

/-- **The ELF cache.**  After any calls: there is one entry for a build-id at
most, in its bucket, and it counts the references to it, of which there is one
at least; calls on files of one build-id get one object while its count is
positive; a call that fails changes nothing; a release lowers the count, or
removes the entry, if it was the last reference, and no other; and clearing the
cache ends, with every bucket empty and every entry freed once. -/
theorem elf_cache_correct {s : ElfUse} (hs : elfMachine.Reachable s) :
    ((Buckets.entries hashtableSize s.cache).map ElfNode.buildId).Nodup ∧
    (∀ i, ∀ node ∈ s.cache i, i = hashStr node.buildId ∧ i < 1024) ∧
    (∀ node ∈ Buckets.entries hashtableSize s.cache,
      node.referenceCount = s.refs.count node.addr ∧ 0 < node.referenceCount) ∧
    (∀ pid filename reads buildId addr, fileBuildId reads pid filename = some buildId →
      (findOrCreateElf s.cache pid filename reads s.fresh).2 = some addr →
      ∀ as t, elfMachine.run s (.findOrCreate pid filename reads :: as) = some t →
      (∃ node ∈ Buckets.entries hashtableSize t.cache, node.addr = addr ∧ 0 < node.referenceCount) →
      ∀ pid' filename' reads', fileBuildId reads' pid' filename' = some buildId →
        (findOrCreateElf t.cache pid' filename' reads' t.fresh).2 = some addr) ∧
    (∀ pid filename reads, (findOrCreateElf s.cache pid filename reads s.fresh).2 = none →
      (findOrCreateElf s.cache pid filename reads s.fresh).1 = s.cache) ∧
    (∀ addr ∈ s.refs, ∃ node ∈ Buckets.entries hashtableSize s.cache, node.addr = addr ∧
      ∃ cache' freed, releaseElfByPtr s.cache (some addr) = some (cache', freed) ∧
        if node.referenceCount = 1 then
          freed = some { node with referenceCount := 0 } ∧
            ∀ m, m ∈ Buckets.entries hashtableSize cache' ↔
              m ∈ Buckets.entries hashtableSize s.cache ∧ m ≠ node
        else
          freed = none ∧ ∀ m, m ∈ Buckets.entries hashtableSize cache' ↔
            m ∈ Buckets.entries hashtableSize s.cache ∧ m ≠ node ∨
              m = { node with referenceCount := node.referenceCount - 1 }) ∧
    (∃ n, ∀ fuel, n ≤ fuel → ∃ cache' freed,
      clearElfCache fuel s.cache = some (cache', freed) ∧ (∀ i, cache' i = []) ∧
        freed = Buckets.entries hashtableSize s.cache ∧ (freed.map ElfNode.addr).Nodup) := by
  have hi := ElfUse.inv_of_reachable hs
  have hmem : ∀ node, node ∈ Buckets.entries hashtableSize s.cache ↔ Cached s.cache node :=
    fun _ => hi.wf.mem_entries
  refine ⟨hi.wf.placed.nodup_entries hashtableSize, fun i node hn => ?_, fun node hn => ?_,
    fun pid filename reads buildId addr hid hfound as t hrun ⟨node, hn, haddr, _⟩ _ _ _ hid' => ?_,
    fun pid filename reads hnone => ?_, fun addr haddr => ?_, ?_⟩
  · have hbucket := hi.wf.placed.bucket i node hn
    exact ⟨hbucket.symm, hbucket ▸ hashStr_lt _⟩
  · have hcount := hi.counts.count node ((hmem node).mp hn)
    exact ⟨hcount, hcount ▸ Int.natCast_pos.mpr (hi.counts.pos node ((hmem node).mp hn))⟩
  · have ht := ElfUse.inv_of_reachable (elfMachine.reachable_run hs hrun)
    exact hi.same_object hid hfound hrun (ht.wf.mem_entries.mp hn) haddr hid'
  · rcases ElfCache.findOrCreateElf_cases s.cache pid filename reads s.fresh with
      hcase | ⟨_, hcase, -⟩ | ⟨_, hcase, -⟩
    · rw [hcase]
    · simp [hcase] at hnone
    · simp [hcase] at hnone
  · obtain ⟨node, cache', freed, hn, heq, hrelease, hwf', hcases⟩ := hi.release haddr
    have hmem' : ∀ m, m ∈ Buckets.entries hashtableSize cache' ↔ Cached cache' m :=
      fun _ => hwf'.mem_entries
    refine ⟨node, (hmem node).mpr hn, heq, cache', freed, hrelease, ?_⟩
    simp only [hmem, hmem']
    exact hcases
  · have hlen : ∀ i, (s.cache i).length < (Buckets.entries hashtableSize s.cache).length + 1 :=
      fun i => Nat.lt_succ_of_le (hi.wf.placed.sublist_entries hashStr_lt i).length_le
    refine ⟨_, fun fuel hle => ⟨_, _, ElfCache.clearElfCache_eq hi.wf.placed
      fun i => Nat.lt_of_lt_of_le (hlen i) hle, fun _ => rfl, rfl, ?_⟩⟩
    refine (List.Nodup.of_map _ (hi.wf.placed.nodup_entries hashtableSize)).map_on ?_
    exact fun n hn n' hn' heq => hi.wf.addr n ((hmem n).mp hn) n' ((hmem n').mp hn') heq

/-- A file with this build-id and one symbol. -/
def openable (buildId : CString) : ElfReads where
  parserInit _ := some ⟨some buildId, some ⟨1, .nil⟩⟩
  calloc := true
  dupPath := true

/-- Two files of one build-id share an object, one of another has its own. -/
theorem elf_cache_correct_shared :
    ∃ s, elfMachine.run ⟨fun _ => [], 0, []⟩
        [.findOrCreate 7 (some (cstr "/bin/a")) (openable (cstr "ab")),
          .findOrCreate 7 (some (cstr "/bin/b")) (openable (cstr "cd")),
          .findOrCreate 8 (some (cstr "/bin/c")) (openable (cstr "ab"))] = some s ∧
      s.refs = [0, 1, 0] ∧
      ∃ n, ∀ fuel, n ≤ fuel → ∃ cache' freed,
        clearElfCache fuel s.cache = some (cache', freed) ∧ (∀ i, cache' i = []) ∧
          freed = Buckets.entries hashtableSize s.cache ∧ (freed.map ElfNode.addr).Nodup := by
  refine ⟨_, rfl, rfl, ?_⟩
  obtain ⟨-, -, -, -, -, -, hclear⟩ := elf_cache_correct ⟨⟨fun _ => [], 0, []⟩,
    [.findOrCreate 7 (some (cstr "/bin/a")) (openable (cstr "ab")),
      .findOrCreate 7 (some (cstr "/bin/b")) (openable (cstr "cd")),
      .findOrCreate 8 (some (cstr "/bin/c")) (openable (cstr "ab"))], ⟨rfl, rfl⟩, rfl⟩
  exact hclear

end Profiling
