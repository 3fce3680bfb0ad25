import Profiling.Elf.BlockCache.Refinement

/-!
# Profiling.Elf.BlockCache.Freeing

Which blocks of the cache are freed, and when.

`cache_cleanup` frees the blocks of the tree without taking them out of the list,
and walks through the list afterwards: it comes to an end just when there is no block
(`cacheCleanup_iff`).
-/

namespace Profiling

namespace HeapCache

section

variable {heap : HeapCache} {cache : MemoryCache}

/-! ## The cleanup -/

/-- The first loop frees every block of the tree, once; the list still links them. -/
theorem cleanupTree_spec {n : Nat} (hn : heap.cacheTree.toList.length = n)
    (hlive : ∀ b ∈ heap.cacheTree.toList, heap.lruList.live (.block b.addr) = true)
    (hrb : heap.cacheTree.RedBlack)
    (hheld : heap.blocks.Holds (heap.cacheTree.toList.map CacheBlock.addr)) :
    ∃ heap', cleanupTree n (heap.cacheTree.toList.head?.map CacheBlock.addr) heap = some heap' ∧
      heap'.blocks.Holds [] ∧ heap'.lruList.next = heap.lruList.next ∧
      ∀ node, heap'.lruList.live node = true ↔ heap.lruList.live node = true ∧
        ∀ b ∈ heap.cacheTree.toList, node ≠ .block b.addr := by
  induction n generalizing heap with
  | zero =>
    have hnil := List.length_eq_zero_iff.mp hn
    rw [hnil] at hheld ⊢
    exact ⟨heap, rfl, hheld, rfl, fun node => by simp⟩
  | succ n ih =>
    obtain ⟨b, rest, hlist⟩ := List.exists_cons_of_length_eq_add_one hn
    have hnodup : (heap.cacheTree.toList.map CacheBlock.addr).Nodup :=
      (List.nodup_append.mp hheld.nodup).1
    have hfirst : heap.cacheTree.toList = [] ++ b :: rest := hlist
    obtain ⟨node, tree, -, -, -, -, hrb', htree, herase⟩ :=
      eraseBlock_spec hlive hrb hnodup hfirst
    rw [List.nil_append] at htree
    rw [hlist, List.map_cons] at hnodup hheld
    have hother : ∀ d ∈ rest, d.addr ≠ b.addr := fun d hd heq =>
      (List.nodup_cons.mp hnodup).1 (heq ▸ List.mem_map_of_mem hd)
    -- the block is freed, and the others of the tree are not
    let freed : HeapCache :=
      { heap with
        cacheTree := tree
        lruList := { heap.lruList with
          live := Function.update heap.lruList.live (.block b.addr) false }
        blocks := heap.blocks.release b.addr }
    have hfree : free { heap with cacheTree := tree } b.addr = some freed := by
      simp [free, ListHeap.free, hlive b (by simp [hlist]), freed]
    have hlength : freed.cacheTree.toList.length = n := by
      change tree.toList.length = n
      rw [hlist, List.length_cons] at hn
      rw [htree]
      omega
    have hlive' : ∀ d ∈ freed.cacheTree.toList, freed.lruList.live (.block d.addr) = true := by
      intro d hd
      change d ∈ tree.toList at hd
      rw [htree] at hd
      change Function.update heap.lruList.live (.block b.addr) false (.block d.addr) = true
      rw [Function.update_of_ne (by simpa using hother d hd)]
      exact hlive d (by simp [hlist, hd])
    have hheld' : freed.blocks.Holds (freed.cacheTree.toList.map CacheBlock.addr) := by
      change (heap.blocks.release b.addr).Holds (tree.toList.map CacheBlock.addr)
      rw [htree]
      exact hheld.release
    obtain ⟨heap', hloop, hheld'', hnext, hlive''⟩ := ih hlength hlive' hrb' hheld'
    refine ⟨heap', ?_, hheld'', hnext, fun node => ?_⟩
    · change cleanupTree n (tree.toList.head?.map CacheBlock.addr) freed = some heap' at hloop
      rw [htree] at hloop
      rw [hlist, List.head?_cons, Option.map_some, cleanupTree]
      simp only [herase, hfree, Option.bind_eq_bind, Option.bind_some, hloop]
    · rw [hlive'']
      change Function.update heap.lruList.live (.block b.addr) false node = true ∧
        (∀ d ∈ tree.toList, node ≠ .block d.addr) ↔ _
      rw [htree, hlist, List.forall_mem_cons, Function.update_apply]
      by_cases heq : node = .block b.addr
      · simp [heq]
      · simp [heq]

namespace Represents

/-- Without a block the cleanup goes through. -/
theorem cacheCleanup_of_nil (h : heap.Represents cache [])
    (hnil : heap.cacheTree.toList = []) :
    ∃ heap', heap.cacheCleanup = some heap' ∧ heap'.blocks.Settled := by
  have hlru : cache.lruList = [] := by
    have hlisted := h.listed
    rw [← h.cacheTree, hnil] at hlisted
    exact List.perm_nil.mp hlisted
  have hring := h.ring
  have hheld := h.held
  rw [hlru] at hring hheld
  have hlive := hring.live _ List.mem_cons_self
  have hnext := hring.next_head
  simp only [List.map_nil, List.nil_append, List.head_cons] at hnext
  refine ⟨{ heap with
    lruList := { heap.lruList with
      live := Function.update heap.lruList.live .cache false } }, ?_, hheld.settled_iff.mpr rfl⟩
  have hfirst := h.first_eq
  rw [← h.cacheTree, hnil] at hfirst
  simp [cacheCleanup, hfirst, hnil, cleanupTree, cleanupList, ListHeap.getNext, ListHeap.free,
    hlive, hnext]

/-- With one, the second loop follows the link of a block that the first loop has
freed. -/
theorem cacheCleanup_of_ne_nil (h : heap.Represents cache [])
    (hne : heap.cacheTree.toList ≠ []) : heap.cacheCleanup = none := by
  have hheld : heap.blocks.Holds (heap.cacheTree.toList.map CacheBlock.addr) :=
    h.held.perm (h.cacheTree ▸ h.listed.symm)
  obtain ⟨heap', hloop, -, hnext, hlive⟩ :=
    cleanupTree_spec rfl h.tree_live (h.cacheTree ▸ h.redBlack) hheld
  obtain ⟨addr, rest, hlru⟩ : ∃ addr rest, cache.lruList = addr :: rest := by
    refine List.exists_cons_of_ne_nil fun hnil => hne ?_
    have hlisted := h.listed
    rw [hnil, ← h.cacheTree] at hlisted
    exact List.map_eq_nil_iff.mp (List.nil_perm.mp hlisted)
  have hmem : addr ∈ cache.lruList := by simp [hlru]
  obtain ⟨b, ls, rs, hlist, haddr⟩ := h.exists_block hmem
  have hhead : heap'.lruList.live .cache = true :=
    (hlive _).mpr ⟨h.ring.live _ List.mem_cons_self, fun b _ => by simp⟩
  have hfreed : ¬heap'.lruList.live (.block addr) = true := fun hlive' =>
    ((hlive _).mp hlive').2 b (by simp [h.cacheTree, hlist]) (by rw [haddr])
  have hfirst := h.ring.next_head
  simp only [hlru, List.map_cons, List.cons_append, List.head_cons] at hfirst
  rw [← hnext] at hfirst
  rw [cacheCleanup, h.first_eq, ← h.cacheTree]
  simp [hloop, ListHeap.getNext, hhead, hfirst, cleanupList, hfreed]

end Represents

/-! ## After any calls -/

/-- The cache of the file after some calls. -/
def afterCalls (file : List UInt8) (calls : List CacheCall) : Option HeapCache :=
  (HeapCache.cacheInit file.length).bind fun cache => (heapMachine file).run cache calls

/-- **Every call goes through**, and does what it does without a heap. -/
theorem afterCalls_represents (file : List UInt8) (hfile : file.length < 2 ^ 63)
    (calls : List CacheCall) :
    ∃ heap cache, afterCalls file calls = some heap ∧
      (cacheMachine file).run (Profiling.cacheInit file.length) calls = some cache ∧
      heap.Represents cache [] := by
  obtain ⟨init, hinit, h⟩ := represents_cacheInit hfile
  obtain ⟨heap, cache, hrun, hrun', h'⟩ := h.run file calls
  exact ⟨heap, cache, by rw [afterCalls, hinit, Option.bind_some, hrun], hrun', h'⟩

/-- A flush leaves no block. -/
theorem cacheTree_of_flush {file : List UInt8} (hfile : file.length < 2 ^ 63)
    (calls : List CacheCall) (hafter : afterCalls file (calls ++ [.flush]) = some heap) :
    heap.cacheTree.toList = [] := by
  obtain ⟨init, hinit, h⟩ := represents_cacheInit hfile
  obtain ⟨heap₁, cache₁, hrun, -, h₁⟩ := h.run file calls
  obtain ⟨heap₂, cache₂, hflush, -, h₂, hnil⟩ := h₁.cacheFlush
  have hrun' : afterCalls file (calls ++ [.flush]) = some heap₂ := by
    rw [afterCalls, hinit, Option.bind_some, Machine.run_append, hrun, Option.bind_some,
      Machine.run_cons]
    simp only [heapMachine, hflush, Option.bind_some, Machine.run_nil]
  obtain rfl := Option.some.inj (hrun'.symm.trans hafter)
  rw [h₂.cacheTree, hnil]

/-- **The cleanup** after any calls goes through, and every block that was allocated
has been freed once, just when no block is in the cache. -/
theorem cacheCleanup_iff (file : List UInt8) (hfile : file.length < 2 ^ 63)
    (calls : List CacheCall) :
    ∃ heap, afterCalls file calls = some heap ∧
      ((∃ heap', heap.cacheCleanup = some heap' ∧ heap'.blocks.Settled) ↔
        heap.cacheTree.toList = []) := by
  obtain ⟨heap, cache, hafter, -, h⟩ := afterCalls_represents file hfile calls
  refine ⟨heap, hafter, fun ⟨heap', hcleanup, _⟩ => ?_, h.cacheCleanup_of_nil⟩
  by_contra hne
  rw [h.cacheCleanup_of_ne_nil hne] at hcleanup
  cases hcleanup

/-- A read of the file of three bytes, and a flush. -/
theorem cacheCleanup_flushed :
    ∃ heap heap', afterCalls [1, 2, 3] [.read true 1 5 fun _ => goodLoad, .flush] = some heap ∧
      heap.cacheCleanup = some heap' ∧ heap'.blocks.Settled := by
  obtain ⟨heap, hafter, hiff⟩ :=
    cacheCleanup_iff [1, 2, 3] (by decide) [.read true 1 5 fun _ => goodLoad, .flush]
  obtain ⟨heap', hcleanup, hsettled⟩ :=
    hiff.mpr (cacheTree_of_flush (by decide) [.read true 1 5 fun _ => goodLoad] hafter)
  exact ⟨heap, heap', hafter, hcleanup, hsettled⟩

/-- One read of it, which loads a block. -/
theorem cacheCleanup_loaded :
    ∃ heap, afterCalls [1, 2, 3] [.read true 1 5 fun _ => goodLoad] = some heap ∧
      heap.cacheCleanup = none := by
  obtain ⟨heap, cache, hafter, -, h⟩ :=
    afterCalls_represents [1, 2, 3] (by decide) [.read true 1 5 fun _ => goodLoad]
  refine ⟨heap, hafter, h.cacheCleanup_of_ne_nil ?_⟩
  obtain ⟨init, heap₁, b, heap₂, hinit, hfetch, htouch, hne⟩ : ∃ init heap₁ b heap₂,
      HeapCache.cacheInit 3 = some init ∧
      HeapCache.fetchBlock [1, 2, 3] goodLoad init 1 = some (heap₁, some b) ∧
      heap₁.touchBlock b.addr = some heap₂ ∧ heap₂.cacheTree.toList ≠ [] :=
    ⟨_, _, _, _, rfl, rfl, rfl, by decide⟩
  have hsize : init.fileSize = 3 := by
    obtain rfl := Option.some.inj hinit
    rfl
  have hread : ∃ written,
      HeapCache.cacheRead [1, 2, 3] (fun _ => goodLoad) true 1 5 init = some (heap₂, 0, written) := by
    rw [HeapCache.cacheRead, hsize, if_neg (by decide)]
    change ∃ written, HeapCache.readLoop _ _ 0 init [] 1 2 = _
    rw [HeapCache.readLoop, if_neg (by decide), hfetch]
    simp only [htouch]
    change ∃ written, HeapCache.readLoop _ _ 1 heap₂ _ 3 0 = _
    rw [HeapCache.readLoop, if_pos rfl]
    exact ⟨_, rfl⟩
  obtain ⟨written, hread⟩ := hread
  have hafter' : afterCalls [1, 2, 3] [.read true 1 5 fun _ => goodLoad] = some heap₂ := by
    rw [afterCalls, show ([1, 2, 3] : List UInt8).length = 3 from rfl, hinit, Option.bind_some,
      Machine.run_cons]
    simp only [heapMachine, hread, Option.map_some, Option.bind_some, Machine.run_nil]
  obtain rfl := Option.some.inj (hafter'.symm.trans hafter)
  exact hne

end

end HeapCache

end Profiling
