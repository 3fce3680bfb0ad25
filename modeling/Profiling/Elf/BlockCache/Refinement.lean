import Profiling.Elf.BlockCache.Heap

/-!
# Profiling.Elf.BlockCache.Refinement

The block cache with its heap, and the one without.

Between two calls the blocks that are allocated are those of the list, each of which
is in the tree as well (`Represents`).  So every call goes through, and does to the
tree and the list what it does to them in `MemoryCache` (`Represents.run`).
-/

namespace Profiling

namespace HeapCache

/-- The heap has the cache in it, and the blocks of `loose`, which are neither in the
tree nor in the list. -/
structure Represents (heap : HeapCache) (cache : MemoryCache) (loose : List Nat) : Prop where
  cacheTree : heap.cacheTree = cache.cacheTree
  currentBlocks : heap.currentBlocks = cache.currentBlocks
  maxBlocks : heap.maxBlocks = cache.maxBlocks
  fileSize : heap.fileSize = cache.fileSize
  accessCounter : heap.accessCounter = cache.accessCounter
  acquired : heap.blocks.acquired = cache.fresh
  ring : heap.lruList.Ring .cache (cache.lruList.map .block)
  held : heap.blocks.Holds (loose ++ cache.lruList)
  live : ∀ addr ∈ loose, heap.lruList.live (.block addr) = true
  listed : cache.lruList.Perm (cache.cacheTree.toList.map CacheBlock.addr)
  redBlack : cache.cacheTree.RedBlack
  sorted : cache.cacheTree.Sorted CacheBlock.offset
  small : cache.fileSize < 2 ^ 63

section

variable {heap : HeapCache} {cache : MemoryCache} {loose as bs : List Nat} {addr : Nat}
  {b : CacheBlock} {ls rs : List CacheBlock}

/-! ## One block -/

theorem tree_eq_some (h : ∀ b ∈ heap.cacheTree.toList, heap.lruList.live (.block b.addr) = true) :
    heap.tree = some heap.cacheTree := if_pos h

/-- `rb_erase` takes one block out of the tree. -/
theorem eraseBlock_spec
    (hlive : ∀ b ∈ heap.cacheTree.toList, heap.lruList.live (.block b.addr) = true)
    (hrb : heap.cacheTree.RedBlack) (hnodup : (heap.cacheTree.toList.map CacheBlock.addr).Nodup)
    (hlist : heap.cacheTree.toList = ls ++ b :: rs) :
    ∃ node tree, RbTree.locate (CacheBlock.isAt b.addr) heap.cacheTree [] = some node ∧
      node.val = b ∧
      (RbTree.rbNext node).map (fun p => p.val.addr) = rs.head?.map CacheBlock.addr ∧
      RbTree.rbErase node = some tree ∧ tree.RedBlack ∧ tree.toList = ls ++ rs ∧
      heap.eraseBlock b.addr =
        some ({ heap with cacheTree := tree }, rs.head?.map CacheBlock.addr) := by
  obtain ⟨node, tree, hnode, hval, hnext, herase, hrb, htree⟩ :=
    MemoryCache.locate_of_nodup hrb hlist hnodup
  have hnext' := MemoryCache.rbNext_addr hnext
  refine ⟨node, tree, hnode, hval, hnext', herase, hrb, htree, ?_⟩
  simp [eraseBlock, tree_eq_some hlive, hnode, herase, hnext']

namespace Represents

theorem live_listed (h : heap.Represents cache loose) (hmem : addr ∈ cache.lruList) :
    heap.lruList.live (.block addr) = true :=
  h.ring.live _ (List.mem_cons_of_mem _ (List.mem_map_of_mem hmem))

/-- A block of the tree is in the list. -/
theorem mem_lruList (h : heap.Represents cache loose) (hb : b ∈ cache.cacheTree.toList) :
    b.addr ∈ cache.lruList :=
  h.listed.mem_iff.mpr (List.mem_map_of_mem hb)

theorem tree_live (h : heap.Represents cache loose) :
    ∀ b ∈ heap.cacheTree.toList, heap.lruList.live (.block b.addr) = true := fun _ hb =>
  h.live_listed (h.mem_lruList (h.cacheTree ▸ hb))

theorem tree_eq (h : heap.Represents cache loose) : heap.tree = some cache.cacheTree := by
  rw [tree_eq_some h.tree_live, h.cacheTree]

theorem nodup_lruList (h : heap.Represents cache loose) : cache.lruList.Nodup :=
  (List.nodup_append.mp (List.nodup_append.mp h.held.nodup).1).2.1

/-- `list_del` leaves what is in front of the block and behind it. -/
theorem erase_lruList (h : heap.Represents cache loose)
    (hsplit : cache.lruList = as ++ addr :: bs) : cache.lruList.erase addr = as ++ bs := by
  have hnodup := h.nodup_lruList
  rw [hsplit] at hnodup ⊢
  have hnot : addr ∉ as := fun hmem =>
    (List.nodup_append.mp hnodup).2.2 addr hmem addr List.mem_cons_self rfl
  rw [List.erase_append_right _ hnot, List.erase_cons_head]

theorem nodup_tree (h : heap.Represents cache loose) :
    (heap.cacheTree.toList.map CacheBlock.addr).Nodup := by
  rw [h.cacheTree]
  exact h.listed.nodup_iff.mp h.nodup_lruList

/-- A block that is not in the list is no node of it. -/
theorem block_notMem (hmem : addr ∉ cache.lruList) :
    LruNode.block addr ∉ LruNode.cache :: cache.lruList.map LruNode.block := by
  simpa using hmem

theorem loose_notMem (h : heap.Represents cache loose) (hmem : addr ∈ loose) :
    addr ∉ cache.lruList := fun hlisted =>
  (List.nodup_append.mp (List.nodup_append.mp h.held.nodup).1).2.2 addr hmem addr hlisted rfl

/-- The next block that is allocated is none of the list. -/
theorem acquired_notMem (h : heap.Represents cache loose) :
    heap.blocks.acquired ∉ cache.lruList := fun hmem =>
  Nat.lt_irrefl _ (h.held.lt_acquired (List.mem_append_right _ hmem))

/-- A loose block may be freed. -/
theorem free (h : heap.Represents cache (addr :: loose)) :
    ∃ heap', heap.free addr = some heap' ∧ heap'.Represents cache loose := by
  obtain ⟨lruList, hfree, hring, hlive⟩ := h.ring.free (h.live addr List.mem_cons_self)
    (block_notMem (h.loose_notMem List.mem_cons_self))
  have hne : ∀ a ∈ loose, a ≠ addr := fun a ha heq => by
    have hnodup := h.held.nodup
    rw [List.cons_append, List.cons_append, List.nodup_cons] at hnodup
    exact hnodup.1 (heq ▸ List.mem_append_left _ (List.mem_append_left _ ha))
  refine ⟨{ heap with lruList, blocks := heap.blocks.release addr }, ?_, { h with
    ring := hring
    held := h.held.release
    live := fun a ha => ?_ }⟩
  · simp [HeapCache.free, hfree]
  · change lruList.live (.block a) = true
    rw [hlive, Function.update_of_ne (by simpa using hne a ha)]
    exact h.live a (List.mem_cons_of_mem _ ha)

/-- A block of the list that is unlinked is loose; the tree has been told before. -/
theorem unlinkBlock {tree : RbTree CacheBlock} (h : heap.Represents cache loose)
    (hsplit : cache.lruList = as ++ b.addr :: bs) (hlist : cache.cacheTree.toList = ls ++ b :: rs)
    (hrb : tree.RedBlack) (htree : tree.toList = ls ++ rs) :
    ∃ heap', { heap with cacheTree := tree }.unlinkBlock b.addr = some heap' ∧
      heap'.Represents { cache with cacheTree := tree, lruList := as ++ bs } (b.addr :: loose) := by
  have hring := h.ring
  rw [hsplit, List.map_append, List.map_cons] at hring
  obtain ⟨lruList, hdel, hring', hlive⟩ := hring.listDel
  refine ⟨{ heap with cacheTree := tree, lruList }, ?_, { h with
    cacheTree := rfl
    ring := ?_
    held := ?_
    live := fun a ha => ?_
    listed := ?_
    redBlack := hrb
    sorted := ?_ }⟩
  · simp [HeapCache.unlinkBlock, hdel]
  · change lruList.Ring _ _
    rwa [List.map_append]
  · refine h.held.perm ?_
    rw [hsplit, ← List.append_assoc, List.cons_append]
    exact List.perm_middle.symm.trans (by rw [List.append_assoc])
  · change lruList.live (.block a) = true
    rw [hlive]
    rcases List.mem_cons.mp ha with rfl | ha
    · exact h.live_listed (by simp [hsplit])
    · exact h.live a ha
  · change (as ++ bs).Perm (tree.toList.map CacheBlock.addr)
    have hlisted := h.listed
    rw [hsplit, hlist, List.map_append, List.map_cons] at hlisted
    rw [htree, List.map_append]
    exact (List.perm_cons b.addr).mp
      (List.perm_middle.symm.trans (hlisted.trans List.perm_middle))
  · have hsorted := h.sorted
    rw [RbTree.Sorted, hlist] at hsorted
    change tree.toList.Pairwise _
    rw [htree]
    exact hsorted.sublist ((List.sublist_cons_self b rs).append_left ls)

/-- A block leaves the tree and the list, and is freed. -/
theorem removeBlock (h : heap.Represents cache []) (hsplit : cache.lruList = as ++ addr :: bs)
    (hlist : cache.cacheTree.toList = ls ++ b :: rs) (haddr : b.addr = addr) :
    ∃ node tree heap₁ heap₂ heap₃, RbTree.locate (CacheBlock.isAt addr) cache.cacheTree [] =
        some node ∧
      (RbTree.rbNext node).map (fun p => p.val.addr) = rs.head?.map CacheBlock.addr ∧
      RbTree.rbErase node = some tree ∧ tree.toList = ls ++ rs ∧
      heap.eraseBlock addr = some (heap₁, rs.head?.map CacheBlock.addr) ∧
      heap₁.unlinkBlock addr = some heap₂ ∧ heap₂.free addr = some heap₃ ∧
      heap₃.Represents { cache with cacheTree := tree, lruList := as ++ bs } [] := by
  subst haddr
  have hlist' : heap.cacheTree.toList = ls ++ b :: rs := h.cacheTree ▸ hlist
  obtain ⟨node, tree, hnode, -, hnext, herase, hrb, htree, heraseBlock⟩ :=
    eraseBlock_spec h.tree_live (h.cacheTree ▸ h.redBlack) h.nodup_tree hlist'
  obtain ⟨heap₂, hunlink, h₂⟩ := h.unlinkBlock hsplit hlist hrb htree
  obtain ⟨heap₃, hfree, h₃⟩ := h₂.free
  rw [h.cacheTree] at hnode
  exact ⟨node, tree, _, heap₂, heap₃, hnode, hnext, herase, htree, heraseBlock, hunlink, hfree, h₃⟩

/-- The block of a listed address. -/
theorem exists_block (h : heap.Represents cache loose) (hmem : addr ∈ cache.lruList) :
    ∃ b ls rs, cache.cacheTree.toList = ls ++ b :: rs ∧ b.addr = addr := by
  obtain ⟨b, hb, haddr⟩ := List.mem_map.mp (h.listed.mem_iff.mp hmem)
  obtain ⟨ls, rs, hlist⟩ := List.append_of_mem hb
  exact ⟨b, ls, rs, hlist, haddr⟩

/-! ## The steps of a read -/

theorem evictLruBlock (h : heap.Represents cache []) :
    ∃ heap' cache', heap.evictLruBlock = some heap' ∧
      Profiling.evictLruBlock cache = some cache' ∧ heap'.Represents cache' [] := by
  have hempty := h.ring.listEmpty
  cases hlru : cache.lruList with
  | nil =>
    refine ⟨heap, cache, ?_, by simp [Profiling.evictLruBlock, hlru], h⟩
    rw [hlru] at hempty
    simp [HeapCache.evictLruBlock, hempty]
  | cons addr rest =>
    have hmem : addr ∈ cache.lruList := by simp [hlru]
    have hsplit : cache.lruList = [] ++ addr :: rest := hlru
    obtain ⟨b, ls, rs, hlist, haddr⟩ := h.exists_block hmem
    obtain ⟨node, tree, heap₁, heap₂, heap₃, hnode, -, herase, -, hheap₁, hheap₂, hheap₃, h₃⟩ :=
      h.removeBlock hsplit hlist haddr
    have hhead := h.ring.live _ List.mem_cons_self
    have hfirst := h.ring.next_head
    simp only [hlru, List.map_cons, List.cons_append, List.head_cons] at hfirst
    rw [hlru] at hempty
    refine ⟨{ heap₃ with currentBlocks := heap₃.currentBlocks - 1 },
      { cache with
        cacheTree := tree
        lruList := rest
        currentBlocks := cache.currentBlocks - 1
        evicted := cache.evicted ++ [(node.val, tree.toList)] }, ?_, ?_,
      { h₃ with currentBlocks := ?_ }⟩
    · simp [HeapCache.evictLruBlock, hempty, ListHeap.getNext, hhead, hfirst, hheap₁, hheap₂,
        hheap₃]
    · simp [Profiling.evictLruBlock, hlru, hnode, herase]
    · change heap₃.currentBlocks - 1 = cache.currentBlocks - 1
      rw [h₃.currentBlocks]

theorem createCacheBlock (h : heap.Represents cache []) (file : List UInt8) (load : BlockLoad)
    (offset : Nat) :
    ∃ heap' cache' found, HeapCache.createCacheBlock file load heap offset = some (heap', found) ∧
      Profiling.createCacheBlock file load cache offset = (cache', found) ∧
      heap'.Represents cache' (found.map CacheBlock.addr).toList := by
  cases hcalloc : load.calloc with
  | false =>
    refine ⟨heap, cache, none, ?_, ?_, h⟩
    · simp [HeapCache.createCacheBlock, hcalloc]
    · simp [Profiling.createCacheBlock, hcalloc]
  | true =>
    have hnot := block_notMem h.acquired_notMem
    obtain ⟨lruList, hinit, hring, hlive⟩ := (h.ring.calloc hnot).initListHead
      (a := .block heap.blocks.acquired) (by simp [ListHeap.calloc]) hnot
    -- the block is allocated, and in neither of the two
    have hnew : Represents
        { heap with
          lruList
          accessCounter := (heap.accessCounter + 1) % 2 ^ 64
          blocks := heap.blocks.acquire.2 }
        { cache.countAccess with fresh := cache.fresh + 1 } [heap.blocks.acquired] :=
      { h with
        accessCounter := by
          simp only [MemoryCache.countAccess, h.accessCounter]
        acquired := congrArg (· + 1) h.acquired
        ring := hring
        held := h.held.acquire
        live := by
          rw [List.forall_mem_singleton]
          change lruList.live _ = true
          rw [hlive]
          simp [ListHeap.calloc] }
    have hsize := @exists_eq' Nat
      (if cache.fileSize < (offset + cacheBlockSize) % 2 ^ 64 then
        (cache.fileSize + 2 ^ 64 - offset) % 2 ^ 64 else cacheBlockSize)
    obtain ⟨readSize, hsize⟩ := hsize
    have hsize' := hsize
    rw [← h.fileSize] at hsize'
    cases hread : readFromFile file load offset readSize with
    | none =>
      obtain ⟨heap', hfree, h'⟩ := hnew.free
      refine ⟨heap', _, none, ?_, ?_, h'⟩
      · simp only [HeapCache.createCacheBlock, hcalloc, if_true, Ledger.acquire, hinit, hsize',
          hread, Option.bind_eq_bind, Option.bind_some]
        exact congrArg (Option.bind · _) hfree
      · simp only [Profiling.createCacheBlock, hcalloc, if_true, hsize, hread]
    | some bytes =>
      rw [h.acquired] at hnew hinit
      refine ⟨_, _, some ⟨cache.fresh, offset, bytes ++ List.replicate (cacheBlockSize - readSize) 0,
        cache.countAccess.accessCounter⟩, ?_, ?_, hnew⟩
      · simp only [HeapCache.createCacheBlock, hcalloc, if_true, Ledger.acquire, hinit, hsize',
          hread, Option.bind_eq_bind, Option.bind_some, h.acquired, h.accessCounter,
          MemoryCache.countAccess]
        rfl
      · simp only [Profiling.createCacheBlock, hcalloc, if_true, hsize, hread]

/-- A loose block is linked into the list, when it is in the tree. -/
theorem linkBlock {tree : RbTree CacheBlock} (h : heap.Represents cache (addr :: loose))
    (hrb : tree.RedBlack) (hsorted : tree.Sorted CacheBlock.offset)
    (hlisted : (cache.lruList ++ [addr]).Perm (tree.toList.map CacheBlock.addr)) :
    ∃ heap', { heap with cacheTree := tree }.linkBlock addr = some heap' ∧
      heap'.Represents { cache with cacheTree := tree, lruList := cache.lruList ++ [addr] }
        loose := by
  obtain ⟨lruList, hadd, hring, hlive⟩ := h.ring.listAddTail (h.live addr List.mem_cons_self)
    (block_notMem (h.loose_notMem List.mem_cons_self))
  refine ⟨{ heap with cacheTree := tree, lruList }, ?_, { h with
    cacheTree := rfl
    ring := ?_
    held := ?_
    live := fun a ha => ?_
    listed := hlisted
    redBlack := hrb
    sorted := hsorted }⟩
  · simp [HeapCache.linkBlock, hadd]
  · simpa using hring
  · refine h.held.perm ?_
    rw [← List.append_assoc]
    exact List.perm_append_singleton addr (loose ++ cache.lruList)
  · change lruList.live (.block a) = true
    rw [hlive]
    exact h.live a (List.mem_cons_of_mem _ ha)

/-- `insert_cache_block`, for a block that has just been loaded. -/
theorem insertBlock (h : heap.Represents cache [b.addr]) :
    ∃ tree heap', RbTree.rbInsert CacheBlock.offset b cache.cacheTree = some tree ∧
      { heap with cacheTree := tree }.linkBlock b.addr = some heap' ∧
      heap'.Represents { cache with cacheTree := tree, lruList := cache.lruList ++ [b.addr] } [] := by
  obtain ⟨n, hbalanced⟩ := h.redBlack
  obtain ⟨tree, as, bs, hinsert, -, hsorted, hlist, hlist', -, -⟩ :=
    RbTree.rbInsert_spec (x := b) hbalanced.color_eq h.sorted
  obtain ⟨tree', hinsert', hrb⟩ := RbTree.redBlack_rbInsert CacheBlock.offset b h.redBlack
  obtain rfl : tree = tree' := Option.some.inj (hinsert.symm.trans hinsert')
  have hlisted : (cache.lruList ++ [b.addr]).Perm (tree.toList.map CacheBlock.addr) := by
    have hlisted := h.listed
    rw [hlist, List.map_append] at hlisted
    rw [hlist', List.map_append, List.map_cons]
    exact (List.perm_append_singleton _ _).trans
      ((hlisted.cons b.addr).trans List.perm_middle.symm)
  obtain ⟨heap', hlink, h'⟩ := h.linkBlock hrb hsorted hlisted
  exact ⟨tree, heap', hinsert, hlink, h'⟩

theorem fetchBlock (h : heap.Represents cache []) (file : List UInt8) (load : BlockLoad)
    (currentOffset : Nat) :
    ∃ heap' cache' found, HeapCache.fetchBlock file load heap currentOffset = some (heap', found) ∧
      Profiling.fetchBlock file load cache currentOffset = some (cache', found) ∧
      heap'.Represents cache' [] ∧ ∀ b, found = some b → b.addr ∈ cache'.lruList := by
  cases hfind : RbTree.walk (blockCut currentOffset) cache.cacheTree with
  | some b =>
    refine ⟨heap, cache, some b, ?_, ?_, h, fun d hd => ?_⟩
    · simp [HeapCache.fetchBlock, h.tree_eq, hfind]
    · simp [Profiling.fetchBlock, findCacheBlock, hfind]
    · obtain rfl := Option.some.inj hd
      exact h.mem_lruList (RbTree.walk_eq_some hfind).1
  | none =>
    -- room is made first
    obtain ⟨heap₁, cache₁, hroom, hroom', h₁⟩ : ∃ heap₁ cache₁, heap.makeRoom = some heap₁ ∧
        (if cache.maxBlocks ≤ cache.currentBlocks then Profiling.evictLruBlock cache
          else some cache) = some cache₁ ∧ heap₁.Represents cache₁ [] := by
      rw [HeapCache.makeRoom, h.maxBlocks, h.currentBlocks]
      split
      · exact h.evictLruBlock
      · exact ⟨heap, cache, rfl, rfl, h⟩
    obtain ⟨heap₂, cache₂, found, hcreate, hcreate', h₂⟩ := h₁.createCacheBlock file load
      (currentOffset / cacheBlockSize * cacheBlockSize)
    cases found with
    | none =>
      refine ⟨heap₂, cache₂, none, ?_, ?_, h₂, fun d hd => by cases hd⟩
      · simp only [HeapCache.fetchBlock, h.tree_eq, Option.bind_eq_bind, Option.bind_some, hfind,
          hroom, hcreate]
        rfl
      · simp only [Profiling.fetchBlock, findCacheBlock, hfind, hroom', hcreate']
    | some b =>
      obtain ⟨tree, heap₃, hinsert, hlink, h₃⟩ := Represents.insertBlock (b := b) h₂
      refine ⟨{ heap₃ with currentBlocks := heap₃.currentBlocks + 1 },
        { cache₂ with
          cacheTree := tree
          lruList := cache₂.lruList ++ [b.addr]
          currentBlocks := cache₂.currentBlocks + 1 }, some b, ?_, ?_,
        { h₃ with currentBlocks := ?_ }, fun d hd => ?_⟩
      · simp only [HeapCache.fetchBlock, h.tree_eq, Option.bind_eq_bind, Option.bind_some, hfind,
          hroom, hcreate, h₂.tree_eq, hinsert, hlink]
        rfl
      · simp only [Profiling.fetchBlock, findCacheBlock, hfind, hroom', hcreate',
          insertCacheBlock, hinsert, Option.map_some]
      · change heap₃.currentBlocks + 1 = cache₂.currentBlocks + 1
        rw [h₃.currentBlocks]
      · obtain rfl := Option.some.inj hd
        simp

/-- A write to a block leaves the tree in order. -/
theorem update (h : heap.Represents cache []) (addr lastAccess : Nat) :
    (cache.cacheTree.update (CacheBlock.isAt addr) fun block =>
        { block with lastAccess }).RedBlack ∧
    (cache.cacheTree.update (CacheBlock.isAt addr) fun block =>
        { block with lastAccess }).Sorted CacheBlock.offset ∧
    (cache.cacheTree.update (CacheBlock.isAt addr) fun block =>
        { block with lastAccess }).toList.map CacheBlock.addr =
      cache.cacheTree.toList.map CacheBlock.addr := by
  refine ⟨h.redBlack.update, ?_, ?_⟩
  · rw [RbTree.Sorted, RbTree.toList_update, List.pairwise_map]
    refine h.sorted.imp fun {a b} hle => ?_
    split <;> split <;> exact hle
  · rw [RbTree.toList_update, List.map_map]
    refine List.map_congr_left fun b _ => ?_
    rw [Function.comp_apply]
    split <;> rfl

theorem touchBlock (h : heap.Represents cache []) (hmem : addr ∈ cache.lruList) :
    ∃ heap', heap.touchBlock addr = some heap' ∧
      heap'.Represents (Profiling.touchBlock cache addr) [] := by
  obtain ⟨as, bs, hsplit⟩ := List.append_of_mem hmem
  have hperm : (addr :: (as ++ bs)).Perm cache.lruList := by
    rw [hsplit]
    exact List.perm_middle.symm
  have hnot : addr ∉ as ++ bs := (List.nodup_cons.mp (hperm.nodup_iff.mpr h.nodup_lruList)).1
  have herase := h.erase_lruList hsplit
  have hmoved : (as ++ bs ++ [addr]).Perm cache.lruList :=
    (List.perm_append_singleton addr (as ++ bs)).trans hperm
  have hring := h.ring
  rw [hsplit, List.map_append, List.map_cons] at hring
  obtain ⟨lruList₁, hdel, hring₁, hlive₁⟩ := hring.listDel
  rw [← List.map_append] at hring₁
  obtain ⟨lruList₂, hadd, hring₂, hlive₂⟩ := hring₁.listAddTail (a := .block addr)
    (by rw [hlive₁]; exact h.live_listed hmem) (by simpa using hnot)
  obtain ⟨hrb, hsorted, haddrs⟩ := h.update addr cache.countAccess.accessCounter
  refine ⟨{ heap with
    cacheTree := cache.cacheTree.update (CacheBlock.isAt addr) fun block =>
      { block with lastAccess := cache.countAccess.accessCounter }
    accessCounter := cache.countAccess.accessCounter
    lruList := lruList₂ }, ?_, { h with
    cacheTree := rfl
    accessCounter := rfl
    ring := ?_
    held := ?_
    live := fun a ha => by cases ha
    listed := ?_
    redBlack := hrb
    sorted := hsorted }⟩
  · simp only [HeapCache.touchBlock, h.tree_eq, h.accessCounter, Option.bind_eq_bind,
      Option.bind_some, HeapCache.unlinkBlock, hdel, Option.map_some, HeapCache.linkBlock, hadd]
    rfl
  · change lruList₂.Ring _ ((cache.lruList.erase addr ++ [addr]).map LruNode.block)
    rw [herase, List.map_append]
    exact hring₂
  · change heap.blocks.Holds ([] ++ (cache.lruList.erase addr ++ [addr]))
    rw [herase]
    exact h.held.perm hmoved
  · change (cache.lruList.erase addr ++ [addr]).Perm _
    rw [herase]
    exact hmoved.trans (haddrs ▸ h.listed)

/-! ## The calls -/

/-- **A read** goes through, and reads what the cache without a heap reads. -/
theorem readLoop (h : heap.Represents cache []) (file : List UInt8) (loads : Nat → BlockLoad)
    (pass : Nat) (buf : List UInt8) (currentOffset remaining : Nat) :
    ∃ heap' cache' result,
      HeapCache.readLoop file loads pass heap buf currentOffset remaining = some (heap', result) ∧
      Profiling.readLoop file loads pass cache buf currentOffset remaining =
        some (cache', result) ∧ heap'.Represents cache' [] := by
  induction remaining using Nat.strongRecOn generalizing heap cache pass buf currentOffset with
  | ind remaining ih =>
    rw [HeapCache.readLoop, Profiling.readLoop]
    by_cases hzero : remaining = 0
    · rw [if_pos hzero, if_pos hzero]
      exact ⟨heap, cache, _, rfl, rfl, h⟩
    · rw [if_neg hzero, if_neg hzero]
      obtain ⟨heap₁, cache₁, found, hfetch, hfetch', h₁, hfound⟩ :=
        h.fetchBlock file (loads pass) currentOffset
      rw [hfetch, hfetch']
      cases found with
      | none => exact ⟨heap₁, cache₁, _, rfl, rfl, h₁⟩
      | some b =>
        obtain ⟨heap₂, htouch, h₂⟩ := h₁.touchBlock (hfound b rfl)
        simp only [htouch]
        have hpos := Nat.mod_lt currentOffset (show 0 < 4096 by decide)
        refine ih _ ?_ h₂ _ _ _
        dsimp only [cacheBlockSize]
        split <;> omega

theorem cacheRead (h : heap.Represents cache []) (file : List UInt8) (loads : Nat → BlockLoad)
    (buffer : Bool) (offset size : Nat) :
    ∃ heap' cache' result,
      HeapCache.cacheRead file loads buffer offset size heap = some (heap', result) ∧
      Profiling.cacheRead file loads buffer offset size cache = some (cache', result) ∧
      heap'.Represents cache' [] := by
  rw [HeapCache.cacheRead, Profiling.cacheRead, h.fileSize]
  split
  · exact ⟨heap, cache, _, rfl, rfl, h⟩
  · exact h.readLoop file loads 0 [] offset _

/-- Inside the file the next block does not start over at zero, so that the loop ends. -/
theorem prefetchLoop (h : heap.Represents cache []) (file : List UInt8)
    (loads : Nat → Nat → BlockLoad) {last fuel currentOffset : Nat}
    (hfuel : last ≤ currentOffset + cacheBlockSize * fuel) :
    ∃ heap' cache' code,
      HeapCache.prefetchLoop file loads last (fuel + 1) currentOffset heap = some (heap', code) ∧
      Profiling.prefetchLoop file loads last (fuel + 1) currentOffset cache =
        some (cache', code) ∧ heap'.Represents cache' [] := by
  induction fuel generalizing heap cache currentOffset with
  | zero =>
    rw [HeapCache.prefetchLoop, Profiling.prefetchLoop, if_neg (by omega), if_neg (by omega)]
    exact ⟨heap, cache, 0, rfl, rfl, h⟩
  | succ fuel ih =>
    rw [HeapCache.prefetchLoop, Profiling.prefetchLoop]
    split
    · obtain ⟨heap₁, cache₁, ⟨code, written⟩, hread, hread', h₁⟩ :=
        h.cacheRead file (loads (fuel + 1)) true currentOffset cacheBlockSize
      rw [hread, hread']
      by_cases hcode : code = 0
      · simp only [hcode, if_true]
        have hinside : currentOffset < cache.fileSize := by
          by_contra hge
          rw [Profiling.cacheRead, if_pos (.inr (Nat.le_of_not_lt hge))] at hread'
          simp only [Option.some.injEq, Prod.mk.injEq] at hread'
          omega
        have hsmall := h.small
        rw [Nat.mod_eq_of_lt (by dsimp only [cacheBlockSize]; omega)]
        exact ih h₁ (by dsimp only [cacheBlockSize] at hfuel ⊢; omega)
      · simp only [if_neg hcode]
        exact ⟨heap₁, cache₁, -1, rfl, rfl, h₁⟩
    · exact ⟨heap, cache, 0, rfl, rfl, h⟩

theorem cachePrefetch (h : heap.Represents cache []) (file : List UInt8)
    (loads : Nat → Nat → BlockLoad) (offset size : Nat) :
    ∃ heap' cache' code,
      HeapCache.cachePrefetch file loads offset size heap = some (heap', code) ∧
      Profiling.cachePrefetch file loads offset size cache = some (cache', code) ∧
      heap'.Represents cache' [] := by
  rw [HeapCache.cachePrefetch, Profiling.cachePrefetch]
  refine h.prefetchLoop file loads ?_
  dsimp only [cacheBlockSize]
  omega

theorem first_eq (h : heap.Represents cache loose) :
    heap.first = some (cache.cacheTree.toList.head?.map CacheBlock.addr) := by
  rw [HeapCache.first, h.tree_eq, Option.map_some, MemoryCache.rbFirst_addr]

/-- **A flush** takes every block out of the tree and the list, and frees it. -/
theorem flushLoop {n : Nat} (h : heap.Represents cache [])
    (hn : cache.cacheTree.toList.length = n) :
    ∃ heap' cache',
      HeapCache.flushLoop n (cache.cacheTree.toList.head?.map CacheBlock.addr) heap =
        some heap' ∧
      Profiling.flushLoop n (cache.cacheTree.toList.head?.map CacheBlock.addr) cache =
        some cache' ∧ heap'.Represents cache' [] ∧ cache'.cacheTree.toList = [] := by
  induction n generalizing heap cache with
  | zero =>
    have hnil := List.length_eq_zero_iff.mp hn
    rw [hnil]
    exact ⟨heap, cache, rfl, rfl, h, hnil⟩
  | succ n ih =>
    obtain ⟨b, rest, hlist⟩ := List.exists_cons_of_length_eq_add_one hn
    have hfirst : cache.cacheTree.toList = [] ++ b :: rest := hlist
    obtain ⟨as, bs, hsplit⟩ := List.append_of_mem (h.mem_lruList (b := b) (by simp [hlist]))
    obtain ⟨node, tree, heap₁, heap₂, heap₃, hnode, hnext, herase, htree, hheap₁, hheap₂, hheap₃,
      h₃⟩ := h.removeBlock hsplit hfirst rfl
    have hlru := h.erase_lruList hsplit
    have hhead : tree.toList.head?.map CacheBlock.addr = rest.head?.map CacheBlock.addr := by
      rw [htree, List.nil_append]
    obtain ⟨heap', cache', hloop, hloop', h', hnil⟩ := ih h₃ (by
      rw [hlist, List.length_cons] at hn
      rw [htree, List.nil_append]
      omega)
    refine ⟨heap', cache', ?_, ?_, h', hnil⟩
    · rw [hlist, List.head?_cons, Option.map_some, HeapCache.flushLoop]
      simp only [hheap₁, hheap₂, hheap₃, Option.bind_eq_bind, Option.bind_some, ← hhead, hloop]
    · rw [hlist, List.head?_cons, Option.map_some, Profiling.flushLoop]
      simp only [hnode, herase, hlru, hnext, ← hhead, hloop']

theorem cacheFlush (h : heap.Represents cache []) :
    ∃ heap' cache', heap.cacheFlush = some heap' ∧ Profiling.cacheFlush cache = some cache' ∧
      heap'.Represents cache' [] ∧ cache'.cacheTree.toList = [] := by
  obtain ⟨heap', cache', hloop, hloop', h', hnil⟩ := h.flushLoop rfl
  refine ⟨{ heap' with currentBlocks := 0 }, { cache' with currentBlocks := 0 }, ?_, ?_,
    { h' with currentBlocks := rfl }, hnil⟩
  · simp only [HeapCache.cacheFlush, h.first_eq, h.cacheTree, Option.bind_eq_bind,
      Option.bind_some, hloop]
    rfl
  · simp only [Profiling.cacheFlush, MemoryCache.rbFirst_addr, hloop', Option.map_some]

end Represents

/-! ## Sequences of calls -/

theorem represents_cacheInit {fileSize : Nat} (hsize : fileSize < 2 ^ 63) :
    ∃ heap, HeapCache.cacheInit fileSize = some heap ∧
      heap.Represents (Profiling.cacheInit fileSize) [] := by
  have hhead : (ListHeap.empty.calloc LruNode.cache).live .cache = true := by
    simp [ListHeap.calloc]
  obtain ⟨lruList, hinit, hring, hlive⟩ := ListHeap.ring_initListHead hhead
  refine ⟨_, by rw [HeapCache.cacheInit, hinit, Option.map_some], {
    cacheTree := rfl
    currentBlocks := rfl
    maxBlocks := rfl
    fileSize := rfl
    accessCounter := rfl
    acquired := rfl
    ring := hring
    held := Ledger.holds_empty
    live := fun a ha => by cases ha
    listed := .nil
    redBlack := RbTree.redBlack_nil
    sorted := List.Pairwise.nil
    small := hsize }⟩

/-- A call goes through, and is the call on the cache without a heap. -/
theorem Represents.step (h : heap.Represents cache []) (file : List UInt8) (call : CacheCall) :
    ∃ heap' cache', (heapMachine file).step heap call = some heap' ∧
      (cacheMachine file).step cache call = some cache' ∧ heap'.Represents cache' [] := by
  cases call with
  | read buffer offset size loads =>
    obtain ⟨heap', cache', result, hread, hread', h'⟩ :=
      h.cacheRead file loads buffer offset size
    exact ⟨heap', cache', by simp only [heapMachine, hread, Option.map_some],
      by simp only [cacheMachine, hread', Option.map_some], h'⟩
  | prefetch offset size loads =>
    obtain ⟨heap', cache', code, hprefetch, hprefetch', h'⟩ :=
      h.cachePrefetch file loads offset size
    exact ⟨heap', cache', by simp only [heapMachine, hprefetch, Option.map_some],
      by simp only [cacheMachine, hprefetch', Option.map_some], h'⟩
  | flush =>
    obtain ⟨heap', cache', hflush, hflush', h', -⟩ := h.cacheFlush
    exact ⟨heap', cache', hflush, hflush', h'⟩

theorem Represents.run (h : heap.Represents cache []) (file : List UInt8) (calls : List CacheCall) :
    ∃ heap' cache', (heapMachine file).run heap calls = some heap' ∧
      (cacheMachine file).run cache calls = some cache' ∧ heap'.Represents cache' [] := by
  induction calls generalizing heap cache with
  | nil => exact ⟨heap, cache, rfl, rfl, h⟩
  | cons call calls ih =>
    obtain ⟨heap₁, cache₁, hstep, hstep', h₁⟩ := h.step file call
    obtain ⟨heap', cache', hrun, hrun', h'⟩ := ih h₁
    refine ⟨heap', cache', ?_, ?_, h'⟩
    · rw [Machine.run_cons, hstep, Option.bind_some, hrun]
    · rw [Machine.run_cons, hstep', Option.bind_some, hrun']

end

end HeapCache

end Profiling
