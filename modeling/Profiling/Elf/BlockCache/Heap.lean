import Profiling.Elf.BlockCache.Calls
import Profiling.Ledger
import Profiling.ListHead

/-!
# Profiling.Elf.BlockCache.Heap

The block cache of `src/utils/elf_cache.c` with its allocations: the list of the
blocks is linked in the heap, and a block that was freed may not be touched.

A block is linked from the tree and from the list.  An operation on the tree may
follow any link of it, so all its blocks have to be allocated; an operation on the
list follows the links that it names.  `none` is a link followed into a freed block,
or a block freed twice.

The tree, the counters and what is read are those of `MemoryCache`, which has the
list as a list.
-/

namespace Profiling

/-- The nodes of the list: `cache->lru_list`, and one in each block. -/
inductive LruNode where
  | cache
  | block (addr : Nat)
  deriving DecidableEq, Repr

/-- `struct memory_cache`, with the heap that it is in. -/
structure HeapCache where
  cacheTree : RbTree CacheBlock
  lruList : ListHeap LruNode
  currentBlocks : Int
  maxBlocks : Int
  fileSize : Nat
  accessCounter : Nat
  /-- the blocks that `create_cache_block` has allocated -/
  blocks : Ledger

namespace HeapCache

/-! ## The operations -/

/-- The tree, if every link of it leads to an allocated block. -/
def tree (cache : HeapCache) : Option (RbTree CacheBlock) :=
  if ∀ b ∈ cache.cacheTree.toList, cache.lruList.live (.block b.addr) = true then
    some cache.cacheTree
  else none

/-- `free` of a block. -/
def free (cache : HeapCache) (addr : Nat) : Option HeapCache :=
  (cache.lruList.free (.block addr)).map fun lruList =>
    { cache with
      lruList
      blocks := cache.blocks.release addr }

/-- `cache_init`, if its `calloc` succeeds. -/
def cacheInit (fileSize : Nat) : Option HeapCache :=
  ((ListHeap.empty.calloc LruNode.cache).initListHead .cache).map fun lruList =>
    { cacheTree := .nil
      lruList
      currentBlocks := 0
      maxBlocks := maxCacheBlocks
      fileSize := fileSize
      accessCounter := 0
      blocks := .empty }

/-- `create_cache_block` -/
def createCacheBlock (file : List UInt8) (load : BlockLoad) (cache : HeapCache) (offset : Nat) :
    Option (HeapCache × Option CacheBlock) :=
  if load.calloc then do
    let (addr, blocks) := cache.blocks.acquire
    let lruList ← (cache.lruList.calloc (.block addr)).initListHead (.block addr)
    let cache :=
      { cache with
        lruList
        accessCounter := (cache.accessCounter + 1) % 2 ^ 64
        blocks }
    let readSize :=
      if cache.fileSize < (offset + cacheBlockSize) % 2 ^ 64 then
        (cache.fileSize + 2 ^ 64 - offset) % 2 ^ 64
      else cacheBlockSize
    match readFromFile file load offset readSize with
    | none => return (← cache.free addr, none)
    | some bytes =>
        return (cache, some
          { addr
            offset
            data := bytes ++ List.replicate (cacheBlockSize - readSize) 0
            lastAccess := cache.accessCounter })
  else some (cache, none)

/-- `rb_erase` of a block, with the block behind it in the tree. -/
def eraseBlock (cache : HeapCache) (addr : Nat) : Option (HeapCache × Option Nat) := do
  let node ← RbTree.locate (CacheBlock.isAt addr) (← cache.tree) []
  let cacheTree ← RbTree.rbErase node
  return ({ cache with cacheTree }, (RbTree.rbNext node).map fun p => p.val.addr)

/-- `list_del` of a block. -/
def unlinkBlock (cache : HeapCache) (addr : Nat) : Option HeapCache :=
  (cache.lruList.listDel (.block addr)).map fun lruList => { cache with lruList }

/-- `list_add_tail` of a block. -/
def linkBlock (cache : HeapCache) (addr : Nat) : Option HeapCache :=
  (cache.lruList.listAddTail (.block addr) .cache).map fun lruList => { cache with lruList }

/-- `evict_lru_block` -/
def evictLruBlock (cache : HeapCache) : Option HeapCache := do
  if ← cache.lruList.listEmpty .cache then return cache
  match ← (← cache.lruList.getNext .cache) with
  | .cache => none
  | .block addr =>
      let (cache, _) ← cache.eraseBlock addr
      let cache ← cache.unlinkBlock addr
      let cache ← cache.free addr
      return { cache with currentBlocks := cache.currentBlocks - 1 }

/-- A full cache evicts a block. -/
def makeRoom (cache : HeapCache) : Option HeapCache :=
  if cache.maxBlocks ≤ cache.currentBlocks then cache.evictLruBlock else some cache

/-- The block of an offset in the loop of `cache_read`. -/
def fetchBlock (file : List UInt8) (load : BlockLoad) (cache : HeapCache) (currentOffset : Nat) :
    Option (HeapCache × Option CacheBlock) := do
  match RbTree.walk (blockCut currentOffset) (← cache.tree) with
  | some block => return (cache, some block)
  | none =>
      let cache ← cache.makeRoom
      let (cache, created) ← createCacheBlock file load cache
        (currentOffset / cacheBlockSize * cacheBlockSize)
      match created with
      | none => return (cache, none)
      | some block =>
          let cacheTree ← RbTree.rbInsert CacheBlock.offset block (← cache.tree)
          let cache ← { cache with cacheTree }.linkBlock block.addr
          return ({ cache with currentBlocks := cache.currentBlocks + 1 }, some block)

/-- A use of a block. -/
def touchBlock (cache : HeapCache) (addr : Nat) : Option HeapCache := do
  let accessCounter := (cache.accessCounter + 1) % 2 ^ 64
  let cacheTree := (← cache.tree).update (CacheBlock.isAt addr) fun block =>
    { block with lastAccess := accessCounter }
  let cache ← { cache with cacheTree, accessCounter }.unlinkBlock addr
  cache.linkBlock addr

/-- The loop of `cache_read`. -/
def readLoop (file : List UInt8) (loads : Nat → BlockLoad) (pass : Nat) (cache : HeapCache)
    (buf : List UInt8) (currentOffset remaining : Nat) : Option (HeapCache × Int × List UInt8) :=
  if remaining = 0 then some (cache, 0, buf)
  else
    match fetchBlock file (loads pass) cache currentOffset with
    | none => none
    | some (cache, none) => some (cache, -1, buf)
    | some (cache, some block) =>
        match cache.touchBlock block.addr with
        | none => none
        | some cache =>
            let blockPos := currentOffset % cacheBlockSize
            let copySize :=
              if remaining < cacheBlockSize - blockPos then remaining
              else cacheBlockSize - blockPos
            readLoop file loads (pass + 1) cache
              (buf ++ (block.data.drop blockPos).take copySize)
              ((currentOffset + copySize) % 2 ^ 64) (remaining - copySize)
termination_by remaining
decreasing_by
  have := Nat.mod_lt currentOffset (show 0 < 4096 by decide)
  dsimp only [cacheBlockSize]
  split <;> omega

/-- `cache_read` -/
def cacheRead (file : List UInt8) (loads : Nat → BlockLoad) (buffer : Bool) (offset size : Nat)
    (cache : HeapCache) : Option (HeapCache × Int × List UInt8) :=
  if buffer = false ∨ cache.fileSize ≤ offset then some (cache, -1, [])
  else
    let size := if cache.fileSize < (offset + size) % 2 ^ 64 then cache.fileSize - offset else size
    readLoop file loads 0 cache [] offset size

/-- The loop of `cache_prefetch`, which ends at `last`. -/
def prefetchLoop (file : List UInt8) (loads : Nat → Nat → BlockLoad) (last : Nat) :
    Nat → Nat → HeapCache → Option (HeapCache × Int)
  | 0, _, _ => none
  | fuel + 1, currentOffset, cache =>
      if currentOffset < last then
        match cacheRead file (loads fuel) true currentOffset cacheBlockSize cache with
        | none => none
        | some (cache, code, _) =>
            if code = 0 then
              prefetchLoop file loads last fuel ((currentOffset + cacheBlockSize) % 2 ^ 64) cache
            else some (cache, -1)
      else some (cache, 0)

/-- `cache_prefetch` -/
def cachePrefetch (file : List UInt8) (loads : Nat → Nat → BlockLoad) (offset size : Nat)
    (cache : HeapCache) : Option (HeapCache × Int) :=
  prefetchLoop file loads ((offset + size) % 2 ^ 64) (size / cacheBlockSize + 2) offset cache

/-- The loop of `cache_flush`, at the block with the given address. -/
def flushLoop : Nat → Option Nat → HeapCache → Option HeapCache
  | _, none, cache => some cache
  | 0, some _, _ => none
  | fuel + 1, some addr, cache => do
      let (cache, next) ← cache.eraseBlock addr
      let cache ← cache.unlinkBlock addr
      let cache ← cache.free addr
      flushLoop fuel next cache

/-- `rb_first` -/
def first (cache : HeapCache) : Option (Option Nat) :=
  cache.tree.map fun tree => (RbTree.rbFirst tree).map fun p => p.val.addr

/-- `cache_flush` -/
def cacheFlush (cache : HeapCache) : Option HeapCache := do
  let cache ← flushLoop cache.cacheTree.toList.length (← cache.first) cache
  return { cache with currentBlocks := 0 }

/-- The loop over the tree in `cache_cleanup`, which leaves the list alone. -/
def cleanupTree : Nat → Option Nat → HeapCache → Option HeapCache
  | _, none, cache => some cache
  | 0, some _, _ => none
  | fuel + 1, some addr, cache => do
      let (cache, next) ← cache.eraseBlock addr
      let cache ← cache.free addr
      cleanupTree fuel next cache

/-- The loop over the list in `cache_cleanup`, with `list_for_each_safe`: the link of
a node is read before it is compared with the head. -/
def cleanupList : Nat → Option LruNode → HeapCache → Option HeapCache
  | 0, _, _ => none
  | fuel + 1, pos, cache => do
      let pos ← pos
      let tmp ← cache.lruList.getNext pos
      match pos with
      | .cache => return cache
      | .block addr =>
          let cache ← cache.unlinkBlock addr
          let cache ← cache.free addr
          cleanupList fuel tmp cache

/-- `cache_cleanup`; a pass of the second loop frees a block, and there are not more
than were allocated. -/
def cacheCleanup (cache : HeapCache) : Option HeapCache := do
  let cache ← cleanupTree cache.cacheTree.toList.length (← cache.first) cache
  let cache ← cleanupList (cache.blocks.acquired + 1) (← cache.lruList.getNext .cache) cache
  let lruList ← cache.lruList.free .cache
  return { cache with lruList }

end HeapCache

/-- The calls on a cache of the file, one after the other. -/
def heapMachine (file : List UInt8) : Machine HeapCache CacheCall where
  init cache := HeapCache.cacheInit file.length = some cache
  step cache
    | .read buffer offset size loads =>
        (HeapCache.cacheRead file loads buffer offset size cache).map fun result => result.1
    | .prefetch offset size loads =>
        (HeapCache.cachePrefetch file loads offset size cache).map fun result => result.1
    | .flush => HeapCache.cacheFlush cache

end Profiling
