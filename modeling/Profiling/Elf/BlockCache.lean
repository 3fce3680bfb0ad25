import Profiling.RbTree.Erase

/-!
# Profiling.Elf.BlockCache

The block cache of `src/utils/elf_cache.c`: a file is read through at most
1024 blocks of 4096 bytes, which a red-black tree indexes by their offset and
a list keeps in the order of their last use.

The file and the answers of the system are parameters: every allocation, seek
and read may fail.  A block is a heap object with an identity, its address,
which is what the list's links and the tree's node pointers hold.

`MemoryCache.Holds` says how the tree, the list and the counter agree.
-/

namespace Profiling

/-- `CACHE_BLOCK_SIZE` -/
abbrev cacheBlockSize : Nat := 4096

/-- `MAX_CACHE_BLOCKS` -/
def maxCacheBlocks : Int := 1024

/-- `struct cache_block`, and its address. -/
structure CacheBlock where
  addr : Nat
  offset : Nat
  data : List UInt8
  lastAccess : Nat
  deriving DecidableEq

/-- `struct memory_cache` -/
structure MemoryCache where
  cacheTree : RbTree CacheBlock
  lruList : List Nat
  currentBlocks : Int
  maxBlocks : Int
  fileSize : Nat
  accessCounter : Nat
  /-- the address that the next `calloc` returns -/
  fresh : Nat
  /-- how often `access_counter` has been raised -/
  accesses : Nat
  /-- the blocks that were evicted, each with the blocks that stayed -/
  evicted : List (CacheBlock × List CacheBlock)

/-- What the system answers while one block is loaded. -/
structure BlockLoad where
  calloc : Bool
  lseek : Bool
  /-- what `read` returns, if it does not fail -/
  bytesRead : Option Nat

/-! ## The operations -/

/-- `cache_init` -/
def cacheInit (fileSize : Nat) : MemoryCache where
  cacheTree := .nil
  lruList := []
  currentBlocks := 0
  maxBlocks := maxCacheBlocks
  fileSize := fileSize
  accessCounter := 0
  fresh := 0
  accesses := 0
  evicted := []

/-- `++cache->access_counter` -/
def MemoryCache.countAccess (cache : MemoryCache) : MemoryCache :=
  { cache with
    accessCounter := (cache.accessCounter + 1) % 2 ^ 64
    accesses := cache.accesses + 1 }

/-- The pointer to a block. -/
def CacheBlock.isAt (addr : Nat) (block : CacheBlock) : Bool := block.addr == addr

/-- The comparisons of `find_cache_block`. -/
def blockCut (offset : Nat) (block : CacheBlock) : Ordering :=
  if offset < block.offset then .lt
  else if (block.offset + cacheBlockSize) % 2 ^ 64 ≤ offset then .gt
  else .eq

/-- `find_cache_block` -/
def findCacheBlock (cache : MemoryCache) (offset : Nat) : Option CacheBlock :=
  RbTree.walk (blockCut offset) cache.cacheTree

/-- `read_from_file`: what is in the buffer after success. -/
def readFromFile (file : List UInt8) (load : BlockLoad) (offset size : Nat) :
    Option (List UInt8) :=
  if load.lseek ∧ load.bytesRead = some size then some ((file.drop offset).take size) else none

/-- `create_cache_block`; what is left of the file is a `size_t`. -/
def createCacheBlock (file : List UInt8) (load : BlockLoad) (cache : MemoryCache) (offset : Nat) :
    MemoryCache × Option CacheBlock :=
  if load.calloc then
    let counted := { cache.countAccess with fresh := cache.fresh + 1 }
    let readSize :=
      if cache.fileSize < (offset + cacheBlockSize) % 2 ^ 64 then
        (cache.fileSize + 2 ^ 64 - offset) % 2 ^ 64
      else cacheBlockSize
    match readFromFile file load offset readSize with
    | none => (counted, none)
    | some bytes =>
        (counted, some
          { addr := cache.fresh
            offset := offset
            data := bytes ++ List.replicate (cacheBlockSize - readSize) 0
            lastAccess := counted.accessCounter })
  else (cache, none)

/-- `insert_cache_block` -/
def insertCacheBlock (cache : MemoryCache) (block : CacheBlock) : Option MemoryCache :=
  (RbTree.rbInsert CacheBlock.offset block cache.cacheTree).map fun tree =>
    { cache with cacheTree := tree }

/-- `evict_lru_block` -/
def evictLruBlock (cache : MemoryCache) : Option MemoryCache :=
  match cache.lruList with
  | [] => some cache
  | addr :: rest =>
      match RbTree.locate (CacheBlock.isAt addr) cache.cacheTree [] with
      | none => none
      | some lruBlock =>
          (RbTree.rbErase lruBlock).map fun tree =>
            { cache with
              cacheTree := tree
              lruList := rest
              currentBlocks := cache.currentBlocks - 1
              evicted := cache.evicted ++ [(lruBlock.val, tree.toList)] }

/-- The block of an offset in the loop of `cache_read`: it is found, or loaded
unless that fails. -/
def fetchBlock (file : List UInt8) (load : BlockLoad) (cache : MemoryCache) (currentOffset : Nat) :
    Option (MemoryCache × Option CacheBlock) :=
  match findCacheBlock cache currentOffset with
  | some block => some (cache, some block)
  | none =>
      match if cache.maxBlocks ≤ cache.currentBlocks then evictLruBlock cache else some cache with
      | none => none
      | some cache =>
          let created := createCacheBlock file load cache
            (currentOffset / cacheBlockSize * cacheBlockSize)
          match created.2 with
          | none => some (created.1, none)
          | some block =>
              (insertCacheBlock created.1 block).map fun cache =>
                ({ cache with
                    lruList := cache.lruList ++ [block.addr]
                    currentBlocks := cache.currentBlocks + 1 }, some block)

/-- The block is the last used one now, in its record and in the list. -/
def touchBlock (cache : MemoryCache) (addr : Nat) : MemoryCache :=
  let cache := cache.countAccess
  { cache with
    cacheTree := cache.cacheTree.update (CacheBlock.isAt addr) fun block =>
      { block with lastAccess := cache.accessCounter }
    lruList := cache.lruList.erase addr ++ [addr] }

/-- The loop of `cache_read`; `loads` answers each of its passes.  Returns the
code and what has been written to the buffer. -/
def readLoop (file : List UInt8) (loads : Nat → BlockLoad) (pass : Nat) (cache : MemoryCache)
    (buf : List UInt8) (currentOffset remaining : Nat) : Option (MemoryCache × Int × List UInt8) :=
  if remaining = 0 then some (cache, 0, buf)
  else
    match fetchBlock file (loads pass) cache currentOffset with
    | none => none
    | some (cache, none) => some (cache, -1, buf)
    | some (cache, some block) =>
        let blockPos := currentOffset % cacheBlockSize
        let copySize :=
          if remaining < cacheBlockSize - blockPos then remaining else cacheBlockSize - blockPos
        readLoop file loads (pass + 1) (touchBlock cache block.addr)
          (buf ++ (block.data.drop blockPos).take copySize)
          ((currentOffset + copySize) % 2 ^ 64) (remaining - copySize)
termination_by remaining
decreasing_by
  have := Nat.mod_lt currentOffset (show 0 < 4096 by decide)
  dsimp only [cacheBlockSize]
  split <;> omega

/-- `cache_read`, of a cache that is not `NULL`. -/
def cacheRead (file : List UInt8) (loads : Nat → BlockLoad) (buffer : Bool) (offset size : Nat)
    (cache : MemoryCache) : Option (MemoryCache × Int × List UInt8) :=
  if buffer = false ∨ cache.fileSize ≤ offset then some (cache, -1, [])
  else
    let size := if cache.fileSize < (offset + size) % 2 ^ 64 then cache.fileSize - offset else size
    readLoop file loads 0 cache [] offset size

/-- The loop of `cache_prefetch`, which ends at `last`. -/
def prefetchLoop (file : List UInt8) (loads : Nat → Nat → BlockLoad) (last : Nat) :
    Nat → Nat → MemoryCache → Option (MemoryCache × Int)
  | 0, _, _ => none
  | fuel + 1, currentOffset, cache =>
      if currentOffset < last then
        match cacheRead file (loads fuel) true currentOffset cacheBlockSize cache with
        | none => none
        | some (cache, code, _) =>
            if code = 0 then
              prefetchLoop file loads last fuel ((currentOffset + cacheBlockSize) % 2 ^ 64) cache
            else some (cache, -1)
      else some (cache, 0)

/-- `cache_prefetch`; there are at most `size / 4096 + 1` passes of the loop,
and the check that ends it. -/
def cachePrefetch (file : List UInt8) (loads : Nat → Nat → BlockLoad) (offset size : Nat)
    (cache : MemoryCache) : Option (MemoryCache × Int) :=
  prefetchLoop file loads ((offset + size) % 2 ^ 64) (size / cacheBlockSize + 2) offset cache

/-- The loop of `cache_flush`, at the block with the given address. -/
def flushLoop : Nat → Option Nat → MemoryCache → Option MemoryCache
  | _, none, cache => some cache
  | 0, some _, _ => none
  | fuel + 1, some addr, cache =>
      match RbTree.locate (CacheBlock.isAt addr) cache.cacheTree [] with
      | none => none
      | some node =>
          let next := (RbTree.rbNext node).map fun p => p.val.addr
          match RbTree.rbErase node with
          | none => none
          | some tree =>
              flushLoop fuel next
                { cache with cacheTree := tree, lruList := cache.lruList.erase addr }

/-- `cache_flush` -/
def cacheFlush (cache : MemoryCache) : Option MemoryCache :=
  let first := (RbTree.rbFirst cache.cacheTree).map fun p => p.val.addr
  (flushLoop cache.cacheTree.toList.length first cache).map fun cache =>
    { cache with currentBlocks := 0 }

/-! ## What holds of a cache -/

/-- What a block at an offset holds of the file; behind its end, zeros. -/
def blockData (file : List UInt8) (offset : Nat) : List UInt8 :=
  let part := (file.drop offset).take cacheBlockSize
  part ++ List.replicate (cacheBlockSize - part.length) 0

/-- The block is one of the file. -/
structure CacheBlock.Loaded (file : List UInt8) (block : CacheBlock) : Prop where
  aligned : cacheBlockSize ∣ block.offset
  inside : block.offset < file.length
  data : block.data = blockData file block.offset

/-- The blocks are in the order of their last use, which the clock has counted. -/
structure Recency (blocks : List CacheBlock) (clock : Nat) : Prop where
  sorted : blocks.Pairwise fun a b => a.lastAccess < b.lastAccess
  counted : ∀ b ∈ blocks, b.lastAccess ≤ clock

/-- The tree and the list hold the same blocks, those of `blocks`, which are in
the order of the list. -/
structure MemoryCache.Indexes (file : List UInt8) (cache : MemoryCache) (blocks : List CacheBlock) :
    Prop where
  redBlack : cache.cacheTree.RedBlack
  sorted : cache.cacheTree.toList.Pairwise fun a b => a.offset < b.offset
  perm : blocks.Perm cache.cacheTree.toList
  listed : cache.lruList = blocks.map CacheBlock.addr
  nodup : (blocks.map CacheBlock.addr).Nodup
  fresh : ∀ b ∈ blocks, b.addr < cache.fresh
  loaded : ∀ b ∈ blocks, b.Loaded file
  counter : cache.accessCounter = cache.accesses % 2 ^ 64
  recent : cache.accesses < 2 ^ 64 → Recency blocks cache.accesses
  evicted : cache.accesses < 2 ^ 64 → ∀ e ∈ cache.evicted, ∀ b ∈ e.2, e.1.lastAccess < b.lastAccess
  fileSize : cache.fileSize = file.length

/-- The invariant of the cache: the counter is the number of blocks, too. -/
structure MemoryCache.Holds (file : List UInt8) (cache : MemoryCache) (blocks : List CacheBlock) :
    Prop extends cache.Indexes file blocks where
  current : cache.currentBlocks = blocks.length
  room : blocks.length ≤ 1024
  maxBlocks : cache.maxBlocks = maxCacheBlocks

/-- A block that has been loaded for a cache, and is not in it yet. -/
structure MemoryCache.Fits (file : List UInt8) (cache : MemoryCache) (blocks : List CacheBlock)
    (b : CacheBlock) : Prop where
  loaded : b.Loaded file
  addr : b.addr < cache.fresh
  fresh : ∀ d ∈ blocks, d.addr < b.addr
  recent : cache.accesses < 2 ^ 64 → b.lastAccess ≤ cache.accesses ∧
    ∀ d ∈ blocks, d.lastAccess < b.lastAccess

theorem holds_init (file : List UInt8) : (cacheInit file.length).Holds file [] where
  redBlack := RbTree.redBlack_nil
  sorted := .nil
  perm := .nil
  listed := rfl
  nodup := .nil
  fresh := nofun
  loaded := nofun
  counter := rfl
  recent := fun _ => ⟨.nil, nofun⟩
  evicted := fun _ => nofun
  fileSize := rfl
  current := rfl
  room := by simp
  maxBlocks := rfl

end Profiling
