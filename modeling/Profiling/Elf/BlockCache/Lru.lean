import Profiling.Lru
import Profiling.Elf.BlockCache.Calls

/-!
# Profiling.Elf.BlockCache.Lru

The block cache of `src/utils/elf_cache.c` as a cache of the last used blocks.

As long as no access to the file fails, the blocks in the cache are the last 1024
different ones that were read since the cache was flushed, in the order of their last
use (`cache_is_lru`): the list is moved around by every read, but it is a function of
the bytes that were asked for.  So are the blocks that had to be loaded.
-/

namespace Profiling

/-! ## What is read -/

/-- Where the block of a byte starts. -/
def blockStart (i : Nat) : Nat := i / cacheBlockSize * cacheBlockSize

/-- The block at the offset can be loaded: `read` returns what is there. -/
structure BlockLoad.Succeeds (file : List UInt8) (offset : Nat) (load : BlockLoad) : Prop where
  calloc : load.calloc = true
  lseek : load.lseek = true
  bytesRead : load.bytesRead = some (min cacheBlockSize (file.length - offset))

/-- Where the reads of a prefetch end that should come as far as `last`: they are all of
the length of a block. -/
def prefetchStop (offset last : Nat) : Nat :=
  offset + (last - offset + cacheBlockSize - 1) / cacheBlockSize * cacheBlockSize

namespace CacheCall

/-- No access to the file fails; a pass that finds its block makes none. -/
def Succeeds (file : List UInt8) : CacheCall → Prop
  | read _ offset _ loads =>
      ∀ pass, (loads pass).Succeeds file (blockStart offset + cacheBlockSize * pass)
  | prefetch offset size loads =>
      ∀ step ≤ size / cacheBlockSize + 1, ∀ pass,
        (loads (size / cacheBlockSize + 1 - step) pass).Succeeds file
          (blockStart offset + cacheBlockSize * (step + pass))
  | flush => True

/-- The bytes of the file that a call reads. -/
def bytes (fileSize : Nat) : CacheCall → List Nat
  | read buffer offset size _ =>
      if buffer then List.range' offset (min (offset + size) fileSize - offset) else []
  | prefetch offset size _ =>
      List.range' offset (min (prefetchStop offset (offset + size)) fileSize - offset)
  | flush => []

/-- The bytes that were read, flush by flush, and those since the last one. -/
def history (fileSize : Nat) (past : List (List Nat) × List Nat) :
    CacheCall → List (List Nat) × List Nat
  | flush => (past.1 ++ [past.2], [])
  | call => (past.1, past.2 ++ call.bytes fileSize)

end CacheCall

/-- How many blocks have to be loaded for the bytes. -/
def blockMisses (bytes : List Nat) : Nat := Lru.misses 1024 [] (bytes.map blockStart)

/-- The blocks of a piece of the file are those of its first part and of the rest. -/
theorem range'_split {offset stop mid : Nat} (h₁ : offset ≤ mid) (h₂ : mid ≤ stop) :
    List.range' offset (stop - offset) =
      List.range' offset (mid - offset) ++ List.range' mid (stop - mid) := by
  have happend := List.range'_append_1 (s := offset) (m := mid - offset) (n := stop - mid)
  rw [show offset + (mid - offset) = mid by omega,
    show mid - offset + (stop - mid) = stop - offset by omega] at happend
  exact happend.symm

/-- The same up to the end of the file, which may be in any part. -/
theorem range'_min_split {offset stop mid n : Nat} (h₁ : offset ≤ mid) (h₂ : mid ≤ stop) :
    List.range' offset (min stop n - offset) =
      List.range' offset (min mid n - offset) ++ List.range' mid (min stop n - mid) := by
  by_cases hmid : mid ≤ n
  · rw [Nat.min_eq_left hmid]
    exact range'_split h₁ (by omega)
  · rw [Nat.min_eq_right (by omega : n ≤ stop), Nat.min_eq_right (by omega : n ≤ mid),
      Nat.sub_eq_zero_of_le (by omega : n ≤ mid), List.range'_zero, List.append_nil]

/-- The bytes of one block. -/
theorem map_blockStart {offset n : Nat} (hblock : offset % cacheBlockSize + n ≤ cacheBlockSize) :
    (List.range' offset n).map blockStart = List.replicate n (blockStart offset) := by
  refine List.eq_replicate_iff.mpr ⟨by simp, fun start hstart => ?_⟩
  obtain ⟨i, hi, rfl⟩ := List.mem_map.mp hstart
  obtain ⟨hle, hlt⟩ := List.mem_range'_1.mp hi
  simp only [blockStart, cacheBlockSize] at hblock ⊢
  omega

namespace MemoryCache

section

variable {file : List UInt8} {cache cache' : MemoryCache} {blocks : List CacheBlock}
  {b : CacheBlock} {load : BlockLoad} {before : List Nat} {offset : Nat}

/-! ## One block -/

theorem Indexes.nodup_offsets (h : cache.Indexes file blocks) :
    (blocks.map CacheBlock.offset).Nodup := by
  rw [(h.perm.map CacheBlock.offset).nodup_iff, List.Nodup, List.pairwise_map]
  exact h.sorted.imp fun hlt => hlt.ne

/-- The search finds a block just if it is in the list. -/
theorem findCacheBlock_isSome (h : cache.Indexes file blocks) (hfile : file.length < 2 ^ 63) :
    (findCacheBlock cache offset).isSome ↔ blockStart offset ∈ blocks.map CacheBlock.offset := by
  cases hfind : findCacheBlock cache offset with
  | some b =>
      obtain ⟨hmem, hoffset⟩ := findCacheBlock_eq_some h hfile hfind
      exact iff_of_true rfl (List.mem_map.mpr ⟨b, hmem, hoffset⟩)
  | none =>
      refine iff_of_false (by simp) fun hmem => ?_
      obtain ⟨b, hb, hoffset⟩ := List.mem_map.mp hmem
      exact findCacheBlock_eq_none h hfile hfind hb hoffset

theorem evictLruBlock_fresh (h : evictLruBlock cache = some cache') :
    cache'.fresh = cache.fresh := by
  rw [evictLruBlock] at h
  split at h
  · exact Option.some.inj h ▸ rfl
  · split at h
    · cases h
    · obtain ⟨tree, -, rfl⟩ := Option.map_eq_some_iff.mp h
      rfl

/-- Only the block that was not used for the longest time gives way. -/
theorem makeRoom_tail (h : cache.Holds file blocks) :
    ∃ cache', (if cache.maxBlocks ≤ cache.currentBlocks then evictLruBlock cache
        else some cache) = some cache' ∧
      cache'.fresh = cache.fresh ∧
      cache'.Holds file (if 1024 ≤ blocks.length then blocks.tail else blocks) := by
  have hcurrent := h.current
  rw [h.maxBlocks, maxCacheBlocks]
  by_cases hfull : 1024 ≤ blocks.length
  · rw [if_pos (by omega), if_pos hfull]
    cases blocks with
    | nil => simp at hfull
    | cons b rest =>
        obtain ⟨cache', hevict, h'⟩ := evictLruBlock_spec h
        exact ⟨cache', hevict, evictLruBlock_fresh hevict, h'⟩
  · rw [if_neg (by omega), if_neg hfull]
    exact ⟨cache, rfl, rfl, h⟩

/-- A load that nothing stops brings the block. -/
theorem createCacheBlock_isSome (hfileSize : cache.fileSize = file.length)
    (hfile : file.length < 2 ^ 63) (hinside : offset < file.length)
    (hload : load.Succeeds file offset) :
    (createCacheBlock file load cache offset).1.fresh = cache.fresh + 1 ∧
      ∃ b, (createCacheBlock file load cache offset).2 = some b := by
  have hsize : (if cache.fileSize < (offset + cacheBlockSize) % 2 ^ 64 then
      (cache.fileSize + 2 ^ 64 - offset) % 2 ^ 64 else cacheBlockSize) =
        min cacheBlockSize (file.length - offset) := by
    simp only [hfileSize, cacheBlockSize]
    split <;> omega
  have hread : readFromFile file load offset (min cacheBlockSize (file.length - offset)) =
      some ((file.drop offset).take (min cacheBlockSize (file.length - offset))) :=
    if_pos ⟨hload.lseek, hload.bytesRead⟩
  rw [createCacheBlock, if_pos hload.calloc]
  simp only [hsize, hread]
  exact ⟨trivial, _, rfl⟩

/-- A use of a block of the list. -/
theorem touchBlock_offsets (h : cache.Holds file blocks) (hb : b ∈ blocks) :
    ∃ blocks', (touchBlock cache b.addr).Holds file blocks' ∧
      blocks'.map CacheBlock.offset =
        (blocks.map CacheBlock.offset).erase b.offset ++ [b.offset] := by
  have hnodup := h.nodup_offsets
  obtain ⟨as, bs, rfl⟩ := List.append_of_mem hb
  have hlength : (as ++ bs ++ [{ b with lastAccess := cache.countAccess.accessCounter }]).length =
      (as ++ b :: bs).length := by
    simp only [List.length_append, List.length_cons, List.length_nil]
    omega
  refine ⟨_, { h.toIndexes.touchBlock with
    current := h.current.trans (congrArg Nat.cast hlength.symm)
    room := hlength.le.trans h.room
    maxBlocks := h.maxBlocks }, ?_⟩
  rw [List.map_append, List.map_cons] at hnodup
  have hnot : b.offset ∉ as.map CacheBlock.offset := fun hmem =>
    (List.nodup_append.mp hnodup).2.2 _ hmem _ List.mem_cons_self rfl
  simp only [List.map_append, List.map_cons, List.map_nil]
  rw [List.erase_append_right _ hnot, List.erase_cons_head]

/-- **One pass** of the loop of `cache_read` is one use of a block. -/
theorem fetchBlock_use (h : cache.Holds file blocks) (hfile : file.length < 2 ^ 63)
    (hinside : offset < file.length) (hload : load.Succeeds file (blockStart offset)) :
    ∃ cache₁ b blocks', fetchBlock file load cache offset = some (cache₁, some b) ∧
      (touchBlock cache₁ b.addr).Holds file blocks' ∧
      blocks'.map CacheBlock.offset =
        Lru.use 1024 (blocks.map CacheBlock.offset) (blockStart offset) ∧
      (touchBlock cache₁ b.addr).fresh =
        cache.fresh + if blockStart offset ∈ blocks.map CacheBlock.offset then 0 else 1 := by
  have hfound : (findCacheBlock cache offset).isSome ↔
      blockStart offset ∈ blocks.map CacheBlock.offset :=
    findCacheBlock_isSome h.toIndexes hfile
  cases hfind : findCacheBlock cache offset with
  | some b =>
      obtain ⟨hb, hoffset⟩ := findCacheBlock_eq_some h.toIndexes hfile hfind
      obtain ⟨blocks', h', hoffsets⟩ := touchBlock_offsets h hb
      have hmem : blockStart offset ∈ blocks.map CacheBlock.offset := hfound.mp (hfind ▸ rfl)
      refine ⟨cache, b, blocks', by simp only [fetchBlock, hfind], h', ?_, ?_⟩
      · rw [Lru.use, if_pos hmem, hoffsets, hoffset, blockStart]
      · rw [if_pos hmem]
        rfl
  | none =>
      have hmem : blockStart offset ∉ blocks.map CacheBlock.offset := fun hmem => by
        simpa [hfind] using hfound.mpr hmem
      have haligned : cacheBlockSize ∣ blockStart offset := Nat.dvd_mul_left _ _
      have hstart : blockStart offset < file.length := (Nat.div_mul_le_self _ _).trans_lt hinside
      obtain ⟨cache₁, hroom, hfresh₁, h₁⟩ := makeRoom_tail h
      generalize hstay : (if 1024 ≤ blocks.length then blocks.tail else blocks) = stay at h₁
      have hsub : stay.Sublist blocks := by
        rw [← hstay]
        split
        · exact List.tail_sublist blocks
        · exact List.Sublist.refl blocks
      have hlt : stay.length < 1024 := by
        have := h.room
        rw [← hstay]
        split <;> (try rw [List.length_tail]) <;> omega
      obtain ⟨hcreated, hblock⟩ := createCacheBlock_spec h₁ hfile haligned hstart load
      obtain ⟨hfresh₂, b, hb⟩ := createCacheBlock_isSome h₁.fileSize hfile hstart hload
      simp only [fetchBlock, hfind, hroom, ← blockStart.eq_def]
      obtain ⟨hfits, hoffset⟩ := hblock b hb
      have hnew : ∀ d ∈ stay, d.offset ≠ b.offset := fun d hd heq =>
        hmem (List.mem_map.mpr ⟨d, hsub.subset hd, heq.trans hoffset⟩)
      obtain ⟨cache₃, hinsert, h₃⟩ := hcreated.insert hfits hnew hlt
      simp only [hb, hinsert, Option.map_some]
      obtain ⟨blocks', h', hoffsets⟩ := touchBlock_offsets h₃ (b := b) (by simp)
      refine ⟨_, b, blocks', rfl, h', ?_, ?_⟩
      · have hnot : blockStart offset ∉ stay.map CacheBlock.offset := fun hin =>
          hmem ((hsub.map _).subset hin)
        rw [Lru.use, if_neg hmem, hoffsets, List.length_map, List.map_append, List.map_singleton,
          hoffset, List.erase_append_right _ hnot, List.erase_cons_head, List.append_nil, ← hstay]
        split <;> simp
      · rw [if_neg hmem]
        obtain ⟨tree, -, rfl⟩ := Option.map_eq_some_iff.mp hinsert
        exact hfresh₂.trans (congrArg Nat.succ hfresh₁)

/-! ## The calls -/

/-- The blocks of the keys have been used, after those of `before`. -/
structure Used (cache : MemoryCache) (file : List UInt8) (before keys : List Nat)
    (cache' : MemoryCache) (blocks : List CacheBlock) : Prop where
  holds : cache'.Holds file blocks
  offsets : blocks.map CacheBlock.offset = Lru.recent 1024 (before ++ keys)
  fresh_eq : cache'.fresh = cache.fresh + Lru.misses 1024 before keys

theorem Used.nil (h : cache.Holds file blocks)
    (hrecent : blocks.map CacheBlock.offset = Lru.recent 1024 before) :
    cache.Used file before [] cache blocks where
  holds := h
  offsets := by rw [hrecent, List.append_nil]
  fresh_eq := rfl

theorem Used.append {keys keys' : List Nat} {cache₁ : MemoryCache} {blocks' : List CacheBlock}
    (h : cache.Used file before keys cache₁ blocks)
    (h' : cache₁.Used file (before ++ keys) keys' cache' blocks') :
    cache.Used file before (keys ++ keys') cache' blocks' where
  holds := h'.holds
  offsets := by rw [h'.offsets, List.append_assoc]
  fresh_eq := by rw [h'.fresh_eq, h.fresh_eq, Lru.misses_append, Nat.add_assoc]

/-- The piece that a block has of what is asked for. -/
theorem exists_copySize (currentOffset : Nat) {remaining : Nat} (hzero : remaining ≠ 0) :
    ∃ copySize,
      (if remaining < cacheBlockSize - currentOffset % cacheBlockSize then remaining
        else cacheBlockSize - currentOffset % cacheBlockSize) = copySize ∧
      copySize ≠ 0 ∧ currentOffset % cacheBlockSize + copySize ≤ cacheBlockSize ∧
      copySize ≤ remaining ∧
      (copySize < remaining → blockStart (currentOffset + copySize) =
        blockStart currentOffset + cacheBlockSize) := by
  have hpos := Nat.mod_lt currentOffset (show 0 < 4096 by decide)
  refine ⟨_, rfl, ?_⟩
  dsimp only [cacheBlockSize, blockStart]
  split <;> omega

/-- The blocks of a range are that of its first piece and those of the rest. -/
theorem map_blockStart_range' {start copySize n : Nat} (hle : copySize ≤ n)
    (hblock : start % cacheBlockSize + copySize ≤ cacheBlockSize) :
    (List.range' start n).map blockStart = List.replicate copySize (blockStart start) ++
      (List.range' (start + copySize) (n - copySize)).map blockStart := by
  have hsplit := range'_split (Nat.le_add_right start copySize) (Nat.add_le_add_left hle start)
  rw [Nat.add_sub_cancel_left, Nat.add_sub_cancel_left, Nat.add_sub_add_left] at hsplit
  rw [hsplit, List.map_append, map_blockStart hblock]

/-- **A read** uses the blocks of its bytes, one after the other. -/
theorem readLoop_recent (hfile : file.length < 2 ^ 63) (loads : Nat → BlockLoad) (pass : Nat)
    (buf : List UInt8) (currentOffset remaining : Nat) (h : cache.Holds file blocks)
    (hinside : currentOffset + remaining ≤ file.length)
    (hloads : remaining ≠ 0 → ∀ i,
      (loads (pass + i)).Succeeds file (blockStart currentOffset + cacheBlockSize * i))
    (hrecent : blocks.map CacheBlock.offset = Lru.recent 1024 before) :
    ∃ cache' written blocks',
      readLoop file loads pass cache buf currentOffset remaining = some (cache', 0, written) ∧
      cache.Used file before ((List.range' currentOffset remaining).map blockStart) cache'
        blocks' := by
  induction remaining using Nat.strongRecOn
    generalizing cache blocks pass buf currentOffset before with
  | ind remaining ih =>
      rw [readLoop]
      by_cases hzero : remaining = 0
      · subst hzero
        rw [if_pos rfl]
        exact ⟨cache, buf, blocks, rfl, .nil h hrecent⟩
      · rw [if_neg hzero]
        obtain ⟨cache₁, b, blocks₁, hfetch, h₁, hrecent₁, hfresh₁⟩ :=
          fetchBlock_use h hfile (by omega : currentOffset < file.length)
            (by simpa using hloads hzero 0)
        obtain ⟨copySize, hcopy, hcopy₀, hblock, hle, hnext⟩ :=
          exists_copySize currentOffset hzero
        rw [hfetch]
        simp only [hcopy]
        rw [Nat.mod_eq_of_lt (by omega : currentOffset + copySize < 2 ^ 64),
          map_blockStart_range' hle hblock]
        -- every byte of the piece is in the block
        have hused : cache.Used file before (List.replicate copySize (blockStart currentOffset))
            (touchBlock cache₁ b.addr) blocks₁ :=
          { holds := h₁
            offsets := by
              rw [hrecent₁, hrecent, ← Lru.recent_append_singleton (by decide),
                Lru.recent_append_replicate hcopy₀]
            fresh_eq := by rw [hfresh₁, Lru.misses_replicate hcopy₀ (by decide), hrecent] }
        obtain ⟨cache', written, blocks', hloop, hrest⟩ :=
          ih (remaining - copySize) (by omega) (pass + 1)
            (buf ++ (b.data.drop (currentOffset % cacheBlockSize)).take copySize)
            (currentOffset + copySize) h₁ (by omega)
            (fun hrest i => by
              rw [hnext (by omega), Nat.add_assoc pass, Nat.add_comm 1,
                show blockStart currentOffset + cacheBlockSize + cacheBlockSize * i =
                  blockStart currentOffset + cacheBlockSize * (i + 1) by ring]
              exact hloads hzero (i + 1)) hused.offsets
        exact ⟨cache', written, blocks', hloop, hused.append hrest⟩

theorem cacheRead_recent (h : cache.Holds file blocks) (hfile : file.length < 2 ^ 63)
    {loads : Nat → BlockLoad} {size : Nat} (hrange : offset + size < 2 ^ 64)
    (hloads : ∀ pass, (loads pass).Succeeds file (blockStart offset + cacheBlockSize * pass))
    (hinside : offset < file.length)
    (hrecent : blocks.map CacheBlock.offset = Lru.recent 1024 before) :
    ∃ cache' written blocks',
      cacheRead file loads true offset size cache = some (cache', 0, written) ∧
      cache.Used file before
        ((List.range' offset (min (offset + size) file.length - offset)).map blockStart) cache'
        blocks' := by
  have hfileSize := h.fileSize
  have hsize : (if cache.fileSize < (offset + size) % 2 ^ 64 then cache.fileSize - offset
      else size) = min (offset + size) file.length - offset := by
    rw [hfileSize, Nat.mod_eq_of_lt hrange]
    split <;> omega
  rw [cacheRead, if_neg (by simp; omega)]
  simp only [hsize]
  exact readLoop_recent hfile loads 0 [] offset _ h (by omega)
    (fun _ i => by simpa using hloads i) hrecent

/-- Behind the end of the file nothing is read. -/
theorem cacheRead_outside (hfileSize : cache.fileSize = file.length) (loads : Nat → BlockLoad)
    (buffer : Bool) {size : Nat} (houtside : buffer = false ∨ file.length ≤ offset) :
    cacheRead file loads buffer offset size cache = some (cache, -1, []) := by
  rw [cacheRead, if_pos (by rwa [hfileSize])]

theorem prefetchStop_of_le {last : Nat} (hle : last ≤ offset) :
    prefetchStop offset last = offset := by
  simp only [prefetchStop, cacheBlockSize]
  omega

theorem prefetchStop_of_lt {last : Nat} (hlt : offset < last) :
    prefetchStop offset last = prefetchStop (offset + cacheBlockSize) last ∧
      offset + cacheBlockSize ≤ prefetchStop (offset + cacheBlockSize) last := by
  simp only [prefetchStop, cacheBlockSize]
  omega

/-- **A prefetch** reads on until its end, or the end of the file. -/
theorem prefetchLoop_recent (hfile : file.length < 2 ^ 63) {loads : Nat → Nat → BlockLoad}
    {last fuel : Nat} (h : cache.Holds file blocks)
    (hfuel : last ≤ offset + cacheBlockSize * fuel)
    (hloads : ∀ step ≤ fuel, ∀ pass, (loads (fuel - step) pass).Succeeds file
      (blockStart offset + cacheBlockSize * (step + pass)))
    (hrecent : blocks.map CacheBlock.offset = Lru.recent 1024 before) :
    ∃ cache' code blocks',
      prefetchLoop file loads last (fuel + 1) offset cache = some (cache', code) ∧
      cache.Used file before
        ((List.range' offset (min (prefetchStop offset last) file.length - offset)).map blockStart)
        cache' blocks' := by
  induction fuel generalizing cache blocks offset before with
  | zero =>
      rw [prefetchLoop, if_neg (by omega), prefetchStop_of_le (by omega),
        Nat.sub_eq_zero_of_le (Nat.min_le_left _ _)]
      exact ⟨cache, 0, blocks, rfl, .nil h hrecent⟩
  | succ fuel ih =>
      rw [prefetchLoop]
      by_cases hlt : offset < last
      · obtain ⟨hstop, hle⟩ := prefetchStop_of_lt hlt
        rw [if_pos hlt, hstop]
        by_cases hinside : offset < file.length
        · have hrange : offset + cacheBlockSize < 2 ^ 64 := by
            dsimp only [cacheBlockSize]
            omega
          obtain ⟨cache₁, written, blocks₁, hread, hused⟩ :=
            cacheRead_recent h hfile hrange (by simpa using hloads 0 (Nat.zero_le _)) hinside hrecent
          have hfuel' : last ≤ offset + cacheBlockSize + cacheBlockSize * fuel := by
            dsimp only [cacheBlockSize] at hfuel ⊢
            omega
          have hstart : blockStart (offset + cacheBlockSize) =
              blockStart offset + cacheBlockSize := by
            simp only [blockStart, cacheBlockSize]
            omega
          obtain ⟨cache', code, blocks', hloop, hrest⟩ := ih hused.holds hfuel'
            (fun step hstep pass => by
              rw [hstart, show blockStart offset + cacheBlockSize + cacheBlockSize * (step + pass) =
                blockStart offset + cacheBlockSize * (step + 1 + pass) by ring]
              simpa using hloads (step + 1) (by omega) pass) hused.offsets
          rw [hread, range'_min_split (n := file.length) (Nat.le_add_right offset _) hle,
            List.map_append]
          simp only [if_true, Nat.mod_eq_of_lt hrange]
          exact ⟨cache', code, blocks', hloop, hused.append hrest⟩
        · rw [cacheRead_outside h.fileSize _ _ (.inr (by omega)),
            Nat.sub_eq_zero_of_le ((Nat.min_le_right _ _).trans (by omega))]
          exact ⟨cache, -1, blocks, rfl, .nil h hrecent⟩
      · rw [if_neg hlt, prefetchStop_of_le (by omega), Nat.sub_eq_zero_of_le (Nat.min_le_left _ _)]
        exact ⟨cache, 0, blocks, rfl, .nil h hrecent⟩

/-- A flush loads nothing. -/
theorem flushLoop_fresh {fuel : Nat} {addr : Option Nat}
    (h : flushLoop fuel addr cache = some cache') : cache'.fresh = cache.fresh := by
  induction fuel generalizing addr cache with
  | zero =>
      cases addr with
      | none => exact Option.some.inj h ▸ rfl
      | some addr => cases h
  | succ fuel ih =>
      cases addr with
      | none => exact Option.some.inj h ▸ rfl
      | some addr =>
          rw [flushLoop] at h
          split at h
          · cases h
          · dsimp only at h
            split at h
            · cases h
            · exact (ih h).trans rfl

theorem cacheFlush_fresh (h : cacheFlush cache = some cache') : cache'.fresh = cache.fresh := by
  obtain ⟨cache₁, hloop, rfl⟩ := Option.map_eq_some_iff.mp h
  have hfresh := flushLoop_fresh hloop
  exact hfresh

/-! ## Sequences of calls -/

/-- The cache is a function of the bytes that were read: its list, and how many blocks
it has loaded. -/
structure Recent (file : List UInt8) (cache : MemoryCache) (blocks : List CacheBlock)
    (past : List (List Nat) × List Nat) : Prop extends cache.Holds file blocks where
  offsets : blocks.map CacheBlock.offset = Lru.recent 1024 (past.2.map blockStart)
  fresh_eq : cache.fresh = ((past.1 ++ [past.2]).map blockMisses).sum

/-- More bytes are read since the last flush. -/
theorem Recent.append {past : List (List Nat) × List Nat} {bytes : List Nat}
    (h : cache.Recent file blocks past) {blocks' : List CacheBlock}
    (h' : cache.Used file (past.2.map blockStart) (bytes.map blockStart) cache' blocks') :
    cache'.Recent file blocks' (past.1, past.2 ++ bytes) where
  toHolds := h'.holds
  offsets := by rw [h'.offsets, List.map_append]
  fresh_eq := by
    have hmisses : blockMisses (past.2 ++ bytes) = blockMisses past.2 +
        Lru.misses 1024 (past.2.map blockStart) (bytes.map blockStart) := by
      rw [blockMisses, List.map_append, Lru.misses_append, List.nil_append, blockMisses]
    rw [h'.fresh_eq, h.fresh_eq]
    simp only [List.map_append, List.sum_append, List.map_singleton, List.sum_singleton, hmisses]
    omega

theorem Recent.step {past : List (List Nat) × List Nat} (h : cache.Recent file blocks past)
    (hfile : file.length < 2 ^ 63) {call : CacheCall} (hrange : call.InRange)
    (hok : call.Succeeds file) :
    ∃ cache' blocks', (cacheMachine file).step cache call = some cache' ∧
      cache'.Recent file blocks' (CacheCall.history file.length past call) := by
  cases call with
  | read buffer offset size loads =>
      simp only [cacheMachine, CacheCall.history, CacheCall.bytes]
      by_cases hin : buffer = true ∧ offset < file.length
      · obtain ⟨rfl, hinside⟩ := hin
        obtain ⟨cache', written, blocks', hread, hused⟩ :=
          cacheRead_recent h.toHolds hfile hrange hok hinside h.offsets
        exact ⟨cache', blocks', by rw [hread, Option.map_some], h.append hused⟩
      · have hnone : (if buffer = true then
            List.range' offset (min (offset + size) file.length - offset) else []) = [] := by
          split
          · next hbuffer =>
            rw [Nat.sub_eq_zero_of_le ((Nat.min_le_right _ _).trans (by
              by_contra hlt
              exact hin ⟨hbuffer, by omega⟩)), List.range'_zero]
          · rfl
        rw [hnone, List.append_nil, cacheRead_outside h.fileSize _ _ (by
          cases buffer with
          | false => exact .inl rfl
          | true => exact .inr (by by_contra hlt; exact hin ⟨rfl, by omega⟩))]
        exact ⟨cache, blocks, rfl, h⟩
  | prefetch offset size loads =>
      have hfuel : offset + size ≤ offset + cacheBlockSize * (size / cacheBlockSize + 1) := by
        simp only [cacheBlockSize]
        omega
      obtain ⟨cache', code, blocks', hloop, hused⟩ :=
        prefetchLoop_recent hfile h.toHolds hfuel hok h.offsets
      refine ⟨cache', blocks', ?_, h.append hused⟩
      simp only [cacheMachine, cachePrefetch, Nat.mod_eq_of_lt hrange, hloop, Option.map_some]
  | flush =>
      obtain ⟨cache', hflush, h'⟩ := cacheFlush_spec h.toHolds
      refine ⟨cache', [], hflush, { h' with offsets := (Lru.recent_nil 1024).symm, fresh_eq := ?_ }⟩
      rw [cacheFlush_fresh hflush, h.fresh_eq]
      simp [CacheCall.history, blockMisses, Lru.misses]

theorem Recent.run {past : List (List Nat) × List Nat} (h : cache.Recent file blocks past)
    (hfile : file.length < 2 ^ 63) {calls : List CacheCall}
    (hcalls : ∀ call ∈ calls, call.InRange ∧ call.Succeeds file) :
    ∃ cache' blocks', (cacheMachine file).run cache calls = some cache' ∧
      cache'.Recent file blocks' (calls.foldl (CacheCall.history file.length) past) := by
  induction calls generalizing cache blocks past with
  | nil => exact ⟨cache, blocks, rfl, h⟩
  | cons call calls ih =>
      obtain ⟨⟨hrange, hok⟩, hrest⟩ := List.forall_mem_cons.mp hcalls
      obtain ⟨cache₁, blocks₁, hstep, h₁⟩ := h.step hfile hrange hok
      obtain ⟨cache', blocks', hrun, h'⟩ := ih h₁ hrest
      exact ⟨cache', blocks', by rw [Machine.run_cons, hstep, Option.bind_some, hrun], h'⟩

end

end MemoryCache

/-- The bytes that the calls read, flush by flush, and those since the last flush. -/
def cacheHistory (fileSize : Nat) (calls : List CacheCall) : List (List Nat) × List Nat :=
  calls.foldl (CacheCall.history fileSize) ([], [])

/-- **The cache holds the blocks that were used last.**  After any calls on a file that
can be read, the blocks of the list are the last 1024 different ones of which a byte was
read since the last flush, in the order of their last use.  So the search finds a block
just if it was read since then, and fewer than 1024 others after it; and as many blocks
have been loaded as were not found. -/
theorem cache_is_lru {file : List UInt8} (hfile : file.length < 2 ^ 63) {calls : List CacheCall}
    (hcalls : ∀ call ∈ calls, call.InRange ∧ call.Succeeds file) :
    ∃ (cache : MemoryCache) (blocks : List CacheBlock),
      (cacheMachine file).run (cacheInit file.length) calls = some cache ∧
      blocks.Perm cache.cacheTree.toList ∧ cache.lruList = blocks.map CacheBlock.addr ∧
      blocks.map CacheBlock.offset =
        ((cacheHistory file.length calls).2.map blockStart).dedup.rtake 1024 ∧
      (∀ offset, (findCacheBlock cache offset).isSome ↔
        ∃ before after, (cacheHistory file.length calls).2.map blockStart =
            before ++ blockStart offset :: after ∧
          blockStart offset ∉ after ∧ after.dedup.length < 1024) ∧
      cache.fresh = (((cacheHistory file.length calls).1 ++ [(cacheHistory file.length calls).2]).map
        blockMisses).sum := by
  have hinit : (cacheInit file.length).Recent file [] ([], []) :=
    { holds_init file with
      offsets := (Lru.recent_nil 1024).symm
      fresh_eq := rfl }
  obtain ⟨cache, blocks, hrun, h⟩ := hinit.run hfile hcalls
  refine ⟨cache, blocks, hrun, h.perm, h.listed, h.offsets, fun offset => ?_, h.fresh_eq⟩
  rw [MemoryCache.findCacheBlock_isSome h.toIndexes hfile, h.offsets, Lru.mem_recent]
  rfl

/-- The answers while a file of three bytes is read. -/
def threeLoads (pass : Nat) : BlockLoad := ⟨true, true, some (min 4096 (3 - 4096 * pass))⟩

/-- Two reads of the file load one block. -/
theorem cache_is_lru_three :
    ∃ cache, (cacheMachine [1, 2, 3]).run (cacheInit 3)
        [.read true 1 5 threeLoads, .read true 0 1 threeLoads] = some cache ∧
      (findCacheBlock cache 2).isSome ∧ cache.fresh = 1 := by
  have hload : ∀ pass, (threeLoads pass).Succeeds [1, 2, 3]
      (blockStart 0 + cacheBlockSize * pass) :=
    fun pass => ⟨rfl, rfl, by simp [threeLoads, blockStart]⟩
  have hcalls : ∀ call ∈ [CacheCall.read true 1 5 threeLoads, .read true 0 1 threeLoads],
      call.InRange ∧ call.Succeeds [1, 2, 3] := by
    simp only [List.mem_cons, List.not_mem_nil, or_false, forall_eq_or_imp, forall_eq]
    exact ⟨⟨by decide, hload⟩, by decide, hload⟩
  obtain ⟨cache, blocks, hrun, -, -, -, hfind, hfresh⟩ := cache_is_lru (by decide) hcalls
  exact ⟨cache, hrun, (hfind 2).mpr ⟨[0, 0], [], by decide, by decide, by decide⟩,
    hfresh.trans (by decide)⟩

end Profiling
