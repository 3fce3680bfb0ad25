import Profiling.Machine
import Profiling.Elf.BlockCache.Index

/-!
# Profiling.Elf.BlockCache.Calls

Sequences of `cache_read`, `cache_prefetch` and `cache_flush` on one cache.

Every call comes to an end with the cache in order, whatever fails meanwhile,
and a read that succeeds is a read of the file (`cache_reads_file`).
-/

namespace Profiling

/-! ## Blocks of the file -/

section Blocks

variable {file : List UInt8} {offset pos n : Nat}

/-- Inside the file, a piece of a block is that piece of the file. -/
theorem blockData_slice (hblock : pos + n ≤ cacheBlockSize) (hfile : offset + pos + n ≤ file.length) :
    ((blockData file offset).drop pos).take n = (file.drop (offset + pos)).take n := by
  have hlen : pos + n ≤ ((file.drop offset).take cacheBlockSize).length := by
    simp only [List.length_take, List.length_drop]
    omega
  rw [blockData, List.drop_append_of_le_length (by omega),
    List.take_append_of_le_length (by rw [List.length_drop]; omega), List.drop_take,
    List.take_take, List.drop_drop, Nat.min_eq_left (by omega)]

/-- Two pieces that follow each other. -/
theorem take_drop_append (i j : Nat) :
    (file.drop offset).take i ++ (file.drop (offset + i)).take j =
      (file.drop offset).take (i + j) := by
  rw [List.take_add, List.drop_drop]

end Blocks

/-! ## The calls -/

namespace MemoryCache

section Calls

variable {file : List UInt8} {cache : MemoryCache} {blocks : List CacheBlock}

/-- **A read through the cache.**  It comes to an end with the cache in order,
and a read that succeeds has copied what the file holds there. -/
theorem readLoop_spec (hfile : file.length < 2 ^ 63) (loads : Nat → BlockLoad) (pass : Nat)
    (buf : List UInt8) (currentOffset remaining : Nat) (h : cache.Holds file blocks)
    (hinside : currentOffset + remaining ≤ file.length) :
    ∃ cache' code written blocks',
      readLoop file loads pass cache buf currentOffset remaining = some (cache', code, written) ∧
      cache'.Holds file blocks' ∧
      (code = 0 → written = buf ++ (file.drop currentOffset).take remaining) := by
  induction remaining using Nat.strongRecOn generalizing cache blocks pass buf currentOffset with
  | ind remaining ih =>
      rw [readLoop]
      by_cases hzero : remaining = 0
      · rw [if_pos hzero]
        exact ⟨cache, 0, buf, blocks, rfl, h, fun _ => by simp [hzero]⟩
      · rw [if_neg hzero]
        obtain ⟨cache₁, found, blocks₁, hfetch, h₁, hfound⟩ := fetchBlock_spec h hfile (loads pass)
          currentOffset (by omega)
        rw [hfetch]
        cases found with
        | none => exact ⟨cache₁, -1, buf, blocks₁, rfl, h₁, nofun⟩
        | some b =>
            obtain ⟨hb, hoffset⟩ := hfound b rfl
            obtain ⟨blocks₂, h₂⟩ := h₁.touchBlock hb
            have hpos := Nat.mod_lt currentOffset (show 0 < 4096 by decide)
            have hsplit : currentOffset / cacheBlockSize * cacheBlockSize +
                currentOffset % cacheBlockSize = currentOffset := Nat.div_add_mod' _ _
            -- the piece that this block has of what is asked for
            obtain ⟨copySize, hcopy, hcopy₀, hblock, hle⟩ : ∃ copySize,
                (if remaining < cacheBlockSize - currentOffset % cacheBlockSize then remaining
                  else cacheBlockSize - currentOffset % cacheBlockSize) = copySize ∧
                0 < copySize ∧ currentOffset % cacheBlockSize + copySize ≤ cacheBlockSize ∧
                copySize ≤ remaining := by
              refine ⟨_, rfl, ?_⟩
              dsimp only [cacheBlockSize]
              split <;> omega
            have hpiece : (b.data.drop (currentOffset % cacheBlockSize)).take copySize =
                (file.drop currentOffset).take copySize := by
              rw [(h₁.loaded b hb).data, hoffset, blockData_slice hblock (by omega), hsplit]
            simp only [hcopy, hpiece]
            rw [Nat.mod_eq_of_lt (by omega : currentOffset + copySize < 2 ^ 64)]
            obtain ⟨cache', code, written, blocks', hloop, h', hwritten⟩ :=
              ih (remaining - copySize) (by omega) (pass + 1)
                (buf ++ (file.drop currentOffset).take copySize) (currentOffset + copySize) h₂
                (by omega)
            refine ⟨cache', code, written, blocks', hloop, h', fun hcode => ?_⟩
            rw [hwritten hcode, List.append_assoc, take_drop_append,
              Nat.add_sub_cancel' hle]

/-- `cache_read` writes what is in the file from the offset on, up to the end
of the file. -/
theorem cacheRead_spec (h : cache.Holds file blocks) (hfile : file.length < 2 ^ 63)
    (loads : Nat → BlockLoad) (buffer : Bool) {offset size : Nat} (hrange : offset + size < 2 ^ 64) :
    ∃ cache' code written blocks',
      cacheRead file loads buffer offset size cache = some (cache', code, written) ∧
      cache'.Holds file blocks' ∧
      (code = 0 → offset < file.length ∧
        written = (file.drop offset).take (min (offset + size) file.length - offset)) := by
  rw [cacheRead]
  split
  · exact ⟨cache, -1, [], blocks, rfl, h, nofun⟩
  · next hvalid =>
    have hinside : offset < file.length := by
      have hfileSize := h.fileSize
      by_contra hge
      exact hvalid (.inr (by omega))
    have hsize : (if cache.fileSize < (offset + size) % 2 ^ 64 then cache.fileSize - offset
        else size) = min (offset + size) file.length - offset := by
      rw [h.fileSize, Nat.mod_eq_of_lt hrange]
      split <;> omega
    simp only [hsize]
    obtain ⟨cache', code, written, blocks', hloop, h', hwritten⟩ := readLoop_spec hfile loads 0 []
      offset (min (offset + size) file.length - offset) h (by omega)
    exact ⟨cache', code, written, blocks', hloop, h', fun hcode => ⟨hinside, hwritten hcode⟩⟩

/-- The fuel is enough: each pass moves on by one block, and outside the file
the first read fails. -/
theorem prefetchLoop_spec (hfile : file.length < 2 ^ 63) {loads : Nat → Nat → BlockLoad}
    {last fuel currentOffset : Nat} (h : cache.Holds file blocks)
    (hfuel : last ≤ currentOffset + cacheBlockSize * fuel) :
    ∃ cache' code blocks',
      prefetchLoop file loads last (fuel + 1) currentOffset cache = some (cache', code) ∧
      cache'.Holds file blocks' := by
  induction fuel generalizing cache blocks currentOffset with
  | zero =>
      rw [prefetchLoop, if_neg (by omega)]
      exact ⟨cache, 0, blocks, rfl, h⟩
  | succ fuel ih =>
      rw [prefetchLoop]
      split
      · next hlt =>
        by_cases hinside : currentOffset + cacheBlockSize < 2 ^ 64
        · obtain ⟨cache₁, code, written, blocks₁, hread, h₁, -⟩ := cacheRead_spec h hfile
            (loads (fuel + 1)) true hinside
          rw [hread]
          by_cases hcode : code = 0
          · simp only [hcode, if_true, Nat.mod_eq_of_lt hinside]
            exact ih h₁ (by dsimp only [cacheBlockSize] at hfuel ⊢; omega)
          · simp only [if_neg hcode]
            exact ⟨cache₁, -1, blocks₁, rfl, h₁⟩
        · -- far behind the end of the file
          have hread : cacheRead file (loads (fuel + 1)) true currentOffset cacheBlockSize cache =
              some (cache, -1, []) := by
            rw [cacheRead, if_pos]
            rw [h.fileSize]
            dsimp only [cacheBlockSize] at hinside
            omega
          rw [hread]
          exact ⟨cache, -1, blocks, rfl, h⟩
      · exact ⟨cache, 0, blocks, rfl, h⟩

theorem cachePrefetch_spec (h : cache.Holds file blocks) (hfile : file.length < 2 ^ 63)
    (loads : Nat → Nat → BlockLoad) {offset size : Nat} (hrange : offset + size < 2 ^ 64) :
    ∃ cache' code blocks', cachePrefetch file loads offset size cache = some (cache', code) ∧
      cache'.Holds file blocks' := by
  rw [cachePrefetch, Nat.mod_eq_of_lt hrange]
  exact prefetchLoop_spec hfile h (by dsimp only [cacheBlockSize]; omega)

/-- **A flush** walks through the tree in the order of the offsets, and each
removal leaves the next block in its place. -/
theorem flushLoop_spec (h : cache.Indexes file blocks) :
    ∃ cache', flushLoop blocks.length (cache.cacheTree.toList.head?.map CacheBlock.addr) cache =
        some cache' ∧
      cache'.Indexes file [] ∧ cache'.maxBlocks = cache.maxBlocks := by
  obtain ⟨n, hn⟩ : ∃ n, blocks.length = n := ⟨_, rfl⟩
  rw [hn]
  induction n generalizing cache blocks with
  | zero =>
      obtain rfl := List.length_eq_zero_iff.mp hn
      have hnil : cache.cacheTree.toList = [] := h.perm.nil_eq.symm
      rw [hnil]
      exact ⟨cache, rfl, h, rfl⟩
  | succ n ih =>
      cases hlist : cache.cacheTree.toList with
      | nil =>
          have hlength := h.perm.length_eq
          simp [hlist, hn] at hlength
      | cons b rest =>
          obtain ⟨as, bs, rfl⟩ := List.append_of_mem (h.perm.mem_iff.mpr (by simp [hlist]) : b ∈ blocks)
          have hfirst : cache.cacheTree.toList = [] ++ b :: rest := hlist
          obtain ⟨p, tree, hp, -, hnext, herase, hrb, htree⟩ := h.locate hfirst
          have hnext' : (RbTree.rbNext p).map (fun p => p.val.addr) =
              tree.toList.head?.map CacheBlock.addr := by
            rw [htree, List.nil_append, rbNext_addr hnext]
          have hlength : (as ++ bs).length = n := by
            simp only [List.length_append, List.length_cons] at hn ⊢
            omega
          obtain ⟨cache', hloop, h', hmax⟩ := ih (h.erase hfirst hrb htree) hlength
          refine ⟨cache', ?_, h', hmax⟩
          rw [List.head?_cons, Option.map_some, flushLoop, hp]
          simp only [herase, hnext']
          exact hloop

theorem cacheFlush_spec (h : cache.Holds file blocks) :
    ∃ cache', cacheFlush cache = some cache' ∧ cache'.Holds file [] := by
  obtain ⟨cache', hloop, h', hmax⟩ := flushLoop_spec h.toIndexes
  simp only [cacheFlush, rbFirst_addr, ← h.perm.length_eq, hloop, Option.map_some]
  exact ⟨_, rfl, { h' with
    current := rfl
    room := by simp
    maxBlocks := hmax.trans h.maxBlocks }⟩

end Calls

end MemoryCache

/-! ## Sequences of calls -/

/-- A call on the cache, with the answers of the system meanwhile. -/
inductive CacheCall where
  | read (buffer : Bool) (offset size : Nat) (loads : Nat → BlockLoad)
  | prefetch (offset size : Nat) (loads : Nat → Nat → BlockLoad)
  | flush

/-- The end of what is asked for is a `uint64_t`. -/
def CacheCall.InRange : CacheCall → Prop
  | read _ offset size _ => offset + size < 2 ^ 64
  | prefetch offset size _ => offset + size < 2 ^ 64
  | flush => True

instance : DecidablePred CacheCall.InRange
  | .read _ offset size _ => inferInstanceAs (Decidable (offset + size < 2 ^ 64))
  | .prefetch offset size _ => inferInstanceAs (Decidable (offset + size < 2 ^ 64))
  | .flush => inferInstanceAs (Decidable True)

/-- The calls on a cache of the file, one after the other. -/
def cacheMachine (file : List UInt8) : Machine MemoryCache CacheCall where
  init cache := cache = cacheInit file.length
  step cache
    | .read buffer offset size loads =>
        (cacheRead file loads buffer offset size cache).map fun result => result.1
    | .prefetch offset size loads =>
        (cachePrefetch file loads offset size cache).map fun result => result.1
    | .flush => cacheFlush cache

/-- The machine whose calls are in range. -/
abbrev cacheCalls (file : List UInt8) : Machine MemoryCache CacheCall :=
  (cacheMachine file).guard fun _ call => call.InRange

/-- What the callers may rely on: the blocks of the tree are parts of the file,
the list has the same blocks in the order of their last use, and the counter is
their number.  Each evicted block had been used before all that stayed. -/
structure MemoryCache.Sound (file : List UInt8) (cache : MemoryCache) : Prop where
  distinct : cache.cacheTree.toList.Pairwise fun a b => a.offset ≠ b.offset
  aligned : ∀ b ∈ cache.cacheTree.toList, cacheBlockSize ∣ b.offset
  contents : ∀ b ∈ cache.cacheTree.toList, b.data = blockData file b.offset
  listed : ∃ blocks : List CacheBlock, blocks.Perm cache.cacheTree.toList ∧
    cache.lruList = blocks.map CacheBlock.addr ∧ (blocks.map CacheBlock.addr).Nodup ∧
    (cache.accesses < 2 ^ 64 → blocks.Pairwise fun a b => a.lastAccess < b.lastAccess)
  current : cache.currentBlocks = cache.cacheTree.toList.length
  room : cache.currentBlocks ≤ cache.maxBlocks
  evicted : cache.accesses < 2 ^ 64 → ∀ e ∈ cache.evicted, ∀ b ∈ e.2, e.1.lastAccess < b.lastAccess

section Sequences

variable {file : List UInt8} {cache : MemoryCache} {blocks : List CacheBlock}

theorem MemoryCache.Holds.sound (h : cache.Holds file blocks) : cache.Sound file where
  distinct := h.sorted.imp fun hlt => hlt.ne
  aligned := fun b hb => (h.loaded b (h.perm.mem_iff.mpr hb)).aligned
  contents := fun b hb => (h.loaded b (h.perm.mem_iff.mpr hb)).data
  listed := ⟨blocks, h.perm, h.listed, h.nodup, fun hlt => (h.recent hlt).sorted⟩
  current := h.current.trans (congrArg Nat.cast h.perm.length_eq)
  room := by
    have hroom := h.room
    rw [h.current, h.maxBlocks, maxCacheBlocks]
    omega
  evicted := h.evicted

/-- A call in range goes through, and keeps the invariant. -/
theorem MemoryCache.Holds.step (h : cache.Holds file blocks) (hfile : file.length < 2 ^ 63)
    {call : CacheCall} (hrange : call.InRange) :
    ∃ cache' blocks', (cacheMachine file).step cache call = some cache' ∧
      cache'.Holds file blocks' := by
  cases call with
  | read buffer offset size loads =>
      obtain ⟨cache', code, written, blocks', hread, h', -⟩ :=
        MemoryCache.cacheRead_spec h hfile loads buffer hrange
      exact ⟨cache', blocks', by simp only [cacheMachine, hread, Option.map_some], h'⟩
  | prefetch offset size loads =>
      obtain ⟨cache', code, blocks', hprefetch, h'⟩ :=
        MemoryCache.cachePrefetch_spec h hfile loads hrange
      exact ⟨cache', blocks', by simp only [cacheMachine, hprefetch, Option.map_some], h'⟩
  | flush =>
      obtain ⟨cache', hflush, h'⟩ := MemoryCache.cacheFlush_spec h
      exact ⟨cache', [], hflush, h'⟩

theorem holds_of_reachable (hfile : file.length < 2 ^ 63) (h : (cacheCalls file).Reachable cache) :
    ∃ blocks, cache.Holds file blocks := by
  refine (cacheCalls file).invariant (P := fun cache => ∃ blocks, cache.Holds file blocks)
    (fun s hs => ?_) (fun s call t hi hstep => ?_) h
  · obtain rfl : s = cacheInit file.length := hs
    exact ⟨[], holds_init file⟩
  · obtain ⟨hrange, hstep⟩ := (Machine.guard_step_eq_some _).mp hstep
    obtain ⟨blocks, hi⟩ := hi
    obtain ⟨t', blocks', hstep', h'⟩ := hi.step hfile hrange
    obtain rfl : t = t' := Option.some.inj (hstep.symm.trans hstep')
    exact ⟨blocks', h'⟩

/-- **The cache is the file.**  After any calls the tree, the list and the
counter agree, every further call goes through, and a read that returns 0 has
written what the file holds from the offset to the end asked for or the end of
the file. -/
theorem cache_reads_file (hfile : file.length < 2 ^ 63) (h : (cacheCalls file).Reachable cache) :
    cache.Sound file ∧
      (∀ call : CacheCall, call.InRange → ((cacheMachine file).step cache call).isSome) ∧
      ∀ loads buffer offset size cache' written, offset + size < 2 ^ 64 →
        cacheRead file loads buffer offset size cache = some (cache', 0, written) →
        offset < file.length ∧
          written = (file.drop offset).take (min (offset + size) file.length - offset) := by
  obtain ⟨blocks, hi⟩ := holds_of_reachable hfile h
  refine ⟨hi.sound, fun call hrange => ?_, fun loads buffer offset size cache' written hrange hread => ?_⟩
  · obtain ⟨cache', blocks', hstep, -⟩ := hi.step hfile hrange
    rw [hstep]
    rfl
  · obtain ⟨_, _, _, _, hread', -, hwritten⟩ :=
      MemoryCache.cacheRead_spec hi hfile loads buffer hrange
    obtain ⟨rfl, rfl, rfl⟩ := by simpa using hread.symm.trans hread'
    exact hwritten rfl

/-- Nothing fails while the block of a file of three bytes is loaded. -/
def goodLoad : BlockLoad := ⟨true, true, some 3⟩

theorem cacheRead_three :
    ∃ cache, cacheRead [1, 2, 3] (fun _ => goodLoad) true 1 5 (cacheInit 3) =
      some (cache, 0, [2, 3]) := by
  have hfetch : ∃ cache b, fetchBlock [1, 2, 3] goodLoad (cacheInit 3) 1 = some (cache, some b) ∧
      (b.data.drop 1).take 2 = [2, 3] := ⟨_, _, rfl, rfl⟩
  obtain ⟨cache, b, hfetch, hdata⟩ := hfetch
  refine ⟨touchBlock cache b.addr, ?_⟩
  rw [cacheRead, if_neg (by decide)]
  change readLoop _ _ 0 (cacheInit 3) [] 1 2 = _
  rw [readLoop, if_neg (by decide), hfetch]
  change readLoop _ _ 1 (touchBlock cache b.addr) ([] ++ (b.data.drop 1).take 2) 3 0 = _
  rw [readLoop, if_pos rfl, List.nil_append, hdata]

/-- A read over the end of the file. -/
theorem cache_reads_file_three :
    ∃ cache, cacheRead [1, 2, 3] (fun _ => goodLoad) true 1 5 (cacheInit 3) =
        some (cache, 0, [2, 3]) ∧
      (cacheCalls [1, 2, 3]).run (cacheInit 3) [.read true 1 5 fun _ => goodLoad] = some cache ∧
      cache.Sound [1, 2, 3] ∧ [2, 3] = ([1, 2, 3] : List UInt8).drop 1 := by
  obtain ⟨cache, hread⟩ := cacheRead_three
  have hinit : (cacheCalls [1, 2, 3]).Reachable (cacheInit 3) := ⟨_, [], rfl, rfl⟩
  have hstep : (cacheCalls [1, 2, 3]).step (cacheInit 3) (.read true 1 5 fun _ => goodLoad) =
      some cache := by
    refine (Machine.guard_step_eq_some _).mpr ⟨by decide, ?_⟩
    simp only [cacheMachine, hread, Option.map_some]
  obtain ⟨-, -, hwritten⟩ := cache_reads_file (by decide) hinit
  refine ⟨cache, hread, ?_, ?_, (hwritten _ _ _ _ _ _ (by decide) hread).2⟩
  · rw [Machine.run_cons, hstep, Option.bind_some, Machine.run_nil]
  · exact (cache_reads_file (by decide) (Machine.reachable_step _ hinit hstep)).1

end Sequences

end Profiling
