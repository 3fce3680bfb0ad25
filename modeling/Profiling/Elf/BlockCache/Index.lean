import Profiling.Elf.BlockCache

/-!
# Profiling.Elf.BlockCache.Index

What each step of `cache_read` does to the tree and the list: a hit, an
eviction, a load that may fail, the insertion and the use of a block.

* `findCacheBlock_eq_none` — the search misses no block;
* `evictLruBlock_spec` — the block that goes is the one used the longest ago;
* `fetchBlock_spec` — the block of an offset is in the cache afterwards.
-/

namespace Profiling

section Recency

variable {blocks blocks' : List CacheBlock} {b : CacheBlock} {clock clock' : Nat}

theorem Recency.mono (h : Recency blocks clock) (hle : clock ≤ clock') : Recency blocks clock' :=
  ⟨h.sorted, fun b hb => (h.counted b hb).trans hle⟩

theorem Recency.sublist (h : Recency blocks clock) (hsub : blocks'.Sublist blocks) :
    Recency blocks' clock :=
  ⟨h.sorted.sublist hsub, fun b hb => h.counted b (hsub.subset hb)⟩

/-- A block that is used later than all others stands behind them. -/
theorem Recency.concat (h : Recency blocks clock) (hlast : ∀ d ∈ blocks, d.lastAccess < b.lastAccess)
    (hb : b.lastAccess ≤ clock') : Recency (blocks ++ [b]) clock' := by
  refine ⟨List.pairwise_append.mpr ⟨h.sorted, List.pairwise_singleton _ _, fun d hd => ?_⟩, ?_⟩
  · exact List.forall_mem_singleton.mpr (hlast d hd)
  · exact List.forall_mem_append.mpr
      ⟨fun d hd => (hlast d hd).le.trans hb, List.forall_mem_singleton.mpr hb⟩

end Recency

namespace MemoryCache

section Indexes

variable {file : List UInt8} {cache cache' : MemoryCache} {as bs ls rs blocks : List CacheBlock}
  {b : CacheBlock}

theorem isAt_self : b.isAt b.addr = true := by simp [CacheBlock.isAt]

/-- No other block of the list has the address of `b`. -/
theorem isAt_eq_false (hnodup : ((as ++ b :: bs).map CacheBlock.addr).Nodup) {d : CacheBlock}
    (hd : d ∈ as ++ bs) : d.isAt b.addr = false := by
  have hperm : (b :: (as ++ bs)).Perm (as ++ b :: bs) := List.perm_middle.symm
  have hnodup' := ((hperm.map CacheBlock.addr).nodup_iff).mpr hnodup
  rw [List.map_cons, List.nodup_cons] at hnodup'
  have hne : d.addr ≠ b.addr := fun heq => hnodup'.1 (heq ▸ List.mem_map_of_mem hd)
  simpa [CacheBlock.isAt] using hne

theorem addr_notMem (hnodup : ((as ++ b :: bs).map CacheBlock.addr).Nodup) :
    b.addr ∉ as.map CacheBlock.addr := by
  intro hmem
  obtain ⟨d, hd, heq⟩ := List.mem_map.mp hmem
  have hfalse := isAt_eq_false hnodup (d := d) (by simp [hd])
  simp [CacheBlock.isAt, heq] at hfalse

/-! ## Searching -/

/-- A block of the file covers the offsets between its own and the next
multiple of the block size. -/
theorem blockCut_eq_iff (hfile : file.length < 2 ^ 63) (hb : b.Loaded file) {offset : Nat} :
    blockCut offset b = .eq ↔ b.offset = offset / cacheBlockSize * cacheBlockSize := by
  obtain ⟨k, hk⟩ := hb.aligned
  have hin := hb.inside
  simp only [blockCut, cacheBlockSize] at hk ⊢
  split <;> [skip; split] <;> simp <;> omega

/-- Of two blocks, the second starts behind the end of the first. -/
theorem add_le_offset {a : CacheBlock} (ha : a.Loaded file) (hb : b.Loaded file)
    (hlt : a.offset < b.offset) : a.offset + cacheBlockSize ≤ b.offset := by
  obtain ⟨i, hi⟩ := ha.aligned
  obtain ⟨j, hj⟩ := hb.aligned
  simp only [cacheBlockSize] at hi hj ⊢
  omega

theorem findCacheBlock_eq_some (h : cache.Indexes file blocks) (hfile : file.length < 2 ^ 63)
    {offset : Nat} (hfind : findCacheBlock cache offset = some b) :
    b ∈ blocks ∧ b.offset = offset / cacheBlockSize * cacheBlockSize := by
  obtain ⟨hmem, hcut⟩ := RbTree.walk_eq_some hfind
  have hb := h.perm.mem_iff.mpr hmem
  exact ⟨hb, (blockCut_eq_iff hfile (h.loaded b hb)).mp hcut⟩

/-- The search misses no block: those before it end before the offset, and
those behind it start behind. -/
theorem findCacheBlock_eq_none (h : cache.Indexes file blocks) (hfile : file.length < 2 ^ 63)
    {offset : Nat} (hfind : findCacheBlock cache offset = none) (hb : b ∈ blocks) :
    b.offset ≠ offset / cacheBlockSize * cacheBlockSize := by
  intro heq
  have hcut := (blockCut_eq_iff hfile (h.loaded b hb)).mpr heq
  obtain ⟨as, bs, hlist⟩ := List.append_of_mem (h.perm.mem_iff.mp hb)
  obtain ⟨-, hbs, has⟩ := List.pairwise_append.mp (hlist ▸ h.sorted)
  have hsome : findCacheBlock cache offset = some b := by
    refine RbTree.walk_of_split hlist (fun a ha => ?_) hcut (fun d hd => ?_)
    · have ha' := h.loaded a (h.perm.mem_iff.mpr (by simp [hlist, ha]))
      have hle := add_le_offset ha' (h.loaded b hb) (has a ha b (by simp))
      have hin := (h.loaded b hb).inside
      simp only [blockCut, cacheBlockSize] at hle heq ⊢
      rw [if_neg (by omega), if_pos (by omega)]
    · have hd' := h.loaded d (h.perm.mem_iff.mpr (by simp [hlist, hd]))
      have hle := add_le_offset (h.loaded b hb) hd' ((List.pairwise_cons.mp hbs).1 d hd)
      simp only [blockCut, cacheBlockSize] at hle heq ⊢
      rw [if_pos (by omega)]
  simp [hsome] at hfind

/-! ## One step each -/

/-- Raising the access counter changes nothing else. -/
theorem Indexes.countAccess (h : cache.Indexes file blocks) :
    cache.countAccess.Indexes file blocks :=
  { h with
    counter := by
      simp only [MemoryCache.countAccess, h.counter]
      omega
    recent := fun hlt => (h.recent (Nat.lt_of_succ_lt hlt)).mono (Nat.le_succ _)
    evicted := fun hlt => h.evicted (Nat.lt_of_succ_lt hlt) }

/-- A block is in the tree and in the list, and so are the others. -/
theorem Indexes.perm_erase (h : cache.Indexes file (as ++ b :: bs))
    (hlist : cache.cacheTree.toList = ls ++ b :: rs) : (as ++ bs).Perm (ls ++ rs) := by
  have hperm := h.perm
  rw [hlist] at hperm
  exact (List.perm_cons b).mp (List.perm_middle.symm.trans (hperm.trans List.perm_middle))

/-- The address of a block leads to its node, which can be removed. -/
theorem locate_of_nodup {t : RbTree CacheBlock} (hrb : t.RedBlack) (hlist : t.toList = ls ++ b :: rs)
    (hnodup : (t.toList.map CacheBlock.addr).Nodup) :
    ∃ p tree, RbTree.locate (CacheBlock.isAt b.addr) t [] = some p ∧
      p.val = b ∧ (RbTree.rbNext p).map Place.val = rs.head? ∧
      RbTree.rbErase p = some tree ∧ tree.RedBlack ∧ tree.toList = ls ++ rs := by
  rw [hlist] at hnodup
  have hother : ∀ d ∈ ls ++ rs, d.isAt b.addr = false := fun d hd => isAt_eq_false hnodup hd
  obtain ⟨p, hp, hwhole, hval, hbefore, hafter⟩ := RbTree.locate_of_split hlist isAt_self
    (fun d hd => hother d (by simp [hd])) (fun d hd => hother d (by simp [hd]))
  obtain ⟨tree, herase, hrb, htree⟩ := RbTree.rbErase_spec (hwhole.symm ▸ hrb)
  refine ⟨p, tree, hp, hval, ?_, herase, hrb, ?_⟩
  · rw [RbTree.rbNext_val, hafter]
  · rw [htree, ← hbefore, ← hafter]
    simp

/-- The address of the first block of the tree. -/
theorem rbFirst_addr (t : RbTree CacheBlock) :
    (RbTree.rbFirst t).map (fun p => p.val.addr) = t.toList.head?.map CacheBlock.addr := by
  rw [← RbTree.rbFirst_val, Option.map_map]
  rfl

/-- The address of the next one. -/
theorem rbNext_addr {p : Place CacheBlock} (h : (RbTree.rbNext p).map Place.val = rs.head?) :
    (RbTree.rbNext p).map (fun p => p.val.addr) = rs.head?.map CacheBlock.addr := by
  rw [← h, Option.map_map]
  rfl

theorem Indexes.locate (h : cache.Indexes file (as ++ b :: bs))
    (hlist : cache.cacheTree.toList = ls ++ b :: rs) :
    ∃ p tree, RbTree.locate (CacheBlock.isAt b.addr) cache.cacheTree [] = some p ∧
      p.val = b ∧ (RbTree.rbNext p).map Place.val = rs.head? ∧
      RbTree.rbErase p = some tree ∧ tree.RedBlack ∧ tree.toList = ls ++ rs :=
  locate_of_nodup h.redBlack hlist ((h.perm.map CacheBlock.addr).nodup_iff.mp h.nodup)

/-- `list_del` of a block. -/
theorem Indexes.erase_lruList (h : cache.Indexes file (as ++ b :: bs)) :
    cache.lruList.erase b.addr = (as ++ bs).map CacheBlock.addr := by
  simp only [h.listed, List.map_append, List.map_cons]
  rw [List.erase_append_right _ (addr_notMem h.nodup), List.erase_cons_head]

/-- A block leaves the tree and the list. -/
theorem Indexes.erase (h : cache.Indexes file (as ++ b :: bs))
    (hlist : cache.cacheTree.toList = ls ++ b :: rs) {tree : RbTree CacheBlock}
    (hrb : tree.RedBlack) (htree : tree.toList = ls ++ rs) :
    { cache with cacheTree := tree, lruList := cache.lruList.erase b.addr }.Indexes file
      (as ++ bs) := by
  have hsub : (as ++ bs).Sublist (as ++ b :: bs) := (List.sublist_cons_self b bs).append_left as
  exact { h with
    redBlack := hrb
    sorted := by
      have hsorted := h.sorted
      rw [hlist] at hsorted
      rw [htree]
      exact hsorted.sublist ((List.sublist_cons_self b rs).append_left ls)
    perm := htree ▸ h.perm_erase hlist
    listed := h.erase_lruList
    nodup := h.nodup.sublist (hsub.map _)
    fresh := fun d hd => h.fresh d (hsub.subset hd)
    loaded := fun d hd => h.loaded d (hsub.subset hd)
    recent := fun hlt => (h.recent hlt).sublist hsub }

/-- A write through the pointer to a block changes this block only. -/
theorem map_isAt (hnodup : ((as ++ b :: bs).map CacheBlock.addr).Nodup) (f : CacheBlock → CacheBlock) :
    (as ++ b :: bs).map (fun d => if d.isAt b.addr then f d else d) = as ++ f b :: bs := by
  have hother : ∀ d ∈ as ++ bs, (if d.isAt b.addr then f d else d) = d := fun d hd =>
    if_neg (by simp [isAt_eq_false hnodup hd])
  rw [List.map_append, List.map_cons, if_pos isAt_self,
    List.map_congr_left (fun d hd => hother d (List.mem_append_left bs hd)), List.map_id',
    List.map_congr_left (fun d hd => hother d (List.mem_append_right as hd)), List.map_id']

/-- **A use** of a block writes to its record, and moves it to the end of the list. -/
theorem Indexes.touchBlock (h : cache.Indexes file (as ++ b :: bs)) :
    (touchBlock cache b.addr).Indexes file
      (as ++ bs ++ [{ b with lastAccess := cache.countAccess.accessCounter }]) := by
  let use : CacheBlock → CacheBlock := fun d =>
    { d with lastAccess := cache.countAccess.accessCounter }
  have hc := h.countAccess
  have hperm : (as ++ bs ++ [use b]).Perm (as ++ use b :: bs) := by
    rw [List.append_assoc]
    exact (List.perm_append_singleton _ bs).append_left as
  have hsub : (as ++ bs).Sublist (as ++ b :: bs) := (List.sublist_cons_self b bs).append_left as
  have hb := h.loaded b (by simp)
  have htree : (RbTree.update (CacheBlock.isAt b.addr) use cache.cacheTree).toList =
      cache.cacheTree.toList.map fun d => if d.isAt b.addr then use d else d :=
    RbTree.toList_update _ _ _
  exact {
    redBlack := hc.redBlack.update
    sorted := by
      change (RbTree.update (CacheBlock.isAt b.addr) use cache.cacheTree).toList.Pairwise _
      rw [htree, List.pairwise_map]
      refine h.sorted.imp fun {d e} hlt => ?_
      split <;> split <;> exact hlt
    perm := by
      change List.Perm _ (RbTree.update (CacheBlock.isAt b.addr) use cache.cacheTree).toList
      rw [htree]
      exact hperm.trans (map_isAt h.nodup use ▸ h.perm.map _)
    listed := by
      change cache.lruList.erase b.addr ++ [b.addr] = _
      simp [h.erase_lruList]
    nodup := by
      have haddr : (as ++ use b :: bs).map CacheBlock.addr = (as ++ b :: bs).map CacheBlock.addr := by
        simp [use]
      exact ((hperm.map CacheBlock.addr).nodup_iff).mpr (haddr ▸ h.nodup)
    fresh := List.forall_mem_append.mpr
      ⟨fun d hd => h.fresh d (hsub.subset hd), List.forall_mem_singleton.mpr (h.fresh b (by simp))⟩
    loaded := List.forall_mem_append.mpr
      ⟨fun d hd => h.loaded d (hsub.subset hd),
        List.forall_mem_singleton.mpr ⟨hb.aligned, hb.inside, hb.data⟩⟩
    counter := hc.counter
    recent := fun hlt => by
      have hcount : (use b).lastAccess = cache.accesses + 1 :=
        hc.counter.trans (Nat.mod_eq_of_lt hlt)
      have hrecent := h.recent (Nat.lt_of_succ_lt hlt)
      refine (hrecent.sublist hsub).concat (fun d hd => ?_) hcount.le
      rw [hcount]
      exact Nat.lt_succ_of_le (hrecent.counted d (hsub.subset hd))
    evicted := hc.evicted
    fileSize := h.fileSize }

/-- What `create_cache_block` reads is the block of the file, which may be
shorter than the others. -/
theorem loaded_create {offset : Nat} {load : BlockLoad} {bytes : List UInt8} {readSize : Nat}
    (hfile : file.length < 2 ^ 63) (haligned : cacheBlockSize ∣ offset)
    (hinside : offset < file.length)
    (hsize : readSize = if file.length < (offset + cacheBlockSize) % 2 ^ 64 then
      (file.length + 2 ^ 64 - offset) % 2 ^ 64 else cacheBlockSize)
    (hread : readFromFile file load offset readSize = some bytes) {addr lastAccess : Nat} :
    CacheBlock.Loaded file
      ⟨addr, offset, bytes ++ List.replicate (cacheBlockSize - readSize) 0, lastAccess⟩ := by
  refine ⟨haligned, hinside, ?_⟩
  have hmin : readSize = min cacheBlockSize (file.length - offset) := by
    simp only [cacheBlockSize] at hsize ⊢
    split at hsize <;> omega
  have hbytes : bytes = (file.drop offset).take readSize := by
    rw [readFromFile] at hread
    split at hread
    · exact (Option.some.inj hread).symm
    · cases hread
  have htake : (file.drop offset).take readSize = (file.drop offset).take cacheBlockSize := by
    rw [hmin, ← List.length_drop, ← List.take_take, List.take_length]
  have hlen : ((file.drop offset).take cacheBlockSize).length = readSize := by
    rw [List.length_take, List.length_drop, hmin]
  simp only [blockData, hlen, hbytes, htake]

/-- **A load.**  Whether or not it succeeds, the cache holds what it held; the
new block is one of the file. -/
theorem createCacheBlock_spec (h : cache.Holds file blocks) (hfile : file.length < 2 ^ 63)
    {offset : Nat} (haligned : cacheBlockSize ∣ offset) (hinside : offset < file.length)
    (load : BlockLoad) :
    (createCacheBlock file load cache offset).1.Holds file blocks ∧
      ∀ b, (createCacheBlock file load cache offset).2 = some b →
        (createCacheBlock file load cache offset).1.Fits file blocks b ∧ b.offset = offset := by
  have hcounted : { cache.countAccess with fresh := cache.fresh + 1 }.Holds file blocks :=
    { h.toIndexes.countAccess with
      fresh := fun d hd => (h.fresh d hd).trans (Nat.lt_succ_self _)
      current := h.current
      room := h.room
      maxBlocks := h.maxBlocks }
  rw [createCacheBlock]
  split
  · dsimp only
    split
    · exact ⟨hcounted, nofun⟩
    · next bytes hread =>
      refine ⟨hcounted, fun b hb => ?_⟩
      obtain rfl := Option.some.inj hb
      refine ⟨⟨loaded_create hfile haligned hinside (by rw [h.fileSize]) hread, ?_, h.fresh, ?_⟩,
        rfl⟩
      · exact Nat.lt_succ_self _
      · intro hlt
        have hcount : cache.countAccess.accessCounter = cache.accesses + 1 :=
          h.toIndexes.countAccess.counter.trans (Nat.mod_eq_of_lt hlt)
        have hrecent := h.recent (Nat.lt_of_succ_lt hlt)
        exact ⟨hcount.le, fun d hd => hcount ▸ Nat.lt_succ_of_le (hrecent.counted d hd)⟩
  · exact ⟨h, nofun⟩

/-- **An insertion.**  The new block stands in the tree at its offset, and last
in the list. -/
theorem Indexes.insert (h : cache.Indexes file blocks) (hb : cache.Fits file blocks b)
    (hnew : ∀ d ∈ blocks, d.offset ≠ b.offset) :
    ∃ tree, RbTree.rbInsert CacheBlock.offset b cache.cacheTree = some tree ∧
      { cache with cacheTree := tree, lruList := cache.lruList ++ [b.addr] }.Indexes file
        (blocks ++ [b]) := by
  obtain ⟨n, hbalanced⟩ := h.redBlack
  have hsorted : cache.cacheTree.Sorted CacheBlock.offset := h.sorted.imp fun hlt => hlt.le
  obtain ⟨tree, as, bs, hinsert, -, -, hlist, hlist', has, hbs⟩ :=
    RbTree.rbInsert_spec (x := b) hbalanced.color_eq hsorted
  obtain ⟨tree', hinsert', hrb⟩ := RbTree.redBlack_rbInsert CacheBlock.offset b h.redBlack
  obtain rfl : tree = tree' := Option.some.inj (hinsert.symm.trans hinsert')
  have hmem : ∀ d ∈ as ++ bs, d ∈ blocks := fun d hd => h.perm.mem_iff.mpr (hlist ▸ hd)
  exact ⟨tree, hinsert, {
    redBlack := hrb
    sorted := by
      have hsorted := h.sorted
      rw [hlist] at hsorted
      obtain ⟨h₁, h₂, h₁₂⟩ := List.pairwise_append.mp hsorted
      change tree.toList.Pairwise _
      rw [hlist']
      refine List.pairwise_append.mpr ⟨h₁, List.pairwise_cons.mpr ⟨hbs, h₂⟩, fun d hd e he => ?_⟩
      obtain rfl | he := List.mem_cons.mp he
      · exact lt_of_le_of_ne (has d hd) (hnew d (hmem d (by simp [hd])))
      · exact h₁₂ d hd e he
    perm := by
      change List.Perm _ tree.toList
      rw [hlist']
      have hperm := h.perm
      rw [hlist] at hperm
      exact (List.perm_append_singleton b blocks).trans
        ((hperm.cons b).trans List.perm_middle.symm)
    listed := by simp [h.listed]
    nodup := by
      have hnot : b.addr ∉ blocks.map CacheBlock.addr := fun hmem => by
        obtain ⟨d, hd, heq⟩ := List.mem_map.mp hmem
        exact absurd heq (hb.fresh d hd).ne
      rw [List.map_append, List.map_singleton]
      exact (List.perm_append_singleton _ _).nodup_iff.mpr (List.nodup_cons.mpr ⟨hnot, h.nodup⟩)
    fresh := List.forall_mem_append.mpr ⟨h.fresh, List.forall_mem_singleton.mpr hb.addr⟩
    loaded := List.forall_mem_append.mpr ⟨h.loaded, List.forall_mem_singleton.mpr hb.loaded⟩
    counter := h.counter
    recent := fun hlt => (h.recent hlt).concat (hb.recent hlt).2 (hb.recent hlt).1
    evicted := h.evicted
    fileSize := h.fileSize }⟩

/-- **An eviction** takes the first block of the list, the one whose last use
is the longest ago. -/
theorem evictLruBlock_spec (h : cache.Holds file (b :: blocks)) :
    ∃ cache', evictLruBlock cache = some cache' ∧ cache'.Holds file blocks := by
  obtain ⟨ls, rs, hlist⟩ := List.append_of_mem (h.perm.mem_iff.mp List.mem_cons_self)
  have hfirst : cache.Indexes file ([] ++ b :: blocks) := h.toIndexes
  obtain ⟨p, tree, hp, hval, -, herase, hrb, htree⟩ := hfirst.locate hlist
  have hperm := hfirst.perm_erase hlist
  have hlru : cache.lruList = b.addr :: blocks.map CacheBlock.addr := h.listed
  have hindexes := hfirst.erase hlist hrb htree
  rw [hlru, List.erase_cons_head] at hindexes
  simp only [evictLruBlock, hlru, hp, herase, Option.map_some]
  refine ⟨_, rfl, ?_⟩
  exact { hindexes with
    evicted := fun hlt e he d hd => by
      obtain he | rfl : e ∈ cache.evicted ∨ e = (p.val, tree.toList) := by simpa using he
      · exact h.evicted hlt e he d hd
      · rw [htree] at hd
        rw [hval]
        exact (List.pairwise_cons.mp (h.recent hlt).sorted).1 d (hperm.mem_iff.mpr hd)
    current := by
      have hcurrent := h.current
      simp only [List.length_cons] at hcurrent ⊢
      omega
    room := (Nat.le_succ _).trans h.room
    maxBlocks := h.maxBlocks }

/-- A full cache makes room for a block; the others stay. -/
theorem makeRoom_spec (h : cache.Holds file blocks) :
    ∃ cache' blocks',
      (if cache.maxBlocks ≤ cache.currentBlocks then evictLruBlock cache else some cache) =
        some cache' ∧
      cache'.Holds file blocks' ∧ blocks'.length < 1024 ∧ blocks' ⊆ blocks := by
  have hcurrent := h.current
  have hroom := h.room
  rw [h.maxBlocks, maxCacheBlocks]
  split
  · cases blocks with
    | nil =>
        rw [List.length_nil] at hcurrent
        omega
    | cons b rest =>
        obtain ⟨cache', hevict, h'⟩ := evictLruBlock_spec h
        exact ⟨cache', rest, hevict, h', hroom, List.subset_cons_self b rest⟩
  · exact ⟨cache, blocks, rfl, h, by omega, List.Subset.refl _⟩

/-- With the new block at the end of the list, the counter goes up by one. -/
theorem Holds.insert (h : cache.Holds file blocks) (hb : cache.Fits file blocks b)
    (hnew : ∀ d ∈ blocks, d.offset ≠ b.offset) (hroom : blocks.length < 1024) :
    ∃ cache', insertCacheBlock cache b = some cache' ∧
      { cache' with
        lruList := cache'.lruList ++ [b.addr]
        currentBlocks := cache'.currentBlocks + 1 }.Holds file (blocks ++ [b]) := by
  obtain ⟨tree, hinsert, hindexes⟩ := h.toIndexes.insert hb hnew
  refine ⟨{ cache with cacheTree := tree }, by rw [insertCacheBlock, hinsert, Option.map_some], ?_⟩
  exact { hindexes with
    current := by
      rw [List.length_append, List.length_singleton, Nat.cast_add, ← h.current]
      rfl
    room := by
      rw [List.length_append, List.length_singleton]
      exact hroom
    maxBlocks := h.maxBlocks }

/-- **The block of an offset** is in the cache afterwards, unless the load has
failed. -/
theorem fetchBlock_spec (h : cache.Holds file blocks) (hfile : file.length < 2 ^ 63)
    (load : BlockLoad) (currentOffset : Nat) (hinside : currentOffset < file.length) :
    ∃ cache' found blocks', fetchBlock file load cache currentOffset = some (cache', found) ∧
      cache'.Holds file blocks' ∧ ∀ b, found = some b →
        b ∈ blocks' ∧ b.offset = currentOffset / cacheBlockSize * cacheBlockSize := by
  cases hfind : findCacheBlock cache currentOffset with
  | some b =>
      refine ⟨cache, some b, blocks, by simp only [fetchBlock, hfind], h, fun d hd => ?_⟩
      obtain rfl := Option.some.inj hd
      exact findCacheBlock_eq_some h.toIndexes hfile hfind
  | none =>
      obtain ⟨cache₁, blocks₁, hroom, h₁, hlt, hsub⟩ := makeRoom_spec h
      have hstart : currentOffset / cacheBlockSize * cacheBlockSize < file.length :=
        (Nat.div_mul_le_self _ _).trans_lt hinside
      obtain ⟨hcreated, hblock⟩ := createCacheBlock_spec h₁ hfile (Nat.dvd_mul_left _ _) hstart load
      simp only [fetchBlock, hfind, hroom]
      generalize createCacheBlock file load cache₁
        (currentOffset / cacheBlockSize * cacheBlockSize) = created at *
      obtain ⟨cache₂, created⟩ := created
      cases created with
      | none => exact ⟨_, _, blocks₁, rfl, hcreated, nofun⟩
      | some b =>
          obtain ⟨hfits, hoffset⟩ := hblock b rfl
          have hnew : ∀ d ∈ blocks₁, d.offset ≠ b.offset := fun d hd =>
            hoffset ▸ findCacheBlock_eq_none h.toIndexes hfile hfind (hsub hd)
          obtain ⟨cache₃, hinsert, h₃⟩ := hcreated.insert hfits hnew hlt
          simp only [hinsert, Option.map_some]
          refine ⟨_, _, blocks₁ ++ [b], rfl, h₃, fun d hd => ?_⟩
          obtain rfl := Option.some.inj hd
          exact ⟨by simp, hoffset⟩

theorem Holds.touchBlock (h : cache.Holds file blocks) (hb : b ∈ blocks) :
    ∃ blocks', (touchBlock cache b.addr).Holds file blocks' := by
  obtain ⟨as, bs, rfl⟩ := List.append_of_mem hb
  have hlength : (as ++ bs ++ [{ b with lastAccess := cache.countAccess.accessCounter }]).length =
      (as ++ b :: bs).length := by
    simp only [List.length_append, List.length_cons, List.length_nil]
    omega
  exact ⟨_, { h.toIndexes.touchBlock with
    current := h.current.trans (congrArg Nat.cast hlength.symm)
    room := hlength.le.trans h.room
    maxBlocks := h.maxBlocks }⟩

end Indexes

end MemoryCache

end Profiling
