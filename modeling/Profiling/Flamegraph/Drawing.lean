import Profiling.Flamegraph.Picture

/-!
# Profiling.Flamegraph.Drawing

The rectangles of the picture.

Two blocks of one depth lie beside each other (`IsBlock.le_or_le`), and a block lies on
one that is at least as wide (`IsBlock.exists_parent`), so that pruning takes no frame
away from under another one.  From this it follows that the frames are drawn inside the
image, that they do not overlap, and that each of them rests on another one.
-/

namespace Profiling

section Blocks

variable {τ : Type*} [AddCommGroup τ] [LinearOrder τ] [IsOrderedAddMonoid τ]
  {lines : List (StackLine τ)} {k k' : NodeKey τ} {y y' : FrameData τ} {s s' : τ}

omit [LinearOrder τ] [IsOrderedAddMonoid τ] in
theorem IsBlock.exists_stime (h : IsBlock lines k y) : ∃ s, y.stime = some s := by
  obtain ⟨p, j, e, -, -, -, hj, -⟩ := h.exists_run
  exact ⟨_, hj⟩

/-- The times of a block. -/
theorem IsBlock.times (h : IsBlock lines k y) (hpos : ∀ x ∈ lines, 0 < x.samples)
    (hs : y.stime = some s) :
    0 ≤ s ∧ s < k.etime ∧ k.etime ≤ startTime lines lines.length := by
  obtain ⟨p, j, e, hrun, -, he, hj, hetime⟩ := h.exists_run
  obtain rfl : startTime lines j = s := Option.some.inj (hj.symm.trans hs)
  have hlt := hrun.lt
  rw [hetime]
  exact ⟨startTime_nonneg hpos (by omega), startTime_lt hpos hlt he, startTime_le hpos he le_rfl⟩

/-- Blocks of one depth lie beside each other. -/
theorem IsBlock.le_or_le (h : IsBlock lines k y) (h' : IsBlock lines k' y')
    (hpos : ∀ x ∈ lines, 0 < x.samples) (hdepth : k.depth = k'.depth) (hne : k ≠ k')
    (hs : y.stime = some s) (hs' : y'.stime = some s') : k.etime ≤ s' ∨ k'.etime ≤ s := by
  by_contra hcon
  rw [not_or, not_le, not_le] at hcon
  have hlt := (h.times hpos hs).2.1
  have hlt' := (h'.times hpos hs').2.1
  exact hne (h.eq_of_mem h' hpos hdepth hs hs' (le_max_left s s') (max_lt hlt hcon.1)
    (le_max_right s s') (max_lt hcon.2 hlt')).1

/-- A block lies on a block. -/
theorem IsBlock.exists_parent {d : Nat} (h : IsBlock lines k y)
    (hpos : ∀ x ∈ lines, 0 < x.samples) (hs : y.stime = some s) (hd : k.depth = d + 1) :
    ∃ k' y' s', IsBlock lines k' y' ∧ k'.depth = d ∧ y'.stime = some s' ∧ s' ≤ s ∧
      k.etime ≤ k'.etime := by
  obtain ⟨p, j, e, hrun, -, he, hj, hetime⟩ := h.exists_run
  obtain rfl : startTime lines j = s := Option.some.inj (hj.symm.trans hs)
  rw [hd] at hrun
  have hshorter : ∀ i, stackPrefix lines (d + 1) i = some p →
      stackPrefix lines d i = some (p.take (d + 1)) := by
    intro i hi
    obtain ⟨x, hx, hlt, rfl⟩ := stackPrefix_eq_some.mp hi
    refine stackPrefix_eq_some.mpr ⟨x, hx, by omega, ?_⟩
    rw [List.take_take, min_eq_left (by omega)]
  obtain ⟨j', e', hrun', hj', he', hend⟩ :=
    hrun.exists_coarser hshorter fun i hi => stackPrefix_eq_none hi
  obtain ⟨x, hx, hlt, hp⟩ := stackPrefix_eq_some.mp (hrun'.eq j' le_rfl hrun'.lt)
  have hlt' := hrun.lt
  refine ⟨⟨⟨x.frames[d], d⟩, startTime lines e'⟩, _, _,
    ⟨_, j', e', hrun', ?_, rfl, rfl⟩, rfl, rfl, startTime_le hpos hj' (by omega), ?_⟩
  · rw [hp, getLast?_take_succ hlt, List.getElem?_eq_getElem hlt]
  · rw [hetime]
    exact startTime_le hpos he' hend

end Blocks

/-! ## Pruning -/

section Prune

variable {K : Type*} [Field K] [LinearOrder K] {m : K}
  {entry : Σ _ : NodeKey K, FrameData K} {es : List (Σ _ : NodeKey K, FrameData K)}
  {s t : (AList fun _ : NodeKey K => FrameData K) × Nat}

/-- A frame is too narrow. -/
def IsNarrow (m : K) (entry : Σ _ : NodeKey K, FrameData K) : Prop :=
  ∃ stime, entry.2.stime = some stime ∧ entry.1.etime - stime < m

theorem isNarrow_iff {stime : K} (hs : entry.2.stime = some stime) :
    IsNarrow m entry ↔ entry.1.etime - stime < m := by
  simp [IsNarrow, hs]

theorem pruneEntry_narrow (h : IsNarrow m entry) :
    pruneEntry m s entry = some (s.1.erase entry.1, s.2) := by
  obtain ⟨stime, hs, hlt⟩ := h
  simp [pruneEntry, hs, hlt]

theorem pruneEntry_wide (hs : entry.2.stime.isSome) (h : ¬IsNarrow m entry) :
    pruneEntry m s entry = some (s.1, max s.2 entry.1.depth) := by
  obtain ⟨stime, hs⟩ := Option.isSome_iff_exists.mp hs
  have hlt : ¬entry.1.etime - stime < m := fun hlt => h ⟨stime, hs, hlt⟩
  simp only [pruneEntry, hs, Option.bind_eq_bind, Option.bind_some, if_neg hlt, Option.some.injEq,
    Prod.mk.injEq, true_and]
  split <;> omega

/-- What the loop does with some of the entries. -/
structure Pruned (m : K) (es : List (Σ _ : NodeKey K, FrameData K))
    (s t : (AList fun _ : NodeKey K => FrameData K) × Nat) : Prop where
  lookup : ∀ k y, t.1.lookup k = some y ↔
    s.1.lookup k = some y ∧ ∀ entry ∈ es, entry.1 = k → ¬IsNarrow m entry
  le : s.2 ≤ t.2
  depth_le : ∀ entry ∈ es, ¬IsNarrow m entry → entry.1.depth ≤ t.2
  attained : t.2 = s.2 ∨ ∃ entry ∈ es, ¬IsNarrow m entry ∧ entry.1.depth = t.2

theorem Pruned.cons_narrow (h : IsNarrow m entry) (ht : Pruned m es (s.1.erase entry.1, s.2) t) :
    Pruned m (entry :: es) s t where
  lookup k y := by
    rw [ht.lookup, List.forall_mem_cons]
    by_cases hk : k = entry.1
    · subst hk
      rw [AList.lookup_erase]
      simp [h]
    · rw [AList.lookup_erase_ne hk]
      simp [Ne.symm hk]
  le := ht.le
  depth_le := List.forall_mem_cons.mpr ⟨fun hwide => absurd h hwide, ht.depth_le⟩
  attained := ht.attained.imp_right fun ⟨e, he, hwide⟩ => ⟨e, List.mem_cons_of_mem _ he, hwide⟩

theorem Pruned.cons_wide (h : ¬IsNarrow m entry)
    (ht : Pruned m es (s.1, max s.2 entry.1.depth) t) : Pruned m (entry :: es) s t where
  lookup k y := by
    rw [ht.lookup, List.forall_mem_cons]
    simp [h]
  le := (le_max_left _ _).trans ht.le
  depth_le := List.forall_mem_cons.mpr ⟨fun _ => (le_max_right _ _).trans ht.le, ht.depth_le⟩
  attained := by
    obtain heq | ⟨e, he, hwide⟩ := ht.attained
    · rcases max_choice s.2 entry.1.depth with hmax | hmax
      · exact .inl (heq.trans hmax)
      · exact .inr ⟨entry, List.mem_cons_self, h, (heq.trans hmax).symm⟩
    · exact .inr ⟨e, List.mem_cons_of_mem _ he, hwide⟩

theorem exists_pruned (hes : ∀ entry ∈ es, entry.2.stime.isSome) :
    ∃ t, es.foldlM (pruneEntry m) s = some t ∧ Pruned m es s t := by
  induction es generalizing s with
  | nil => exact ⟨s, rfl, by simp, le_rfl, by simp, .inl rfl⟩
  | cons entry es ih =>
      obtain ⟨hentry, hes⟩ := List.forall_mem_cons.mp hes
      by_cases h : IsNarrow m entry
      · obtain ⟨t, hfold, ht⟩ := ih (s := (s.1.erase entry.1, s.2)) hes
        exact ⟨t, by rw [List.foldlM_cons, pruneEntry_narrow h]; exact hfold, ht.cons_narrow h⟩
      · obtain ⟨t, hfold, ht⟩ := ih (s := (s.1, max s.2 entry.1.depth)) hes
        exact ⟨t, by rw [List.foldlM_cons, pruneEntry_wide hentry h]; exact hfold, ht.cons_wide h⟩

/-- **Pruning** never misses a start; it keeps the frames that are wide enough, and the depth
is that of one of them unless there are none. -/
theorem prune_spec {node : AList fun _ : NodeKey K => FrameData K}
    (hnode : ∀ k y, node.lookup k = some y → y.stime.isSome) :
    ∃ kept depthmax, prune m node = some (kept, depthmax) ∧
      (∀ k y, kept.lookup k = some y ↔ node.lookup k = some y ∧ ¬IsNarrow m ⟨k, y⟩) ∧
      (∀ k ∈ kept, k.depth ≤ depthmax) ∧ (depthmax = 0 ∨ ∃ k ∈ kept, k.depth = depthmax) := by
  have hmem : ∀ entry, entry ∈ node.entries ↔ node.lookup entry.1 = some entry.2 := fun entry =>
    AList.mem_lookup_iff.symm
  obtain ⟨⟨kept, depthmax⟩, hfold, hpruned⟩ := exists_pruned (m := m) (s := (node, 0))
    fun entry he => hnode _ _ ((hmem entry).mp he)
  have hkept : ∀ k y, kept.lookup k = some y ↔ node.lookup k = some y ∧ ¬IsNarrow m ⟨k, y⟩ := by
    intro k y
    rw [hpruned.lookup]
    refine and_congr_right fun hy => ⟨fun h => h ⟨k, y⟩ ((hmem _).mpr hy) rfl, ?_⟩
    rintro hwide ⟨k', y'⟩ he rfl
    obtain rfl : y' = y := Option.some.inj (((hmem _).mp he).symm.trans hy)
    exact hwide
  refine ⟨kept, depthmax, hfold, hkept, fun k hk => ?_, hpruned.attained.imp_right ?_⟩
  · obtain ⟨y, hy⟩ := Option.isSome_iff_exists.mp (AList.lookup_isSome.mpr hk)
    obtain ⟨hy, hwide⟩ := (hkept k y).mp hy
    exact hpruned.depth_le ⟨k, y⟩ ((hmem _).mpr hy) hwide
  · rintro ⟨entry, he, hwide, hdepth⟩
    have hlookup := (hkept entry.1 entry.2).mpr ⟨(hmem _).mp he, hwide⟩
    exact ⟨entry.1, AList.lookup_isSome.mp (by rw [hlookup]; rfl), hdepth⟩

end Prune

/-! ## Rectangles -/

/-- The rectangle lies in the image. -/
def Rect.Within {K : Type*} [Zero K] [LE K] (r : Rect K) (width height : K) : Prop :=
  (0 ≤ r.x1 ∧ r.x1 ≤ r.x2 ∧ r.x2 ≤ width) ∧ 0 ≤ r.y1 ∧ r.y1 ≤ r.y2 ∧ r.y2 ≤ height

/-- Two rectangles do not overlap. -/
def Rect.Apart {K : Type*} [LE K] (r s : Rect K) : Prop :=
  (r.x2 ≤ s.x1 ∨ s.x2 ≤ r.x1) ∨ r.y2 ≤ s.y1 ∨ s.y2 ≤ r.y1

/-- The second rectangle is as wide as the first one, and next to it but for the padding. -/
def Rect.RestsOn {K : Type*} [Field K] [LE K] (r s : Rect K) : Prop :=
  (s.x1 ≤ r.x1 ∧ r.x2 ≤ s.x2) ∧ (s.y1 = r.y2 + Layout.framepad ∨ r.y1 = s.y2 + Layout.framepad)

section Rectangles

variable {K : Type*} [Field K] {layout : Layout K} {T H s s' : K} {k k' : NodeKey K}

/-- Where a frame ends: the root at the total. -/
def drawnEnd (T : K) (k : NodeKey K) : K := if k.func = [] ∧ k.depth = 0 then T else k.etime

@[simp] theorem drawFrame_x1 :
    (layout.drawFrame T H k s).x1 = Layout.xpad + s * layout.widthpertime T := by
  cases h : layout.inverted <;> simp [Layout.drawFrame, h]

@[simp] theorem drawFrame_x2 :
    (layout.drawFrame T H k s).x2 = Layout.xpad + drawnEnd T k * layout.widthpertime T := by
  cases h : layout.inverted <;> simp [Layout.drawFrame, drawnEnd, h]

@[simp] theorem drawFrame_y1 : (layout.drawFrame T H k s).y1 =
    if layout.inverted then layout.ypad1 + k.depth * layout.frameheight
    else H - layout.ypad2 - (k.depth + 1) * layout.frameheight + Layout.framepad := by
  cases h : layout.inverted <;> simp [Layout.drawFrame, h]

@[simp] theorem drawFrame_y2 : (layout.drawFrame T H k s).y2 =
    if layout.inverted then layout.ypad1 + (k.depth + 1) * layout.frameheight - Layout.framepad
    else H - layout.ypad2 - k.depth * layout.frameheight := by
  cases h : layout.inverted <;> simp [Layout.drawFrame, h]

theorem drawFrame_next (hd : k.depth = k'.depth + 1) :
    (layout.drawFrame T H k' s').y1 = (layout.drawFrame T H k s).y2 + Layout.framepad ∨
      (layout.drawFrame T H k s).y1 = (layout.drawFrame T H k' s').y2 + Layout.framepad := by
  simp only [drawFrame_y1, drawFrame_y2, hd, Nat.cast_add, Nat.cast_one]
  split
  · exact .inr (by ring)
  · exact .inl (by ring)

variable [LinearOrder K]

/-- There is room for a frame. -/
structure Layout.Proper (layout : Layout K) : Prop where
  width : 2 * Layout.xpad < layout.imagewidth
  height : Layout.framepad ≤ layout.frameheight
  font : 0 ≤ layout.fontsize

theorem Layout.le_timemax (layout : Layout K) (time : K) : time ≤ layout.timemax time := by
  unfold Layout.timemax
  split
  next => exact le_rfl
  next total =>
    split
    next h => exact not_lt.mp h.2
    next => exact le_rfl

variable [IsStrictOrderedRing K]

theorem Layout.Proper.widthpertime_pos (h : layout.Proper) (hT : 0 < T) :
    0 < layout.widthpertime T := div_pos (sub_pos.mpr h.width) hT

theorem drawFrame_mono (hw : 0 ≤ layout.widthpertime T) (h : s ≤ s') :
    (layout.drawFrame T H k s).x1 ≤ (layout.drawFrame T H k' s').x1 := by
  rw [drawFrame_x1, drawFrame_x1]
  gcongr

/-- A frame that ends within the time is inside the image from left to right. -/
theorem drawFrame_width (hlayout : layout.Proper) (hT : 0 < T) (hs : 0 ≤ s)
    (hle : s ≤ drawnEnd T k) (hend : drawnEnd T k ≤ T) :
    0 ≤ (layout.drawFrame T H k s).x1 ∧
      (layout.drawFrame T H k s).x1 ≤ (layout.drawFrame T H k s).x2 ∧
      (layout.drawFrame T H k s).x2 ≤ layout.imagewidth := by
  have hw := (hlayout.widthpertime_pos hT).le
  have hpad : (0 : K) ≤ Layout.xpad := by simp [Layout.xpad]
  have htotal : T * layout.widthpertime T = layout.imagewidth - 2 * Layout.xpad :=
    mul_div_cancel₀ _ hT.ne'
  rw [drawFrame_x1, drawFrame_x2]
  refine ⟨by positivity, by gcongr, ?_⟩
  calc Layout.xpad + drawnEnd T k * layout.widthpertime T
      ≤ Layout.xpad + T * layout.widthpertime T := by gcongr
    _ ≤ layout.imagewidth := by rw [htotal]; linarith

/-- A frame whose depth is not too great is inside the image from top to bottom. -/
theorem drawFrame_height (hlayout : layout.Proper) {depthmax : Nat} (hd : k.depth ≤ depthmax) :
    let r := layout.drawFrame T (layout.imageheight depthmax) k s
    0 ≤ r.y1 ∧ r.y1 ≤ r.y2 ∧ r.y2 ≤ layout.imageheight depthmax := by
  intro r
  have hframe : (0 : K) ≤ layout.frameheight := le_trans (by simp [Layout.framepad]) hlayout.height
  have hpad : (1 : K) ≤ layout.frameheight := hlayout.height
  have hfont := hlayout.font
  have hdepth : (k.depth + 1) * layout.frameheight ≤ (depthmax + 1) * layout.frameheight := by
    gcongr
  have hlow : (0 : K) ≤ k.depth * layout.frameheight := by positivity
  have hsub : (0 : K) ≤ if layout.subtitle then layout.ypad3 else 0 := by
    split
    · exact mul_nonneg hfont (by norm_num)
    · exact le_rfl
  simp only [r, drawFrame_y1, drawFrame_y2, Layout.imageheight, Layout.ypad1, Layout.ypad2,
    Layout.framepad] at *
  split <;> refine ⟨?_, ?_, ?_⟩ <;> linarith

/-- Frames of different depths are one above the other. -/
theorem drawFrame_apart (hlayout : layout.Proper) (hd : k.depth < k'.depth) :
    (layout.drawFrame T H k s).y2 ≤ (layout.drawFrame T H k' s').y1 ∨
      (layout.drawFrame T H k' s').y2 ≤ (layout.drawFrame T H k s).y1 := by
  have hframe : (0 : K) ≤ layout.frameheight := le_trans (by simp [Layout.framepad]) hlayout.height
  have hdepth : (k.depth + 1) * layout.frameheight ≤ k'.depth * layout.frameheight := by
    gcongr
    exact_mod_cast hd
  simp only [drawFrame_y1, drawFrame_y2, Layout.framepad]
  split
  · exact .inl (by linarith)
  · exact .inr (by linarith)

end Rectangles

/-! ## The picture -/

section Picture

variable {K : Type*} [Field K] [LinearOrder K] {layout : Layout K} {lines : List (StackLine K)}
  {k : NodeKey K} {y : FrameData K}

theorem flamegraph_eq : flamegraph layout lines =
    if (mergeFrames lines).2 = 0 then none
    else
      (prune (layout.minwidthTime (layout.timemax (mergeFrames lines).2))
        (mergeFrames lines).1.node).map fun s =>
          { imageheight := layout.imageheight s.2
            frames := s.1.entries.map fun entry =>
              (entry.1, layout.drawFrame (layout.timemax (mergeFrames lines).2)
                (layout.imageheight s.2) entry.1 (entry.2.stime.getD 0)) } := rfl

omit [LinearOrder K] in
theorem head?_stackLines {numeral : CString → K} {flamechart : Bool} {data : List CString} :
    ∀ x ∈ stackLines numeral flamechart data, x.frames.head? = some [] := by
  intro x hx
  obtain ⟨line, -, hline⟩ := List.mem_filterMap.mp hx
  obtain ⟨⟨stack, samples⟩, -, rfl⟩ := Option.map_eq_some_iff.mp hline
  dsimp only
  split <;> rfl

omit [LinearOrder K] in
/-- Every stack begins with the root, so that there is one block at the bottom. -/
theorem IsBlock.root (h : IsBlock lines k y) (hroot : ∀ x ∈ lines, x.frames.head? = some [])
    (hd : k.depth = 0) :
    k = ⟨⟨[], 0⟩, startTime lines lines.length⟩ ∧ y.stime = some 0 := by
  obtain ⟨⟨func, d⟩, etime⟩ := k
  obtain rfl : d = 0 := hd
  obtain ⟨p, j, e, hrun, hfunc, he, hj, hetime⟩ := h.exists_run
  have hall : ∀ i < lines.length, stackPrefix lines 0 i = some [[]] := by
    intro i hi
    have hx := hroot _ (List.getElem_mem hi)
    obtain ⟨frames, hframes⟩ := List.head?_eq_some_iff.mp hx
    exact stackPrefix_eq_some.mpr ⟨_, List.getElem?_eq_getElem hi, by simp [hframes],
      by simp [hframes]⟩
  have hlt := hrun.lt
  obtain rfl : [[]] = p := Option.some.inj ((hall j (by omega)).symm.trans (hrun.eq j le_rfl hlt))
  obtain rfl : j = 0 := by
    by_contra hj
    exact hrun.left (j - 1) (by omega) (hall (j - 1) (by omega))
  obtain rfl : e = lines.length := by
    by_contra hne
    exact hrun.right (hall e (by omega))
  obtain rfl : [] = func := Option.some.inj hfunc
  exact ⟨congrArg _ hetime, hj⟩

variable [IsStrictOrderedRing K]

/-- A frame is drawn from its start to its end, and the root at least as far. -/
theorem IsBlock.le_drawnEnd {T s : K} (h : IsBlock lines k y) (hpos : ∀ x ∈ lines, 0 < x.samples)
    (hs : y.stime = some s) (hT : startTime lines lines.length ≤ T) :
    0 ≤ s ∧ s < drawnEnd T k ∧ k.etime ≤ drawnEnd T k ∧ drawnEnd T k ≤ T := by
  obtain ⟨hstart, hlt, hend⟩ := h.times hpos hs
  rw [drawnEnd]
  split
  · exact ⟨hstart, hlt.trans_le (hend.trans hT), hend.trans hT, le_rfl⟩
  · exact ⟨hstart, hlt, le_rfl, hend.trans hT⟩

/-- The rectangles of two blocks do not overlap. -/
theorem IsBlock.apart {k' : NodeKey K} {y' : FrameData K} {s s' T H : K} (h : IsBlock lines k y)
    (h' : IsBlock lines k' y') (hlayout : layout.Proper) (hpos : ∀ x ∈ lines, 0 < x.samples)
    (hroot : ∀ x ∈ lines, x.frames.head? = some []) (hw : 0 ≤ layout.widthpertime T)
    (hne : k ≠ k') (hs : y.stime = some s) (hs' : y'.stime = some s') :
    (layout.drawFrame T H k s).Apart (layout.drawFrame T H k' s') := by
  rcases Nat.lt_trichotomy k.depth k'.depth with hd | hd | hd
  · exact .inr (drawFrame_apart hlayout hd)
  · have hdepth : k.depth ≠ 0 := fun h0 =>
      hne ((h.root hroot h0).1.trans (h'.root hroot (hd.symm.trans h0)).1.symm)
    have hend : drawnEnd T k = k.etime := if_neg fun h0 => hdepth h0.2
    have hend' : drawnEnd T k' = k'.etime := if_neg fun h0 => hdepth (hd.trans h0.2)
    left
    simp only [drawFrame_x1, drawFrame_x2, hend, hend']
    obtain hle | hle := h.le_or_le h' hpos hd hne hs hs'
    · exact .inl (by gcongr)
    · exact .inr (by gcongr)
  · exact .inr (drawFrame_apart hlayout hd).symm

/-- A block is drawn on one that is at least as wide. -/
theorem IsBlock.exists_restsOn {s T H : K} {d : Nat} (h : IsBlock lines k y)
    (hpos : ∀ x ∈ lines, 0 < x.samples) (hs : y.stime = some s)
    (hT : startTime lines lines.length ≤ T) (hw : 0 ≤ layout.widthpertime T)
    (hd : k.depth = d + 1) :
    ∃ k' y' s', IsBlock lines k' y' ∧ k'.depth = d ∧ y'.stime = some s' ∧
      k.etime - s ≤ k'.etime - s' ∧
      (layout.drawFrame T H k s).RestsOn (layout.drawFrame T H k' s') := by
  obtain ⟨k', y', s', hblock', rfl, hs', hss', hee'⟩ := h.exists_parent hpos hs hd
  refine ⟨k', y', s', hblock', rfl, hs', sub_le_sub hee' hss', ⟨drawFrame_mono hw hss', ?_⟩,
    drawFrame_next hd⟩
  have hend : drawnEnd T k = k.etime := if_neg fun h0 => by omega
  have hend' := hee'.trans (hblock'.le_drawnEnd hpos hs' hT).2.2.1
  rw [drawFrame_x2, drawFrame_x2, hend]
  gcongr

/-- What pruning leaves of the merged frames: the blocks that are wide enough. -/
theorem prune_mergeFrames {m : K} (hpos : ∀ x ∈ lines, 0 < x.samples) :
    ∃ kept depthmax, prune m (mergeFrames lines).1.node = some (kept, depthmax) ∧
      (∀ entry, entry ∈ kept.entries ↔ IsBlock lines entry.1 entry.2 ∧ ¬IsNarrow m entry) ∧
      ∀ entry ∈ kept.entries, entry.1.depth ≤ depthmax := by
  have hstarts : ∀ k y, (mergeFrames lines).1.node.lookup k = some y → y.stime.isSome :=
    fun k y hy => Option.isSome_iff_exists.mpr ((mergeFrames_node hpos).mp hy).exists_stime
  obtain ⟨kept, depthmax, hprune, hkept, hdepth, -⟩ := prune_spec (m := m) hstarts
  have hlookup : ∀ entry, entry ∈ kept.entries ↔ kept.lookup entry.1 = some entry.2 :=
    fun entry => AList.mem_lookup_iff.symm
  refine ⟨kept, depthmax, hprune, fun entry => ?_, fun entry he => hdepth _ ?_⟩
  · rw [hlookup, hkept, mergeFrames_node hpos]
  · exact AList.lookup_isSome.mp (by rw [(hlookup entry).mp he]; rfl)

theorem proper_default : (Layout.default : Layout K).Proper where
  width := by norm_num [Layout.default, Layout.xpad]
  height := by norm_num [Layout.default, Layout.framepad]
  font := by norm_num [Layout.default]

end Picture

end Profiling
