import Profiling.Flamegraph

/-!
# Profiling.Flamegraph.Blocks

What `%Node` holds in the end: one entry for each maximal run of lines that agree on their
first frames, from the time of its first line to that of the line behind it.

The invariant of the main loop says this of the lines so far (`Merged`): a run that has
an end is in `%Node`, and one that may still go on is in `%Tmp`.  Two runs never share a
key, because every line moves the time on.
-/

namespace Profiling

variable {τ : Type*}

/-- The frames of a line up to a depth, if it has as many. -/
def stackPrefix (lines : List (StackLine τ)) (depth i : Nat) : Option (List CString) :=
  lines[i]?.bind fun x =>
    if depth < x.frames.length then some (x.frames.take (depth + 1)) else none

/-- The time at which a line begins. -/
def startTime [AddMonoid τ] (lines : List (StackLine τ)) (i : Nat) : τ :=
  ((lines.take i).map StackLine.samples).sum

/-- The difference that a frame shows is that of its first line, if the stack ends there. -/
def startDelta [Zero τ] (lines : List (StackLine τ)) (depth i : Nat) : Option τ :=
  lines[i]?.bind fun x => x.delta.map fun d => if depth + 1 = x.frames.length then d else 0

/-- What is kept of a frame that begins with a line. -/
def frameData [AddMonoid τ] (lines : List (StackLine τ)) (depth i : Nat) : FrameData τ :=
  ⟨some (startTime lines i), startDelta lines depth i⟩

section Keys

variable {stack last this : List CString} {depth : Nat} {k : TmpKey}

theorem mem_frameKeys :
    k ∈ frameKeys stack depth ↔ depth ≤ k.depth ∧ stack[k.depth]? = some k.func := by
  rw [frameKeys, List.mem_iff_getElem?]
  obtain ⟨func, d⟩ := k
  simp only [List.getElem?_drop, List.getElem?_map, List.getElem?_zipIdx, Option.map_map,
    Option.map_eq_some_iff, Function.comp_apply, TmpKey.mk.injEq]
  constructor
  · rintro ⟨i, f, hf, rfl, rfl⟩
    exact ⟨by omega, by simpa using hf⟩
  · rintro ⟨hle, hf⟩
    exact ⟨d - depth, func, by rwa [Nat.add_sub_cancel' hle], rfl, by omega⟩

theorem nodup_frameKeys : (frameKeys stack depth).Nodup := by
  refine .sublist (List.drop_sublist _ _) (List.Nodup.of_map TmpKey.depth ?_)
  have hdepths : (stack.zipIdx.map fun x => (⟨x.1, x.2⟩ : TmpKey)).map TmpKey.depth =
      List.range' 0 stack.length := by
    rw [List.map_map, ← List.zipIdx_map_snd 0 stack]
    rfl
  rw [hdepths]
  exact List.nodup_range'

/-- How far two stacks agree. -/
theorem lt_lenSame : depth < lenSame last this ↔
    depth < last.length ∧ depth < this.length ∧ last.take (depth + 1) = this.take (depth + 1) := by
  fun_induction lenSame last this generalizing depth with
  | case1 a last this ih =>
      cases depth with
      | zero => simp
      | succ depth => simp [ih]
  | case2 a last b this hne => simp [hne]
  | case3 last this hcons =>
      cases last with
      | nil => simp
      | cons a last =>
          cases this with
          | nil => simp
          | cons b this => exact absurd rfl (hcons a last b this rfl)

end Keys

section Loops

variable {v : τ} {d : Option τ} {s : Hashes τ} {ks : List TmpKey} {n : Nat}

theorem lookup_tmp_closeFrames [DecidableEq τ] (k : TmpKey) :
    (ks.foldl (closeFrame v) s).tmp.lookup k = if k ∈ ks then none else s.tmp.lookup k := by
  induction ks generalizing s with
  | nil => simp
  | cons k' ks ih =>
      rw [List.foldl_cons, ih]
      by_cases hk : k = k'
      · subst hk
        rw [if_pos List.mem_cons_self, ite_eq_left_iff]
        exact fun _ => AList.lookup_erase k s.tmp
      · simp [hk, closeFrame, AList.lookup_erase_ne hk]

/-- **The second loop** moves the frames to `%Node`. -/
theorem lookup_node_closeFrames [DecidableEq τ] (hks : ks.Nodup) (k : NodeKey τ) :
    (ks.foldl (closeFrame v) s).node.lookup k =
      if k.etime = v ∧ k.toTmpKey ∈ ks then
        some ⟨(s.tmp.lookup k.toTmpKey).bind FrameData.stime,
          ((s.tmp.lookup k.toTmpKey).bind FrameData.delta).or
            ((s.node.lookup k).bind FrameData.delta)⟩
      else s.node.lookup k := by
  induction ks generalizing s with
  | nil => simp
  | cons k' ks ih =>
      obtain ⟨hk', hks⟩ := List.nodup_cons.mp hks
      rw [List.foldl_cons, ih hks]
      obtain ⟨key, etime⟩ := k
      by_cases hkey : key = k'
      · subst hkey
        by_cases hv : etime = v
        · subst hv
          simp [hk', closeFrame, AList.lookup_insert]
        · simp [hv, hk', closeFrame, AList.lookup_insert_ne]
      · have hne : (⟨key, etime⟩ : NodeKey τ) ≠ ⟨k', v⟩ := fun h =>
          hkey (congrArg NodeKey.toTmpKey h)
        simp [hkey, closeFrame, AList.lookup_insert_ne hne, AList.lookup_erase_ne hkey]

variable [AddZeroClass τ]

theorem node_openFrames : (ks.foldl (openFrame v d n) s).node = s.node := by
  induction ks generalizing s with
  | nil => rfl
  | cons k ks ih => exact ih

/-- **The third loop** puts frames into `%Tmp`. -/
theorem lookup_tmp_openFrames (hks : ks.Nodup) (hnew : ∀ k ∈ ks, s.tmp.lookup k = none)
    (k : TmpKey) : (ks.foldl (openFrame v d n) s).tmp.lookup k =
      if k ∈ ks then some ⟨some v, d.map fun d => if k.depth + 1 = n then d else 0⟩
      else s.tmp.lookup k := by
  induction ks generalizing s with
  | nil => simp
  | cons k' ks ih =>
      obtain ⟨hk', hks⟩ := List.nodup_cons.mp hks
      have hnone : s.tmp.lookup k' = none := hnew k' List.mem_cons_self
      rw [List.foldl_cons, ih hks]
      · by_cases hkey : k = k'
        · subst hkey
          cases d <;> simp [hk', openFrame, hnone]
        · simp [hkey, openFrame, AList.lookup_insert_ne hkey]
      · intro x hx
        have hne : x ≠ k' := fun h => hk' (h ▸ hx)
        simpa [openFrame, AList.lookup_insert_ne hne] using hnew x (List.mem_cons_of_mem _ hx)

variable [DecidableEq τ] {last this : List CString}

theorem lookup_node_flow (k : NodeKey τ) : (flow last this v d s).node.lookup k =
    if k.etime = v ∧ k.toTmpKey ∈ frameKeys last (lenSame last this) then
      some ⟨(s.tmp.lookup k.toTmpKey).bind FrameData.stime,
        ((s.tmp.lookup k.toTmpKey).bind FrameData.delta).or
          ((s.node.lookup k).bind FrameData.delta)⟩
    else s.node.lookup k := by
  rw [flow, node_openFrames, lookup_node_closeFrames (List.nodup_reverse.mpr nodup_frameKeys)]
  simp only [List.mem_reverse]

theorem lookup_tmp_flow (hnew : ∀ k ∈ frameKeys this (lenSame last this),
    k ∉ frameKeys last (lenSame last this) → s.tmp.lookup k = none) (k : TmpKey) :
    (flow last this v d s).tmp.lookup k =
      if k ∈ frameKeys this (lenSame last this) then
        some ⟨some v, d.map fun d => if k.depth + 1 = this.length then d else 0⟩
      else if k ∈ frameKeys last (lenSame last this) then none else s.tmp.lookup k := by
  rw [flow, lookup_tmp_openFrames nodup_frameKeys, lookup_tmp_closeFrames]
  · simp only [List.mem_reverse]
  · intro k hk
    rw [lookup_tmp_closeFrames, ite_eq_left_iff, List.mem_reverse]
    exact hnew k hk

end Loops

/-! ## Lines -/

section Lines

variable {lines : List (StackLine τ)} {x : StackLine τ} {d i j : Nat} {p : List CString}

theorem stackPrefix_eq_none (h : lines.length ≤ i) : stackPrefix lines d i = none := by
  simp [stackPrefix, List.getElem?_eq_none h]

theorem stackPrefix_append (h : i < lines.length) :
    stackPrefix (lines ++ [x]) d i = stackPrefix lines d i := by
  simp only [stackPrefix, List.getElem?_append_left h]

theorem stackPrefix_append_length : stackPrefix (lines ++ [x]) d lines.length =
    if d < x.frames.length then some (x.frames.take (d + 1)) else none := by
  simp [stackPrefix]

theorem stackPrefix_eq_some : stackPrefix lines d i = some p ↔
    ∃ x, lines[i]? = some x ∧ d < x.frames.length ∧ p = x.frames.take (d + 1) := by
  rw [stackPrefix, Option.bind_eq_some_iff]
  refine exists_congr fun x => and_congr_right fun _ => ?_
  rw [Option.ite_none_right_eq_some, Option.some.injEq, eq_comm (a := p)]

/-- The last frame of a prefix is the one that the block shows. -/
theorem getLast?_take_succ {stack : List CString} (h : d < stack.length) :
    (stack.take (d + 1)).getLast? = stack[d]? := by
  rw [List.getLast?_take, if_neg (Nat.succ_ne_zero d), Nat.add_sub_cancel,
    List.getElem?_eq_getElem h, Option.some_or]

/-- The stack of the last line. -/
def lastFrames (lines : List (StackLine τ)) : List CString :=
  (lines.getLast?.map StackLine.frames).getD []

theorem lastFrames_append : lastFrames (lines ++ [x]) = x.frames := by simp [lastFrames]

/-- A run that may go on agrees with the last line. -/
theorem openRun_last (h : OpenRun (stackPrefix lines d) p j lines.length) :
    d < (lastFrames lines).length ∧ p = (lastFrames lines).take (d + 1) := by
  have hlt := h.lt
  obtain ⟨x, hx, hd, rfl⟩ :=
    stackPrefix_eq_some.mp (h.eq (lines.length - 1) (by omega) (by omega))
  rw [← List.getLast?_eq_getElem?] at hx
  simp [lastFrames, hx, hd]

theorem exists_openRun_last (h : d < (lastFrames lines).length) :
    ∃ j, OpenRun (stackPrefix lines d) ((lastFrames lines).take (d + 1)) j lines.length := by
  cases lines using List.reverseRecOn with
  | nil => simp [lastFrames] at h
  | append_singleton lines x =>
      rw [lastFrames_append] at h ⊢
      rw [List.length_append, List.length_singleton]
      exact exists_openRun (by rw [stackPrefix_append_length, if_pos h])

/-- A stack and a depth at which it has not left the one before it. -/
theorem lt_lenSame_iff {this : List CString} (h : OpenRun (stackPrefix lines d) p j lines.length) :
    d < lenSame (lastFrames lines) this ↔ d < this.length ∧ this.take (d + 1) = p := by
  obtain ⟨hd, rfl⟩ := openRun_last h
  rw [lt_lenSame, and_iff_right hd, eq_comm]

theorem getElem?_of_lt_lenSame {last this : List CString} (h : d < lenSame last this) :
    this[d]? = last[d]? := by
  obtain ⟨hlast, hthis, htake⟩ := lt_lenSame.mp h
  rw [← getLast?_take_succ hthis, ← htake, getLast?_take_succ hlast]

/-- A run goes on where the next stack agrees, and one begins where it does not. -/
theorem openRun_append :
    OpenRun (stackPrefix (lines ++ [x]) d) p j (lines ++ [x]).length ↔
      (d < x.frames.length ∧ x.frames.take (d + 1) = p) ∧
        if d < lenSame (lastFrames lines) x.frames then
          OpenRun (stackPrefix lines d) p j lines.length
        else j = lines.length := by
  have hcongr : ∀ i < lines.length, stackPrefix (lines ++ [x]) d i = stackPrefix lines d i :=
    fun i hi => stackPrefix_append hi
  rw [List.length_append, List.length_singleton, openRun_succ, openRun_congr hcongr,
    stackPrefix_append_length, Option.ite_none_right_eq_some, Option.some.injEq]
  refine and_congr_right fun hp => ?_
  -- An index right before the end where the prefix is the same makes the stacks agree.
  have hbefore : (∃ i, i + 1 = lines.length ∧ stackPrefix (lines ++ [x]) d i = some p) ↔
      d < lenSame (lastFrames lines) x.frames := by
    constructor
    · rintro ⟨i, hi, heq⟩
      obtain ⟨j', hj'⟩ := exists_openRun ((hcongr i (by omega)).symm.trans heq)
      exact (lt_lenSame_iff (hi ▸ hj')).mpr hp
    · intro hsame
      obtain ⟨hd, -, htake⟩ := lt_lenSame.mp hsame
      obtain ⟨j', hj'⟩ := exists_openRun_last hd
      have hlt := hj'.lt
      refine ⟨lines.length - 1, by omega, ?_⟩
      rw [hcongr _ (by omega), hj'.eq _ (by omega) (by omega), htake, hp.2]
  split
  next hsame =>
    obtain ⟨i, hi, heq⟩ := hbefore.mpr hsame
    exact or_iff_left fun h => h.2 i hi heq
  next hsame =>
    have hnone : ¬OpenRun (stackPrefix lines d) p j lines.length := fun h =>
      hsame ((lt_lenSame_iff h).mpr hp)
    rw [or_iff_right hnone, and_iff_left fun i hi heq => hsame (hbefore.mp ⟨i, hi, heq⟩)]

section Times

variable [AddMonoid τ]

theorem startTime_append (h : i ≤ lines.length) :
    startTime (lines ++ [x]) i = startTime lines i := by
  rw [startTime, List.take_append_of_le_length h, startTime]

theorem startTime_append_length :
    startTime (lines ++ [x]) (lines.length + 1) = startTime lines lines.length + x.samples := by
  simp [startTime]

theorem frameData_append (h : i < lines.length) :
    frameData (lines ++ [x]) d i = frameData lines d i := by
  rw [frameData, startTime_append h.le, startDelta, List.getElem?_append_left h, frameData,
    startDelta]

theorem frameData_append_length : frameData (lines ++ [x]) d lines.length =
    ⟨some (startTime lines lines.length),
      x.delta.map fun δ => if d + 1 = x.frames.length then δ else 0⟩ := by
  simp [frameData, startTime_append le_rfl, startDelta]

end Times

/-- Every line takes its time. -/
theorem startTime_lt [AddCommGroup τ] [LinearOrder τ] [IsOrderedAddMonoid τ]
    (hpos : ∀ x ∈ lines, 0 < x.samples) (hij : i < j) (hj : j ≤ lines.length) :
    startTime lines i < startTime lines j := by
  induction j with
  | zero => omega
  | succ j ih =>
      have hstep : startTime lines (j + 1) = startTime lines j + (lines.get ⟨j, hj⟩).samples := by
        rw [startTime, startTime, List.take_succ_eq_append_getElem hj, List.map_append,
          List.sum_append, List.map_singleton, List.sum_singleton, List.get_eq_getElem]
      have hlt := lt_add_of_pos_right (startTime lines j) (hpos _ (List.get_mem lines ⟨j, hj⟩))
      rw [hstep]
      rcases Nat.lt_or_eq_of_le (Nat.le_of_lt_succ hij) with hi | rfl
      · exact (ih hi (by omega)).trans hlt
      · exact hlt

end Lines

/-! ## The main loop -/

section Invariant

variable [AddCommGroup τ] {lines : List (StackLine τ)} {x : StackLine τ} {s : MergeState τ}
  {δ : Option τ} {this : List CString}

/-- The blocks that have an end, as they are in `%Node`. -/
def IsClosed (lines : List (StackLine τ)) (n : Nat) (k : NodeKey τ) (y : FrameData τ) : Prop :=
  ∃ p j e, IsRun (stackPrefix lines k.depth) p j e ∧ e < n ∧ p.getLast? = some k.func ∧
    k.etime = startTime lines e ∧ y = frameData lines k.depth j

/-- The frames of the last line, as they are in `%Tmp`. -/
def IsOpen (lines : List (StackLine τ)) (k : TmpKey) (y : FrameData τ) : Prop :=
  ∃ p j, OpenRun (stackPrefix lines k.depth) p j lines.length ∧ p.getLast? = some k.func ∧
    y = frameData lines k.depth j

theorem isOpen_append {k : TmpKey} {y : FrameData τ} : IsOpen (lines ++ [x]) k y ↔
    x.frames[k.depth]? = some k.func ∧
      if k.depth < lenSame (lastFrames lines) x.frames then IsOpen lines k y
      else y = ⟨some (startTime lines lines.length),
        x.delta.map fun δ => if k.depth + 1 = x.frames.length then δ else 0⟩ := by
  constructor
  · rintro ⟨p, j, hopen, hfunc, rfl⟩
    obtain ⟨⟨hd, rfl⟩, hj⟩ := openRun_append.mp hopen
    rw [getLast?_take_succ hd] at hfunc
    refine ⟨hfunc, ?_⟩
    split at hj
    next hsame =>
      rw [if_pos hsame]
      exact ⟨_, j, hj, by rw [getLast?_take_succ hd, hfunc], frameData_append hj.lt⟩
    next hsame =>
      rw [if_neg hsame, hj, frameData_append_length]
  · rintro ⟨hfunc, hy⟩
    have hd := (List.getElem?_eq_some_iff.mp hfunc).1
    split at hy
    next hsame =>
      obtain ⟨p, j, hj, -, rfl⟩ := hy
      refine ⟨p, j, openRun_append.mpr ⟨(lt_lenSame_iff hj).mp hsame, by rwa [if_pos hsame]⟩, ?_,
        (frameData_append hj.lt).symm⟩
      rw [← ((lt_lenSame_iff hj).mp hsame).2, getLast?_take_succ hd, hfunc]
    next hsame =>
      exact ⟨_, lines.length, openRun_append.mpr ⟨⟨hd, rfl⟩, by rw [if_neg hsame]⟩,
        by rw [getLast?_take_succ hd, hfunc], by rw [hy, frameData_append_length]⟩

theorem IsOpen.getElem? {k : TmpKey} {y : FrameData τ} (h : IsOpen lines k y) :
    (lastFrames lines)[k.depth]? = some k.func := by
  obtain ⟨p, j, hopen, hfunc, -⟩ := h
  obtain ⟨hd, rfl⟩ := openRun_last hopen
  rwa [getLast?_take_succ hd] at hfunc

/-- A block gets its end with the first stack that leaves it. -/
theorem isClosed_append {k : NodeKey τ} {y : FrameData τ} :
    IsClosed (lines ++ [x]) (lines ++ [x]).length k y ↔ IsClosed lines lines.length k y ∨
      k.etime = startTime lines lines.length ∧ IsOpen lines k.toTmpKey y ∧
        lenSame (lastFrames lines) x.frames ≤ k.depth := by
  have hcongr : ∀ {e}, e ≤ lines.length → ∀ i < e,
      stackPrefix (lines ++ [x]) k.depth i = stackPrefix lines k.depth i :=
    fun he i hi => stackPrefix_append (by omega)
  have hnext : ∀ {p j}, OpenRun (stackPrefix lines k.depth) p j lines.length →
      (stackPrefix (lines ++ [x]) k.depth lines.length ≠ some p ↔
        lenSame (lastFrames lines) x.frames ≤ k.depth) := by
    intro p j hj
    rw [stackPrefix_append_length, Ne, Option.ite_none_right_eq_some, Option.some.injEq,
      ← lt_lenSame_iff hj, Nat.not_lt]
  constructor
  · rintro ⟨p, j, e, ⟨hopen, hright⟩, he, hfunc, hetime, rfl⟩
    rw [List.length_append, List.length_singleton] at he
    have hopen := hopen.congr (hcongr (by omega))
    rw [startTime_append (by omega)] at hetime
    rw [frameData_append (by have := hopen.lt; omega)]
    rcases Nat.lt_or_eq_of_le (Nat.le_of_lt_succ he) with he | rfl
    · rw [stackPrefix_append he] at hright
      exact .inl ⟨p, j, e, ⟨hopen, hright⟩, he, hfunc, hetime, rfl⟩
    · exact .inr ⟨hetime, ⟨p, j, hopen, hfunc, rfl⟩, (hnext hopen).mp hright⟩
  · rw [List.length_append, List.length_singleton]
    rintro (⟨p, j, e, ⟨hopen, hright⟩, he, hfunc, hetime, rfl⟩ |
      ⟨hetime, ⟨p, j, hopen, hfunc, rfl⟩, hsame⟩)
    · rw [← stackPrefix_append (x := x) he] at hright
      exact ⟨p, j, e, ⟨hopen.congr fun i hi => (hcongr he.le i hi).symm, hright⟩, by omega, hfunc,
        by rw [hetime, startTime_append he.le],
        (frameData_append (by have := hopen.lt; omega)).symm⟩
    · exact ⟨p, j, lines.length, ⟨hopen.congr fun i hi => (hcongr le_rfl i hi).symm,
        (hnext hopen).mpr hsame⟩, Nat.lt_succ_self _, hfunc,
        by rw [hetime, startTime_append le_rfl], (frameData_append hopen.lt).symm⟩

/-- A block of the picture: its lines agree on the frames up to its own, and the lines before
and behind them do not. -/
def IsBlock (lines : List (StackLine τ)) (k : NodeKey τ) (y : FrameData τ) : Prop :=
  ∃ p j e, IsRun (stackPrefix lines k.depth) p j e ∧ p.getLast? = some k.func ∧
    k.etime = startTime lines e ∧ y = frameData lines k.depth j

theorem isClosed_or_isOpen {k : NodeKey τ} {y : FrameData τ} :
    IsClosed lines lines.length k y ∨
      k.etime = startTime lines lines.length ∧ IsOpen lines k.toTmpKey y ↔ IsBlock lines k y := by
  constructor
  · rintro (⟨p, j, e, hrun, -, hblock⟩ | ⟨hetime, p, j, hopen, hfunc, hy⟩)
    · exact ⟨p, j, e, hrun, hblock⟩
    · exact ⟨p, j, _, ⟨hopen, by simp [stackPrefix_eq_none]⟩, hfunc, hetime, hy⟩
  · rintro ⟨p, j, e, hrun, hfunc, hetime, hy⟩
    rcases Nat.lt_or_eq_of_le (hrun.le_of_end fun i hi => stackPrefix_eq_none hi) with he | rfl
    · exact .inl ⟨p, j, e, hrun, he, hfunc, hetime, hy⟩
    · exact .inr ⟨hetime, p, j, hrun.toOpenRun, hfunc, hy⟩

variable [LinearOrder τ]

/-- What holds between two lines. -/
structure Merged (lines : List (StackLine τ)) (s : MergeState τ) : Prop where
  last : s.last = lastFrames lines
  time : s.time = startTime lines lines.length
  tmp : ∀ k y, s.hashes.tmp.lookup k = some y ↔ IsOpen lines k y
  node : ∀ k y, s.hashes.node.lookup k = some y ↔ IsClosed lines lines.length k y

theorem merged_nil : Merged ([] : List (StackLine τ)) mergeInit where
  last := rfl
  time := rfl
  tmp k y := by
    simp only [mergeInit, AList.lookup_empty, reduceCtorEq, false_iff]
    rintro ⟨p, j, hopen, -⟩
    exact absurd hopen.lt (Nat.not_lt_zero j)
  node k y := by
    simp only [mergeInit, AList.lookup_empty, reduceCtorEq, false_iff]
    rintro ⟨p, j, e, -, he, -⟩
    exact absurd he (Nat.not_lt_zero e)

/-- The frames of the last line are in `%Tmp`. -/
theorem Merged.tmp_of_getElem? {k : TmpKey} (hs : Merged lines s)
    (hk : (lastFrames lines)[k.depth]? = some k.func) :
    ∃ j, OpenRun (stackPrefix lines k.depth) ((lastFrames lines).take (k.depth + 1)) j
        lines.length ∧ s.hashes.tmp.lookup k = some (frameData lines k.depth j) := by
  have hd := (List.getElem?_eq_some_iff.mp hk).1
  obtain ⟨j, hj⟩ := exists_openRun_last hd
  exact ⟨j, hj, (hs.tmp _ _).mpr ⟨_, j, hj, by rw [getLast?_take_succ hd, hk], rfl⟩⟩

theorem Merged.tmp_eq_none {k : TmpKey} (hs : Merged lines s)
    (hk : (lastFrames lines)[k.depth]? ≠ some k.func) : s.hashes.tmp.lookup k = none := by
  rw [Option.eq_none_iff_forall_ne_some]
  rintro y hy
  exact hk ((hs.tmp k y).mp hy).getElem?

/-- **Opening**: the frames of the next stack are in `%Tmp`, with the time at which they began. -/
theorem Merged.lookup_tmp (hs : Merged lines s) (k : TmpKey) (y : FrameData τ) :
    (flow s.last x.frames s.time x.delta s.hashes).tmp.lookup k = some y ↔
      IsOpen (lines ++ [x]) k y := by
  rw [lookup_tmp_flow, hs.last, hs.time, isOpen_append, ← hs.tmp]
  · simp only [mem_frameKeys]
    by_cases hx : x.frames[k.depth]? = some k.func
    · by_cases hsame : k.depth < lenSame (lastFrames lines) x.frames
      · simp [hx, hsame, Nat.not_le.mpr hsame]
      · simp [hx, hsame, Nat.le_of_not_lt hsame, eq_comm]
    · -- The frame has gone, or there was none.
      rw [if_neg (fun h => hx h.2), iff_false_right fun h => hx h.1, ite_eq_left_iff.mpr]
      · simp
      · intro hk
        refine hs.tmp_eq_none fun hlast => ?_
        by_cases hsame : k.depth < lenSame (lastFrames lines) x.frames
        · exact hx ((getElem?_of_lt_lenSame hsame).trans hlast)
        · exact hk ⟨Nat.le_of_not_lt hsame, hlast⟩
  · rw [hs.last]
    intro k hk hlast
    rw [mem_frameKeys] at hk hlast
    exact hs.tmp_eq_none fun h => hlast ⟨hk.1, h⟩

variable [IsOrderedAddMonoid τ]

/-- **Closing**: the blocks that the next stack does not go on with have an end now. -/
theorem Merged.lookup_node (hs : Merged lines s) (hpos : ∀ x ∈ lines, 0 < x.samples)
    (k : NodeKey τ) (y : FrameData τ) :
    (flow s.last this s.time δ s.hashes).node.lookup k = some y ↔
      IsClosed lines lines.length k y ∨
        k.etime = startTime lines lines.length ∧ IsOpen lines k.toTmpKey y ∧
          lenSame (lastFrames lines) this ≤ k.depth := by
  have hold : k.etime = startTime lines lines.length → s.hashes.node.lookup k = none := by
    intro hv
    rw [Option.eq_none_iff_forall_ne_some]
    rintro y hy
    obtain ⟨p, j, e, -, he, -, hetime, -⟩ := (hs.node k y).mp hy
    exact (startTime_lt hpos he le_rfl).ne (hetime.symm.trans hv)
  rw [lookup_node_flow, hs.last, hs.time]
  simp only [mem_frameKeys]
  split
  next hk =>
    obtain ⟨hv, hsame, hlast⟩ := hk
    have hnone := hold hv
    obtain ⟨j, hj, htmp⟩ := hs.tmp_of_getElem? hlast
    have hopen : ∀ y, s.hashes.tmp.lookup k.toTmpKey = some y ↔ y = frameData lines k.depth j := by
      intro y
      rw [htmp, Option.some.injEq, eq_comm]
    have hclosed : ¬IsClosed lines lines.length k y := by
      rw [← hs.node, hnone]
      simp
    rw [or_iff_right hclosed, and_iff_right hv, ← hs.tmp, hopen, htmp, hnone]
    simp [frameData, hsame, eq_comm]
  next hk =>
    rw [hs.node, iff_self_or]
    rintro ⟨hv, hopen, hsame⟩
    exact absurd ⟨hv, hsame, hopen.getElem?⟩ hk

theorem Merged.mergeLine (hs : Merged lines s) (hpos : ∀ x ∈ lines, 0 < x.samples) :
    Merged (lines ++ [x]) (mergeLine s x) where
  last := lastFrames_append.symm
  time := by
    rw [List.length_append, List.length_singleton, startTime_append_length, ← hs.time]
    rfl
  tmp := hs.lookup_tmp
  node k y := by
    rw [isClosed_append]
    exact hs.lookup_node hpos k y

/-- **The main loop** keeps the invariant. -/
theorem merged_foldl (hpos : ∀ x ∈ lines, 0 < x.samples) :
    Merged lines (lines.foldl Profiling.mergeLine mergeInit) := by
  induction lines using List.reverseRecOn with
  | nil => exact merged_nil
  | append_singleton lines x ih =>
      have hpos : ∀ x ∈ lines, 0 < x.samples := fun x hx => hpos x (List.mem_append_left _ hx)
      rw [List.foldl_append]
      exact (ih hpos).mergeLine hpos

/-- `%Node` holds the blocks. -/
theorem mergeFrames_node (hpos : ∀ x ∈ lines, 0 < x.samples) {k : NodeKey τ} {y : FrameData τ} :
    (mergeFrames lines).1.node.lookup k = some y ↔ IsBlock lines k y := by
  rw [mergeFrames, (merged_foldl hpos).lookup_node hpos, ← isClosed_or_isOpen]
  simp [lenSame]

theorem mergeFrames_tmp (hpos : ∀ x ∈ lines, 0 < x.samples) (k : TmpKey) :
    (mergeFrames lines).1.tmp.lookup k = none := by
  have hs := merged_foldl hpos
  rw [mergeFrames, lookup_tmp_flow (by simp [frameKeys])]
  by_cases hk : (lastFrames lines)[k.depth]? = some k.func
  · simp [mem_frameKeys, lenSame, hs.last, hk]
  · simp [mem_frameKeys, lenSame, hs.last, hk, hs.tmp_eq_none hk]

theorem mergeFrames_time (hpos : ∀ x ∈ lines, 0 < x.samples) :
    (mergeFrames lines).2 = startTime lines lines.length := (merged_foldl hpos).time

end Invariant

/-- Two stacks that share a frame. -/
def twoLines : List CString := [cstr "a;b 2", cstr "a;c 3"]

end Profiling
