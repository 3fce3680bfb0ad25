import Profiling.Symbolize.Frames

/-!
# Profiling.Symbolize.Stack

The folded stack that `symbolize_sample` builds in `flame_buffer`.

A name goes behind the others if it fits, each one on its own.  So the stack
is the header and the first names just when none of the names behind the first
one that does not fit would fit in its place (`foldl_append_prefix_iff`), and
that is not so for every sample.  The frame at which the pid turns out to be
gone is appended without a check: `flame_len` stays the length of a string that
fits the buffer as long as there happens to be room for it.
-/

namespace Profiling

/-! ## Appending names -/

/-- A header with names behind it. -/
def foldedStack (header : CString) (names : List CString) : CString :=
  header ++ names.flatMap (59 :: ·)

/-- Behind the first name that does not fit, no name fits in its place. -/
def CutAtEnd (header : CString) (names : List CString) : Prop :=
  ∀ i j, i < j → ∀ name ∈ names[i]?, ∀ later ∈ names[j]?,
    16384 ≤ (foldedStack header (names.take i)).length + name.length + 2 →
      16384 ≤ (foldedStack header (names.take i)).length + later.length + 2

@[simp] theorem foldedStack_nil (header : CString) : foldedStack header [] = header := by
  simp [foldedStack]

theorem foldedStack_cons (header name : CString) (names : List CString) :
    foldedStack header (name :: names) = foldedStack (header ++ 59 :: name) names := by
  simp [foldedStack]

theorem length_foldedStack_cons (header name : CString) (names : List CString) :
    header.length + name.length + 1 ≤ (foldedStack header (name :: names)).length := by
  simp only [foldedStack, List.flatMap_cons, List.length_append, List.length_cons]
  omega

section

variable {c : Flame} {name : CString}

/-- The locals fit each other: `flame_len` is the length of the string. -/
def Flame.Counted (c : Flame) : Prop := c.flameLen = c.flameBuffer.length

theorem Flame.append_of_fits (h : c.flameLen + name.length + 2 < 16384) :
    c.append name =
      { c with
        flameBuffer := c.flameBuffer ++ 59 :: name
        flameLen := c.flameLen + name.length + 1 } := if_pos h

theorem Flame.append_of_full (h : 16384 ≤ c.flameLen + name.length + 2) : c.append name = c :=
  if_neg (Nat.not_lt.mpr h)

theorem Flame.Counted.append (h : c.Counted) (name : CString) : (c.append name).Counted := by
  unfold Flame.append
  split
  · simp only [Counted] at h ⊢
    rw [h, List.length_append, List.length_cons, Nat.add_assoc]
  · exact h

/-- Appending names leaves the string there is as it is. -/
theorem foldl_append_length_le (names : List CString) (c : Flame) (h : c.Counted) :
    c.flameBuffer.length ≤ (names.foldl Flame.append c).flameBuffer.length ∧
      (c.flameBuffer.length ≤ 16382 →
        (names.foldl Flame.append c).flameBuffer.length ≤ 16382) := by
  induction names generalizing c with
  | nil => exact ⟨Nat.le_refl _, id⟩
  | cons name names ih =>
      obtain ⟨hle, hroom⟩ := ih (c.append name) (h.append name)
      rw [List.foldl_cons]
      rcases Nat.lt_or_ge (c.flameLen + name.length + 2) 16384 with hfits | hfull
      · rw [Flame.append_of_fits hfits] at hle hroom ⊢
        simp only [Flame.Counted, List.length_append, List.length_cons] at h hle hroom
        exact ⟨by omega, fun _ => hroom (by omega)⟩
      · rw [Flame.append_of_full hfull] at hle hroom ⊢
        exact ⟨hle, hroom⟩

/-- Names that all fit are all appended. -/
theorem flameLen_foldl_append (names : List CString) (c : Flame) (h : c.Counted)
    (hfits : (foldedStack c.flameBuffer names).length ≤ 16382) :
    (names.foldl Flame.append c).flameLen = (foldedStack c.flameBuffer names).length := by
  induction names generalizing c with
  | nil => rw [List.foldl_nil, h, foldedStack_nil]
  | cons name names ih =>
      have hlen := length_foldedStack_cons c.flameBuffer name names
      rw [foldedStack_cons] at hlen hfits ⊢
      have hname : c.flameLen + name.length + 2 < 16384 := by
        rw [h]
        omega
      have happend := Flame.append_of_fits hname
      have hbuffer : (c.append name).flameBuffer = c.flameBuffer ++ 59 :: name := by rw [happend]
      rw [List.foldl_cons, ih (c.append name) (h.append name) (by rwa [hbuffer]), hbuffer]

/-- Nothing is appended if no name fits. -/
theorem foldl_append_eq_self_iff (names : List CString) (c : Flame) (h : c.Counted) :
    (names.foldl Flame.append c).flameBuffer = c.flameBuffer ↔
      ∀ name ∈ names, 16384 ≤ c.flameBuffer.length + name.length + 2 := by
  induction names with
  | nil => simp
  | cons name names ih =>
      rw [List.foldl_cons, List.forall_mem_cons, ← h]
      rcases Nat.lt_or_ge (c.flameLen + name.length + 2) 16384 with hfits | hfull
      · refine iff_of_false (fun heq => ?_) fun hall => absurd hall.1 (Nat.not_le.mpr hfits)
        have hle := (foldl_append_length_le names _ (h.append name)).1
        rw [heq, Flame.append_of_fits hfits, List.length_append, List.length_cons] at hle
        omega
      · rw [Flame.append_of_full hfull, ih, h]
        exact ⟨fun hall => ⟨by rw [← h]; exact hfull, hall⟩, And.right⟩

theorem cutAtEnd_cons_of_fits {header : CString} {names : List CString}
    (hfits : header.length + name.length + 2 < 16384) :
    CutAtEnd header (name :: names) ↔ CutAtEnd (header ++ 59 :: name) names := by
  constructor
  · intro h i j hij n hn later hlater
    have := h (i + 1) (j + 1) (by omega) n hn later hlater
    rwa [List.take_succ_cons, foldedStack_cons] at this
  · intro h i j hij n hn later hlater hfull
    cases i with
    | zero =>
        obtain rfl : name = n := by simpa using hn
        simp only [List.take_zero, foldedStack_nil] at hfull
        omega
    | succ i =>
        obtain ⟨j, rfl⟩ := Nat.exists_eq_succ_of_ne_zero (Nat.ne_zero_of_lt hij)
        rw [List.take_succ_cons, foldedStack_cons] at hfull ⊢
        exact h i j (by omega) n hn later hlater hfull

theorem cutAtEnd_cons_of_full {header : CString} {names : List CString}
    (hfull : 16384 ≤ header.length + name.length + 2) :
    CutAtEnd header (name :: names) ↔
      ∀ later ∈ names, 16384 ≤ header.length + later.length + 2 := by
  constructor
  · intro h later hlater
    obtain ⟨j, hj⟩ := List.mem_iff_getElem?.mp hlater
    simpa using h 0 (j + 1) (by omega) name rfl later hj (by simpa using hfull)
  · intro h i j hij n hn later hlater hbehind
    cases i with
    | zero =>
        obtain ⟨j, rfl⟩ := Nat.exists_eq_succ_of_ne_zero (Nat.ne_zero_of_lt hij)
        simpa using h later (List.mem_of_getElem? hlater)
    | succ i =>
        have := length_foldedStack_cons header name (names.take i)
        rw [List.take_succ_cons]
        omega

/-- **Where the stack is cut.**  What is appended to a string is the first
names, if and only if they are cut at the end. -/
theorem foldl_append_prefix_iff (names : List CString) (c : Flame) (h : c.Counted)
    (hroom : c.flameBuffer.length ≤ 16382) :
    (∃ m, (names.foldl Flame.append c).flameBuffer = foldedStack c.flameBuffer (names.take m)) ↔
      CutAtEnd c.flameBuffer names := by
  induction names generalizing c with
  | nil => exact iff_of_true ⟨0, by simp⟩ (by simp [CutAtEnd])
  | cons name names ih =>
      rw [List.foldl_cons]
      have hlonger := fun m => length_foldedStack_cons c.flameBuffer name (names.take m)
      rcases Nat.lt_or_ge (c.flameLen + name.length + 2) 16384 with hfits | hfull
      · -- the name is the first of those that are kept
        have happend := Flame.append_of_fits hfits
        have hbuffer : (c.append name).flameBuffer = c.flameBuffer ++ 59 :: name := by rw [happend]
        have hlen : (c.append name).flameBuffer.length = c.flameBuffer.length + name.length + 1 := by
          rw [hbuffer, List.length_append, List.length_cons, Nat.add_assoc]
        rw [h] at hfits
        have ih := ih (c.append name) (h.append name) (by omega)
        have hle := (foldl_append_length_le names _ (h.append name)).1
        rw [cutAtEnd_cons_of_fits hfits, ← hbuffer, ← ih]
        constructor
        · rintro ⟨m, hm⟩
          cases m with
          | zero =>
              rw [hm, List.take_zero, foldedStack_nil] at hle
              omega
          | succ m => exact ⟨m, by rw [hm, List.take_succ_cons, foldedStack_cons, hbuffer]⟩
        · rintro ⟨m, hm⟩
          exact ⟨m + 1, by rw [hm, List.take_succ_cons, foldedStack_cons, hbuffer]⟩
      · -- the name is left out, and a stack with it would be too long
        rw [Flame.append_of_full hfull]
        rw [h] at hfull
        rw [cutAtEnd_cons_of_full hfull, ← foldl_append_eq_self_iff names c h]
        have hroom' := (foldl_append_length_le names c h).2 hroom
        constructor
        · rintro ⟨m, hm⟩
          cases m with
          | zero => simpa using hm
          | succ m =>
              have := hlonger m
              rw [hm, List.take_succ_cons] at hroom'
              omega
        · exact fun heq => ⟨0, by simpa using heq⟩

end

/-! ## The length of the string -/

/-- At this frame the pid turns out to be gone. -/
def FoundGone (filterMode : FilterMode) (pid : Int) (sys : SystemContext) (c : Flame)
    (currentIp : UInt64) (reads : FrameReads) : Prop :=
  usesProcess filterMode currentIp = true ∧
    ∃ addr node, c.procInfo = some addr ∧ sys.derefProcess addr = some node ∧
      node.info.startTime ≠ reads.startTime ∧ (sys.recycle node pid reads.process).2 = none

section

variable {filterMode : FilterMode} {pid : Int} {sys sys' : SystemContext} {c c' : Flame}
  {currentIp : UInt64} {reads : FrameReads}

theorem Flame.flameLen_append_le (c : Flame) (name : CString) :
    (c.append name).flameLen ≤ max c.flameLen 16382 := by
  unfold Flame.append
  split
  · exact (Nat.le_of_lt_succ (by dsimp only; omega)).trans (Nat.le_max_right _ 16382)
  · exact Nat.le_max_left _ _

/-- What a frame does to `flame_len`: it stays the length of the string, and
grows over the end only where the pid is gone. -/
theorem symbolizeFrame_length (h : c.Counted)
    (hframe : symbolizeFrame filterMode pid sys c currentIp reads = some (sys', c')) :
    c'.Counted ∧
      (FoundGone filterMode pid sys c currentIp reads → c'.flameLen = c.flameLen + 19) ∧
      (¬FoundGone filterMode pid sys c currentIp reads →
        c'.flameLen ≤ max c.flameLen 16382) := by
  have huser : ∀ {node : ProcessNode} {addr : Nat}, c.procInfo = some addr →
      sys.derefProcess addr = some node → FoundGone filterMode pid sys c currentIp reads →
      node.info.startTime ≠ reads.startTime ∧ (sys.recycle node pid reads.process).2 = none := by
    rintro node addr hinfo hderef ⟨-, addr', node', hinfo', hderef', hgone⟩
    obtain rfl := Option.some.inj (hinfo.symm.trans hinfo')
    obtain rfl := Option.some.inj (hderef.symm.trans hderef')
    exact hgone
  cases symbolizeFrame_cases hframe with
  | filtered hout =>
      refine ⟨h, fun hgone => ?_, fun _ => Nat.le_max_left _ _⟩
      exact absurd (usesProcess_iff.mp hgone.1).1 (by simp [hout])
  | kernel hshown hkernel =>
      refine ⟨h.append _, fun hgone => ?_, fun _ => c.flameLen_append_le _⟩
      exact absurd (usesProcess_iff.mp hgone.1).2 (by simp [hkernel])
  | unknown hused hinfo =>
      refine ⟨h.append _, fun hgone => ?_, fun _ => c.flameLen_append_le _⟩
      obtain ⟨-, addr, -, hinfo', -⟩ := hgone
      exact absurd (hinfo.symm.trans hinfo') (by simp)
  | same hused hinfo hderef hstart hname =>
      refine ⟨h.append _, fun hgone => ?_, fun _ => c.flameLen_append_le _⟩
      exact absurd hstart (huser hinfo hderef hgone).1
  | gone hused hinfo hderef hstart hfind =>
      have hlen : (cstr "[process_recycled]").length = 18 := rfl
      refine ⟨?_, fun _ => rfl, fun hstay => ?_⟩
      · simp only [Flame.Counted] at h ⊢
        simp only [Flame.appendRecycled, Flame.enter, List.length_append, List.length_cons, h]
        omega
      · exact absurd ⟨hused, _, _, hinfo, hderef, hstart, by rw [hfind]⟩ hstay
  | replaced hused hinfo hderef hstart hfind hname =>
      refine ⟨Flame.Counted.append (c := c.enter _) h _, fun hgone => ?_,
        fun _ => (c.enter _).flameLen_append_le _⟩
      have hnone := (huser hinfo hderef hgone).2
      rw [hfind] at hnone
      cases hnone

end

section

variable {filterMode : FilterMode} {sys : SystemContext} {callchain : CallchainResult}
  {reads : SampleReads}

/-- The string is counted after every frame. -/
theorem counted_afterFrames (hsys : sys.Sound) (hparsed : reads.Parsed) {n : Nat}
    (hn : n ≤ (allIps callchain).length) {sys' : SystemContext} {c' : Flame}
    (h : afterFrames filterMode sys callchain reads n = some (sys', c')) : c'.Counted := by
  induction n generalizing sys' c' with
  | zero =>
      obtain rfl := congrArg Prod.snd (Option.some.inj (afterFrames_zero.symm.trans h))
      exact (enterSample_spec hsys callchain hparsed.process).2.2.1
  | succ n ih =>
      rw [afterFrames_succ (by omega)] at h
      obtain ⟨⟨sys₁, c₁⟩, hafter, hframe⟩ := Option.bind_eq_some_iff.mp h
      exact (symbolizeFrame_length (ih (by omega) hafter) hframe).1

end

/-- **When `flame_len` stays in the buffer.**  In front of the loop and after
every frame it is the length of a string that fits, if and only if there are 19
bytes left wherever the pid turns out to be gone. -/
theorem flame_len_bounded_iff {filterMode : FilterMode} {sys : SystemContext}
    {callchain : CallchainResult} {reads : SampleReads} (hsys : sys.Sound)
    (hparsed : reads.Parsed) :
    (∀ n ≤ (allIps callchain).length, ∃ sys' c',
      afterFrames filterMode sys callchain reads n = some (sys', c') ∧
        c'.flameLen = c'.flameBuffer.length ∧ c'.flameLen ≤ 16383) ↔
      ∀ n, ∀ currentIp ∈ (allIps callchain)[n]?, ∀ sys' c',
        afterFrames filterMode sys callchain reads n = some (sys', c') →
        FoundGone filterMode callchain.intPid sys' c' currentIp (reads.frame n) →
        c'.flameLen ≤ 16364 := by
  constructor
  · intro h n currentIp hip sys' c' hafter hgone
    obtain ⟨hn, rfl⟩ := List.getElem?_eq_some_iff.mp hip
    obtain ⟨sys₁, c₁, hnext, -, hle⟩ := h (n + 1) hn
    rw [afterFrames_succ hn, hafter, Option.bind_some] at hnext
    have hcounted := counted_afterFrames hsys hparsed (Nat.le_of_lt hn) hafter
    have hlen := (symbolizeFrame_length hcounted hnext).2.1 hgone
    omega
  · intro h n hn
    have hbound : ∀ sys' c', afterFrames filterMode sys callchain reads n = some (sys', c') →
        c'.flameLen ≤ 16383 := by
      induction n with
      | zero =>
          intro sys' c' hafter
          obtain rfl := congrArg Prod.snd (Option.some.inj (afterFrames_zero.symm.trans hafter))
          have := (enterSample_spec hsys callchain hparsed.process).2.2.2
          omega
      | succ n ih =>
          intro sys' c' hafter
          rw [afterFrames_succ (by omega)] at hafter
          obtain ⟨⟨sys₁, c₁⟩, hbefore, hframe⟩ := Option.bind_eq_some_iff.mp hafter
          have hle := ih (by omega) sys₁ c₁ hbefore
          obtain ⟨-, hgone, hstay⟩ :=
            symbolizeFrame_length (counted_afterFrames hsys hparsed (by omega) hbefore) hframe
          by_cases hfound : FoundGone filterMode callchain.intPid sys₁ c₁ (allIps callchain)[n]
              (reads.frame n)
          · have hroom := h n _ (List.getElem?_eq_getElem (by omega)) sys₁ c₁ hbefore hfound
            have hlen := hgone hfound
            omega
          · have hlen := hstay hfound
            omega
    obtain ⟨sys', c', hafter, -⟩ := afterFrames_inv hsys callchain hparsed filterMode hn
    exact ⟨sys', c', hafter, counted_afterFrames hsys hparsed hn hafter, hbound sys' c' hafter⟩

/-! ## The names of the frames -/

/-- The name of a frame, if the filter lets it through, for a process that is
not recycled. -/
def resolveFrame (filterMode : FilterMode) (pid : Int) (procInfo : Option Nat)
    (sys : SystemContext) (currentIp : UInt64) (reads : ElfReads) :
    Option (SystemContext × List CString) :=
  if filteredOut filterMode currentIp then some (sys, [])
  else if isKernelAddr currentIp then some (sys, [kernelFuncName sys currentIp])
  else
    match procInfo with
    | none => some (sys, [cstr "[unknown_process]"])
    | some addr =>
        (sys.derefProcess addr).bind fun node =>
          (userFuncName sys pid node currentIp reads).map fun next => (next.1, [next.2])

/-- The names of the frames, from the `i`-th address on. -/
def resolveFrames (filterMode : FilterMode) (pid : Int) (procInfo : Option Nat)
    (reads : Nat → FrameReads) :
    Nat → List UInt64 → SystemContext → Option (SystemContext × List CString)
  | _, [], sys => some (sys, [])
  | i, currentIp :: ips, sys =>
      (resolveFrame filterMode pid procInfo sys currentIp (reads i).elf).bind fun next =>
        (resolveFrames filterMode pid procInfo reads (i + 1) ips next.1).map fun rest =>
          (rest.1, next.2 ++ rest.2)

/-- The addresses of a sample that the filter lets through, mapped to names. -/
def resolvedNames (filterMode : FilterMode) (sys : SystemContext) (callchain : CallchainResult)
    (reads : SampleReads) : List CString :=
  let start := enterSample sys callchain reads.process
  ((resolveFrames filterMode callchain.intPid start.2.procInfo reads.frame 0 (allIps callchain)
    start.1).map (·.2)).getD []

/-- `flame_buffer` behind the frame loop. -/
def flameBufferOf (filterMode : FilterMode) (sys : SystemContext) (callchain : CallchainResult)
    (reads : SampleReads) : Option CString :=
  (afterFrames filterMode sys callchain reads (allIps callchain).length).map (·.2.flameBuffer)

/-- `process_name[pid]` -/
def stackHeader (sys : SystemContext) (callchain : CallchainResult) (process : ProcReads) :
    CString :=
  (enterSample sys callchain process).2.processName ++ cstr "[" ++
    cstr (toString callchain.intPid) ++ cstr "]"

/-- The frames that look at the record at `procInfo` find its start time. -/
def StartTimesAgree (filterMode : FilterMode) (procInfo : Option Nat) (reads : Nat → FrameReads)
    (i : Nat) (ips : List UInt64) (sys : SystemContext) : Prop :=
  ∀ identity, sys.processTable.Has identity → procInfo = some identity.1 →
    ∀ j, ∀ currentIp ∈ ips[j]?, usesProcess filterMode currentIp = true →
      (reads (i + j)).startTime = identity.2.2.1

/-- The process is not recycled during the call. -/
def NotRecycled (filterMode : FilterMode) (sys : SystemContext) (callchain : CallchainResult)
    (reads : SampleReads) : Prop :=
  let start := enterSample sys callchain reads.process
  StartTimesAgree filterMode start.2.procInfo reads.frame 0 (allIps callchain) start.1

section

variable {filterMode : FilterMode} {pid : Int} {sys : SystemContext} {c : Flame}

theorem StartTimesAgree.tail {procInfo : Option Nat} {reads : Nat → FrameReads} {i : Nat}
    {currentIp : UInt64} {ips : List UInt64} {sys' : SystemContext}
    (h : StartTimesAgree filterMode procInfo reads i (currentIp :: ips) sys)
    (hsame : sys.SameRecords sys') :
    StartTimesAgree filterMode procInfo reads (i + 1) ips sys' := by
  intro identity hid hinfo j ip hip hused
  have := h identity ((hsame.has identity).mp hid) hinfo (j + 1) ip hip hused
  rwa [← Nat.add_assoc, Nat.add_right_comm] at this

/-- One frame of a process that is not recycled: its name is appended. -/
theorem symbolizeFrame_resolve (h : FrameInv pid sys c) {reads : Nat → FrameReads} {i : Nat}
    {currentIp : UInt64} {ips : List UInt64}
    (hagree : StartTimesAgree filterMode c.procInfo reads i (currentIp :: ips) sys)
    {sys' : SystemContext} {c' : Flame}
    (hframe : symbolizeFrame filterMode pid sys c currentIp (reads i) = some (sys', c')) :
    ∃ names, resolveFrame filterMode pid c.procInfo sys currentIp (reads i).elf =
        some (sys', names) ∧
      c' = names.foldl Flame.append c ∧ (∀ name ∈ names, name.length ≤ 511) ∧
      sys.SameRecords sys' := by
  have hstart : ∀ {addr : Nat} {node : ProcessNode}, c.procInfo = some addr →
      sys.derefProcess addr = some node → usesProcess filterMode currentIp = true →
      node.info.startTime = (reads i).startTime := by
    intro addr node hinfo hderef hused
    obtain ⟨lost, hbalanced⟩ := h.sound.balanced
    obtain ⟨hn, haddr⟩ := hbalanced.derefProcess hderef
    exact (hagree node.identity ⟨node, hn, rfl⟩ (by rw [hinfo, ← haddr]; rfl) 0 currentIp rfl
      hused).symm
  unfold resolveFrame
  cases symbolizeFrame_cases hframe with
  | filtered hout => exact ⟨[], if_pos hout, rfl, by simp, .refl _⟩
  | kernel hshown hkernel =>
      refine ⟨[kernelFuncName sys currentIp], by simp [hshown, hkernel], rfl, ?_, .refl _⟩
      simp only [List.mem_singleton, forall_eq]
      exact List.length_take_le 511 _
  | unknown hused hinfo =>
      obtain ⟨hshown, huser⟩ := usesProcess_iff.mp hused
      refine ⟨[cstr "[unknown_process]"], by simp [hshown, huser, hinfo], rfl, ?_, .refl _⟩
      simp only [List.mem_singleton, forall_eq]
      decide
  | @same addr node _ funcName hused hinfo hderef _ hname =>
      obtain ⟨hshown, huser⟩ := usesProcess_iff.mp hused
      obtain ⟨hlen, hsame⟩ := userFuncName_spec hname
      refine ⟨[funcName], by simp [hshown, huser, hinfo, hderef, hname], rfl, ?_, hsame⟩
      simpa using hlen
  | gone hused hinfo hderef hne => exact absurd (hstart hinfo hderef hused) hne
  | replaced hused hinfo hderef hne => exact absurd (hstart hinfo hderef hused) hne

theorem procInfo_foldl_append (names : List CString) (c : Flame) :
    (names.foldl Flame.append c).procInfo = c.procInfo := by
  induction names generalizing c with
  | nil => rfl
  | cons name names ih => rw [List.foldl_cons, ih, procInfo_append]

/-- The loop over the frames of a process that is not recycled. -/
theorem frameLoop_resolve {reads : Nat → FrameReads} (hlo : -2 ^ 31 ≤ pid) (hhi : pid < 2 ^ 31)
    (hparsed : ∀ i, (reads i).process.Parsed) (ips : List UInt64) (i : Nat)
    (h : FrameInv pid sys c) (hagree : StartTimesAgree filterMode c.procInfo reads i ips sys) :
    ∃ sys' names, resolveFrames filterMode pid c.procInfo reads i ips sys = some (sys', names) ∧
      frameLoop filterMode pid reads i ips sys c = some (sys', names.foldl Flame.append c) ∧
      ∀ name ∈ names, name.length ≤ 511 := by
  induction ips generalizing i sys c with
  | nil => exact ⟨sys, [], rfl, rfl, by simp⟩
  | cons currentIp ips ih =>
      obtain ⟨sys₁, c₁, hframe, hinv⟩ := h.frame hlo hhi (hparsed i) filterMode currentIp
      obtain ⟨names, hresolve, rfl, hlen, hsame⟩ := symbolizeFrame_resolve h hagree hframe
      have hinfo := procInfo_foldl_append names c
      obtain ⟨sys', names', hrest, hloop, hlen'⟩ :=
        ih (i + 1) hinv (by rw [hinfo]; exact hagree.tail hsame)
      rw [hinfo] at hrest
      refine ⟨sys', names ++ names', ?_, ?_, ?_⟩
      · simp [resolveFrames, hresolve, hrest]
      · rw [frameLoop, hframe, List.foldl_append]
        exact hloop
      · simp only [List.mem_append]
        rintro name (hname | hname)
        · exact hlen name hname
        · exact hlen' name hname

/-- The folded stack of a process that is not recycled. -/
theorem flameBufferOf_eq {callchain : CallchainResult} {reads : SampleReads} (hsys : sys.Sound)
    (hparsed : reads.Parsed) (hsame : NotRecycled filterMode sys callchain reads) :
    flameBufferOf filterMode sys callchain reads =
        some (((resolvedNames filterMode sys callchain reads).foldl Flame.append
          (enterSample sys callchain reads.process).2).flameBuffer) ∧
      ∀ name ∈ resolvedNames filterMode sys callchain reads, name.length ≤ 511 := by
  obtain ⟨hlo, hhi⟩ := intPid_range callchain
  obtain ⟨sys', names, hresolve, hloop, hlen⟩ := frameLoop_resolve hlo hhi hparsed.frame
    (allIps callchain) 0 (enterSample_spec hsys callchain hparsed.process).1 hsame
  have hnames : resolvedNames filterMode sys callchain reads = names := by
    simp only [resolvedNames, hresolve, Option.map_some, Option.getD_some]
  rw [hnames]
  refine ⟨?_, hlen⟩
  simp only [flameBufferOf, afterFrames, List.take_length, hloop, Option.map_some]

end

/-- **When the stack is cut at the end.**  If the process is not recycled, the
folded stack is the header with the names of the first frames behind it, if and
only if no name behind the first one that does not fit would fit in its place. -/
theorem folded_stack_prefix_iff {filterMode : FilterMode} {sys : SystemContext}
    {callchain : CallchainResult} {reads : SampleReads} (hsys : sys.Sound)
    (hparsed : reads.Parsed) (hsame : NotRecycled filterMode sys callchain reads) :
    (∃ m, flameBufferOf filterMode sys callchain reads =
        some (foldedStack (stackHeader sys callchain reads.process)
          ((resolvedNames filterMode sys callchain reads).take m))) ↔
      CutAtEnd (stackHeader sys callchain reads.process)
        (resolvedNames filterMode sys callchain reads) := by
  obtain ⟨-, hheader, hcounted, hroom⟩ :=
    enterSample_spec hsys callchain hparsed.process
  rw [(flameBufferOf_eq hsys hparsed hsame).1]
  simp only [Option.some.injEq]
  have hstack : stackHeader sys callchain reads.process =
      (enterSample sys callchain reads.process).2.flameBuffer := hheader.symm
  rw [hstack]
  exact foldl_append_prefix_iff _ _ hcounted (by omega)

/-! ## A chain in the kernel -/

theorem length_foldedStack (header : CString) (names : List CString) :
    (foldedStack header names).length =
      header.length + (names.map fun name => name.length + 1).sum := by
  simp only [foldedStack, List.length_append, List.length_flatMap, List.length_cons]

/-- Nothing is known yet but the kernel's symbols. -/
def withSymbols (kernelSymbols : RbTree KernelSymbol) : SystemContext where
  processTable _ := []
  elfCache _ := []
  kernelSymbols := some kernelSymbols
  monotonicStartNs := 0
  realtimeStartNs := 0
  fresh := 0

theorem sound_withSymbols (kernelSymbols : RbTree KernelSymbol) : (withSymbols kernelSymbols).Sound :=
  sound_of_reachable (s := ⟨withSymbols kernelSymbols, none, []⟩)
    ⟨_, [], ⟨rfl, rfl, rfl, rfl⟩, rfl⟩

/-- A sample of process 7 with this address and chain. -/
def chainSample (ip : UInt64) (ips : List UInt64) : CallchainResult where
  timestampNs := 1
  pid := 7
  tid := 7
  ip := ip
  nr := ips.length
  ips i := ips.getD i 0

theorem allIps_chainSample {ip : UInt64} {ips : List UInt64} (hip : ip ≠ 0)
    (h : ∀ x ∈ ip :: ips, x < perfContextMax) : allIps (chainSample ip ips) = ip :: ips := by
  have hentries : (chainSample ip ips).entries = ips := by
    refine List.ext_getElem (by simp [CallchainResult.entries, chainSample]) fun i h₁ h₂ => ?_
    simp [CallchainResult.entries, chainSample, getElem_slice, h₂]
  have hfilter : ips.filter (fun x => x < perfContextMax) = ips :=
    List.filter_eq_self.mpr fun x hx => by simpa using h x (List.mem_cons_of_mem ip hx)
  rw [allIps, hentries, hfilter, if_pos ⟨hip, h ip List.mem_cons_self⟩]
  rfl

/-- What is answered where no process can be looked up. -/
def noProcess : SampleReads where
  process := ⟨false, false, false, 0, none, none, false, none⟩
  frame _ := ⟨0, ⟨false, false, false, 0, none, none, false, none⟩, ⟨fun _ => none, false, false⟩⟩

theorem parsed_noProcess : noProcess.Parsed :=
  ⟨by simp [ProcReads.Parsed, noProcess], fun _ => by simp [ProcReads.Parsed, noProcess]⟩

/-- The names of frames in the kernel. -/
theorem resolveFrames_kernel {pid : Int} {procInfo : Option Nat} {reads : Nat → FrameReads}
    {sys : SystemContext} (ips : List UInt64) (hkernel : ∀ ip ∈ ips, isKernelAddr ip = true)
    (i : Nat) : resolveFrames .all pid procInfo reads i ips sys =
      some (sys, ips.map (kernelFuncName sys)) := by
  induction ips generalizing i with
  | nil => rfl
  | cons ip ips ih =>
      have hip := hkernel ip List.mem_cons_self
      have htail := ih (fun x hx => hkernel x (List.mem_cons_of_mem ip hx)) (i + 1)
      simp [resolveFrames, resolveFrame, filteredOut, hip, htail]

/-- The frames of a chain in the kernel. -/
theorem frameLoop_kernelChain {pid : Int} {reads : Nat → FrameReads} {sys : SystemContext}
    (ips : List UInt64) (hkernel : ∀ ip ∈ ips, isKernelAddr ip = true) (i : Nat) (c : Flame) :
    frameLoop .all pid reads i ips sys c =
      some (sys, (ips.map (kernelFuncName sys)).foldl Flame.append c) := by
  induction ips generalizing i c with
  | nil => rfl
  | cons ip ips ih =>
      have hframe : symbolizeFrame .all pid sys c ip (reads i) =
          some (sys, c.append (kernelFuncName sys ip)) := by
        simp [symbolizeFrame, filteredOut, hkernel ip List.mem_cons_self, kernelFuncName]
      rw [frameLoop, hframe]
      exact ih (fun x hx => hkernel x (List.mem_cons_of_mem ip hx)) (i + 1) _

theorem enterSample_noProcess (kernelSymbols : RbTree KernelSymbol) (callchain : CallchainResult) :
    enterSample (withSymbols kernelSymbols) callchain noProcess.process =
      ({ withSymbols kernelSymbols with fresh := 1 },
        (Flame.enter ⟨none, [], [], 0⟩ none).header callchain.intPid) := rfl

theorem resolvedNames_kernel {kernelSymbols : RbTree KernelSymbol} {ip : UInt64}
    {ips : List UInt64} (hip : ip ≠ 0) (h : ∀ x ∈ ip :: ips, x < perfContextMax)
    (hkernel : ∀ x ∈ ip :: ips, isKernelAddr x = true) :
    resolvedNames .all (withSymbols kernelSymbols) (chainSample ip ips) noProcess =
      (ip :: ips).map (kernelFuncName (withSymbols kernelSymbols)) := by
  simp only [resolvedNames, enterSample_noProcess, allIps_chainSample hip h]
  rw [resolveFrames_kernel _ hkernel]
  rfl

theorem notRecycled_noProcess {filterMode : FilterMode} {kernelSymbols : RbTree KernelSymbol}
    {callchain : CallchainResult} :
    NotRecycled filterMode (withSymbols kernelSymbols) callchain noProcess := by
  intro identity _ hinfo
  rw [enterSample_noProcess] at hinfo
  cases hinfo

/-- Two addresses in the kernel. -/
theorem kernelIps {x : UInt64} (h : x = 0xffffffff81000000 ∨ x = 0xffffffff81000100) :
    x < perfContextMax ∧ isKernelAddr x = true := by
  rcases h with rfl | rfl <;> exact ⟨by decide, by decide⟩

/-- A symbol, and one with a short name above it. -/
def longAndShort (longName : CString) : RbTree KernelSymbol :=
  .node .black .nil ⟨0xffffffff81000000, longName⟩
    (.node .red .nil ⟨0xffffffff81000100, cstr "f"⟩ .nil)

theorem folded_stack_prefix_iff_one :
    ∃ m, flameBufferOf .all (withSymbols (longAndShort (cstr "g")))
        (chainSample 0xffffffff81000100 []) noProcess =
      some (foldedStack (stackHeader (withSymbols (longAndShort (cstr "g")))
          (chainSample 0xffffffff81000100 []) noProcess.process)
        ((resolvedNames .all (withSymbols (longAndShort (cstr "g")))
          (chainSample 0xffffffff81000100 []) noProcess).take m)) :=
  (folded_stack_prefix_iff (sound_withSymbols _) parsed_noProcess
    notRecycled_noProcess).mpr fun i j hij name hname later hlater => by
      rw [resolvedNames_kernel (by decide) (fun x hx => (kernelIps (.inr (by simpa using hx))).1)
        fun x hx => (kernelIps (.inr (by simpa using hx))).2] at hlater
      obtain ⟨j, rfl⟩ := Nat.exists_eq_succ_of_ne_zero (Nat.ne_zero_of_lt hij)
      simp at hlater

/-- 62 frames of the first symbol, and one of the second. -/
def longThenShort : CallchainResult :=
  chainSample 0xffffffff81000000 (List.replicate 61 0xffffffff81000000 ++ [0xffffffff81000100])

section

variable {longName : CString}

theorem kernelFuncName_long (hlong : longName.length = 255) :
    kernelFuncName (withSymbols (longAndShort longName)) 0xffffffff81000000 =
      longName ++ cstr " [kernel]" := by
  have hfind : findKernelSymbol (withSymbols (longAndShort longName)).kernelSymbols
      0xffffffff81000000 = longName := by
    simp [withSymbols, longAndShort, findKernelSymbol, kernelSymbolLoop]
  rw [kernelFuncName, hfind]
  exact List.take_of_length_le (by simp [hlong, cstr])

theorem kernelFuncName_short (longName : CString) :
    kernelFuncName (withSymbols (longAndShort longName)) 0xffffffff81000100 =
      cstr "f [kernel]" := by
  have hfind : findKernelSymbol (withSymbols (longAndShort longName)).kernelSymbols
      0xffffffff81000100 = cstr "f" := by
    simp [withSymbols, longAndShort, findKernelSymbol, kernelSymbolLoop]
  rw [kernelFuncName, hfind]
  decide

theorem resolvedNames_longThenShort (hlong : longName.length = 255) :
    resolvedNames .all (withSymbols (longAndShort longName)) longThenShort noProcess =
      List.replicate 62 (longName ++ cstr " [kernel]") ++ [cstr "f [kernel]"] := by
  have hmem : ∀ x ∈ (0xffffffff81000000 : UInt64) ::
      (List.replicate 61 0xffffffff81000000 ++ [0xffffffff81000100]),
      x = 0xffffffff81000000 ∨ x = 0xffffffff81000100 := by
    simp
  rw [longThenShort, resolvedNames_kernel (by decide) (fun x hx => (kernelIps (hmem x hx)).1)
    fun x hx => (kernelIps (hmem x hx)).2, ← List.cons_append, ← List.replicate_succ,
    List.map_append, List.map_replicate, kernelFuncName_long hlong, List.map_singleton,
    kernelFuncName_short]

/-- The last long name does not fit, and the short one behind it does. -/
theorem short_name_fits (hlong : longName.length = 255) :
    ¬CutAtEnd (cstr "unknown[7]")
      (List.replicate 62 (longName ++ cstr " [kernel]") ++ [cstr "f [kernel]"]) := by
  have hname : (longName ++ cstr " [kernel]").length = 264 := by simp [hlong, cstr]
  generalize longName ++ cstr " [kernel]" = name at hname
  have htake : (List.replicate 62 name ++ [cstr "f [kernel]"]).take 61 = List.replicate 61 name := by
    rw [List.take_append_of_le_length (by simp), List.take_replicate]
    rfl
  have hlen : (foldedStack (cstr "unknown[7]") (List.replicate 61 name)).length = 16175 := by
    rw [length_foldedStack, List.map_replicate, List.sum_replicate, hname]
    rfl
  have hshort : (cstr "f [kernel]").length = 10 := rfl
  intro hcut
  have hat := hcut 61 62 (by decide) name (by simp) (cstr "f [kernel]") (by simp)
  rw [htake, hlen] at hat
  omega

/-- So the stack has a hole in front of its last frame. -/
theorem stack_with_hole (hlong : longName.length = 255) :
    ¬∃ m, flameBufferOf .all (withSymbols (longAndShort longName)) longThenShort noProcess =
      some (foldedStack (stackHeader (withSymbols (longAndShort longName)) longThenShort
          noProcess.process)
        ((resolvedNames .all (withSymbols (longAndShort longName)) longThenShort
          noProcess).take m)) := by
  have hsound := sound_withSymbols (longAndShort longName)
  obtain ⟨-, hbuffer, hcounted, hroom⟩ :=
    enterSample_spec hsound longThenShort parsed_noProcess.process
  have hstack : stackHeader (withSymbols (longAndShort longName)) longThenShort noProcess.process =
      (enterSample (withSymbols (longAndShort longName)) longThenShort
        noProcess.process).2.flameBuffer := hbuffer.symm
  have hheader : stackHeader (withSymbols (longAndShort longName)) longThenShort
      noProcess.process = cstr "unknown[7]" := by
    have hpid : cstr (toString longThenShort.intPid) = cstr "7" := by decide
    rw [stackHeader, enterSample_noProcess, hpid]
    rfl
  rw [(flameBufferOf_eq hsound parsed_noProcess notRecycled_noProcess).1,
    resolvedNames_longThenShort hlong]
  simp only [Option.some.injEq]
  rw [hstack, foldl_append_prefix_iff _ _ hcounted (by omega), ← hstack, hheader]
  exact short_name_fits hlong

end

/-- 62 frames with names of 264 bytes, and one with a name of ten. -/
theorem folded_stack_drops_middle :
    longThenShort.nr ≤ maxStackDepthCopy ∧
    (¬∃ m, flameBufferOf .all (withSymbols (longAndShort (List.replicate 255 97))) longThenShort
        noProcess =
      some (foldedStack (stackHeader (withSymbols (longAndShort (List.replicate 255 97)))
          longThenShort noProcess.process)
        ((resolvedNames .all (withSymbols (longAndShort (List.replicate 255 97))) longThenShort
          noProcess).take m))) ∧
    ¬∀ filterMode sys callchain reads, sys.Sound → reads.Parsed →
      callchain.nr ≤ maxStackDepthCopy → NotRecycled filterMode sys callchain reads →
      ∃ m, flameBufferOf filterMode sys callchain reads =
        some (foldedStack (stackHeader sys callchain reads.process)
          ((resolvedNames filterMode sys callchain reads).take m)) := by
  have hnr : longThenShort.nr ≤ maxStackDepthCopy := by decide
  have hhole := stack_with_hole (List.length_replicate (n := 255) (a := 97))
  exact ⟨hnr, hhole, fun hall => hhole (hall _ _ _ _ (sound_withSymbols _) parsed_noProcess hnr
    notRecycled_noProcess)⟩

/-! ## A process that is gone -/

theorem flame_len_bounded_iff_kernel :
    ∃ sys' c', afterFrames .all (withSymbols (longAndShort (cstr "g")))
        (chainSample 0xffffffff81000100 []) noProcess 1 = some (sys', c') ∧
      c'.flameLen = c'.flameBuffer.length ∧ c'.flameLen ≤ 16383 :=
  (flame_len_bounded_iff (sound_withSymbols _) parsed_noProcess).mpr
    (fun n currentIp hip sys' c' _ hgone => by
      have hmem := List.mem_of_getElem? hip
      rw [allIps_chainSample (by decide) fun x hx => (kernelIps (.inr (by simpa using hx))).1]
        at hmem
      obtain rfl := List.mem_singleton.mp hmem
      exact absurd hgone.1 (by decide)) 1 (by decide)

/-- What is answered about a process `a` that runs when the sample is taken up,
and is gone afterwards. -/
def leavingProcess : SampleReads where
  process := ⟨true, true, true, 5, some (cstr "a"), none, true, some .nil⟩
  frame _ := ⟨0, ⟨true, true, true, 0, none, none, false, none⟩, ⟨fun _ => none, false, false⟩⟩

theorem parsed_leavingProcess : leavingProcess.Parsed :=
  ⟨by simp [ProcReads.Parsed, leavingProcess, RbTree.toList],
    fun _ => by simp [ProcReads.Parsed, leavingProcess]⟩

/-- The record of that process. -/
def leavingNode : ProcessNode where
  addr := 0
  info := ⟨7, 5, some (cstr "a"), some (cstr "a"), .nil⟩

/-- The tables with this record. -/
def withLeaving (kernelSymbols : RbTree KernelSymbol) : SystemContext :=
  { withSymbols kernelSymbols with
    processTable := Function.update (fun _ => []) (hashPid 7) [leavingNode]
    fresh := 1 }

/-- 62 frames in the kernel, and one in the process. -/
def longThenUser : CallchainResult :=
  chainSample 0xffffffff81000000 (List.replicate 61 0xffffffff81000000 ++ [0x401136])

theorem allIps_longThenUser : allIps longThenUser =
    List.replicate 62 0xffffffff81000000 ++ [0x401136] := by
  refine allIps_chainSample (by decide) fun x hx => ?_
  have hx : x = 0xffffffff81000000 ∨ x = 0x401136 := by simpa using hx
  rcases hx with rfl | rfl <;> decide

section

variable {longName : CString}

/-- The string behind the frames in the kernel. -/
theorem length_behind_kernel (hlong : longName.length = 254) :
    (foldedStack (cstr "a[7]") (List.replicate 62 (longName ++ cstr " [kernel]"))).length =
      16372 := by
  have hname : (longName ++ cstr " [kernel]").length = 263 := by simp [hlong, cstr]
  rw [length_foldedStack, List.map_replicate, List.sum_replicate, hname]
  rfl

/-- In front of the loop. -/
theorem enterSample_longThenUser (kernelSymbols : RbTree KernelSymbol) :
    enterSample (withSymbols kernelSymbols) longThenUser leavingProcess.process =
      (withLeaving kernelSymbols, ⟨some 0, cstr "a", cstr "a[7]", 4⟩) := by
  have hpid : longThenUser.intPid = 7 := by decide
  have hheader : (Flame.enter ⟨none, [], [], 0⟩ (some leavingNode)).header 7 =
      ⟨some 0, cstr "a", cstr "a[7]", 4⟩ := by decide
  rw [enterSample, hpid, ← hheader]
  rfl

/-- At a user-space address the pid turns out to be gone. -/
theorem foundGone_withLeaving (kernelSymbols : RbTree KernelSymbol) {c : Flame}
    (hinv : FrameInv 7 (withLeaving kernelSymbols) c) (hinfo : c.procInfo = some 0) (i : Nat) :
    FoundGone .all 7 (withLeaving kernelSymbols) c 0x401136 (leavingProcess.frame i) := by
  obtain ⟨node, hderef, hpresent, hpid⟩ := hinv.deref hinfo
  have hnode : node = leavingNode := by
    rw [Present, hpid] at hpresent
    simpa [withLeaving] using hpresent
  obtain ⟨lost, hbalanced⟩ := hinv.sound.balanced
  have hnone := findProcess_removeProcess hbalanced.table 7
  refine ⟨by decide, 0, node, hinfo, hderef, by rw [hnode]; exact (by decide : 5 ≠ 0), ?_⟩
  simp only [SystemContext.recycle, SystemContext.findNew, findNewProcess, hpid, hnone]
  rfl

/-- The locals behind the frames in the kernel. -/
def behindKernel (longName : CString) : Flame :=
  (List.replicate 62 (longName ++ cstr " [kernel]")).foldl Flame.append
    ⟨some 0, cstr "a", cstr "a[7]", 4⟩

theorem afterFrames_kernel (hlong : longName.length = 254) :
    afterFrames .all (withSymbols (longAndShort longName)) longThenUser leavingProcess 62 =
      some (withLeaving (longAndShort longName), behindKernel longName) := by
  have hname : kernelFuncName (withLeaving (longAndShort longName)) 0xffffffff81000000 =
      longName ++ cstr " [kernel]" := by
    have hfind : findKernelSymbol (withLeaving (longAndShort longName)).kernelSymbols
        0xffffffff81000000 = longName := by
      simp [withLeaving, withSymbols, longAndShort, findKernelSymbol, kernelSymbolLoop]
    rw [kernelFuncName, hfind]
    exact List.take_of_length_le (by simp [hlong, cstr])
  have htake : (allIps longThenUser).take 62 = List.replicate 62 0xffffffff81000000 := by
    rw [allIps_longThenUser]
    exact List.take_left' List.length_replicate
  have hkernel : ∀ ip ∈ List.replicate 62 (0xffffffff81000000 : UInt64),
      isKernelAddr ip = true := fun ip hip => by
    rw [List.eq_of_mem_replicate hip]
    exact (kernelIps (.inl rfl)).2
  rw [afterFrames, htake, enterSample_longThenUser, frameLoop_kernelChain _ hkernel,
    List.map_replicate, hname, behindKernel]

/-- So there is room for 11 more bytes. -/
theorem flameLen_behindKernel (hlong : longName.length = 254) :
    (behindKernel longName).flameLen = 16372 := by
  have hlen := length_behind_kernel hlong
  have hcounted : Flame.Counted ⟨some 0, cstr "a", cstr "a[7]", 4⟩ :=
    (by decide : 4 = (cstr "a[7]").length)
  rw [behindKernel, flameLen_foldl_append _ _ hcounted (by rw [hlen]; decide), hlen]

/-- And the 19 bytes for the process that is gone are written over the end. -/
theorem flameLen_gone (hlong : longName.length = 254) {sys : SystemContext} {c : Flame}
    (h : afterFrames .all (withSymbols (longAndShort longName)) longThenUser leavingProcess 63 =
      some (sys, c)) : c.flameLen = 16391 := by
  have hsound := sound_withSymbols (longAndShort longName)
  have hlength : (allIps longThenUser).length = 63 := by
    rw [allIps_longThenUser]
    rfl
  have hlast : 62 < (allIps longThenUser).length := by omega
  have hip : (allIps longThenUser)[62] = 0x401136 := by
    simp [allIps_longThenUser]
  have hafter := afterFrames_kernel hlong
  have hcounted := counted_afterFrames hsound parsed_leavingProcess (by omega) hafter
  obtain ⟨sys₁, c₁, hafter₁, hinv⟩ :=
    afterFrames_inv hsound longThenUser parsed_leavingProcess .all
      (n := 62) (by omega)
  obtain ⟨rfl, rfl⟩ := Prod.mk.inj (Option.some.inj (hafter₁.symm.trans hafter))
  have hpid : longThenUser.intPid = 7 := by decide
  rw [afterFrames_succ (by omega), hafter, Option.bind_some, hip] at h
  rw [hpid] at h hinv
  have hgone := foundGone_withLeaving (longAndShort longName) hinv (procInfo_foldl_append _ _) 62
  rw [(symbolizeFrame_length hcounted h).2.1 hgone, flameLen_behindKernel hlong]

end

/-- 62 frames in the kernel leave 12 bytes of `flame_buffer`, and 19 are
written behind them. -/
theorem recycled_frame_overflows :
    longThenUser.nr ≤ maxStackDepthCopy ∧
    ¬(∀ n ≤ (allIps longThenUser).length, ∃ sys' c',
        afterFrames .all (withSymbols (longAndShort (List.replicate 254 97))) longThenUser
          leavingProcess n = some (sys', c') ∧
        c'.flameLen = c'.flameBuffer.length ∧ c'.flameLen ≤ 16383) ∧
    ¬∀ filterMode sys callchain reads, sys.Sound → reads.Parsed →
      callchain.nr ≤ maxStackDepthCopy → ∀ n ≤ (allIps callchain).length, ∃ sys' c',
        afterFrames filterMode sys callchain reads n = some (sys', c') ∧
          c'.flameLen = c'.flameBuffer.length ∧ c'.flameLen ≤ 16383 := by
  have hnr : longThenUser.nr ≤ maxStackDepthCopy := by decide
  have hlength : 63 ≤ (allIps longThenUser).length := by
    rw [allIps_longThenUser]
    decide
  have hover : ¬∀ n ≤ (allIps longThenUser).length, ∃ sys' c',
      afterFrames .all (withSymbols (longAndShort (List.replicate 254 97))) longThenUser
        leavingProcess n = some (sys', c') ∧
      c'.flameLen = c'.flameBuffer.length ∧ c'.flameLen ≤ 16383 := by
    intro hall
    obtain ⟨sys, c, hafter, -, hle⟩ := hall 63 hlength
    rw [flameLen_gone (List.length_replicate (n := 254) (a := 97)) hafter] at hle
    omega
  exact ⟨hnr, hover, fun hall => hover (hall _ _ _ _ (sound_withSymbols _)
    parsed_leavingProcess hnr)⟩

end Profiling
