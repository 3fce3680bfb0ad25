import Profiling.Database.Release
import Profiling.Symbolize

/-!
# Profiling.Symbolize.Room

The room for a stack string in a chunk of `entry_pool`.  `db_writer_init`
takes 257 bytes for each level of the stack depth; `db_writer_push_stack`
copies the string of `symbolize_sample` without a check.

The string is cut to 16639 bytes and nothing else bounds it by the depth: a
frame takes up to 512 bytes, the name is in it twice, and the sampled address
comes on top of the chain.  So it always fits just if the room is that of the
longest string (`stack_str_fits_iff`).
-/

namespace Profiling

/-! ## The size of a chunk -/

/-- `max_stack_depth * 257`, an `int` -/
def stackRoom (maxStackDepth : Int) : Int := (maxStackDepth * 257).bmod (2 ^ 32)

/-- `max_stack_str_len`, a `size_t` -/
def maxStackStrLen (maxStackDepth : Int) : Nat := (stackRoom maxStackDepth % 2 ^ 64).toNat

/-- `entry_size` -/
def entrySize (maxStackDepth : Int) : Nat :=
  (sizeofDbEntry + maxStackStrLen maxStackDepth) % 2 ^ 64

/-- The string and its terminator fit behind the `db_entry_t`. -/
def FitsEntry (maxStackDepth : Int) (stackStr : CString) : Prop :=
  stackStr.length + 1 ≤ maxStackStrLen maxStackDepth ∧
    sizeofDbEntry + (stackStr.length + 1) ≤ entrySize maxStackDepth

instance (maxStackDepth : Int) (stackStr : CString) :
    Decidable (FitsEntry maxStackDepth stackStr) := inferInstanceAs (Decidable (_ ∧ _))

/-- Every sample of a chain that the depth allows fits. -/
def EverySampleFits (maxStackDepth : Int) : Prop :=
  ∀ filterMode sys callchain reads sys' timestampNs stackStr,
    (callchain.nr : Int) ≤ min maxStackDepth maxStackDepthCopy →
    symbolizeSample filterMode sys callchain reads = some (sys', timestampNs, stackStr) →
    FitsEntry maxStackDepth stackStr

/-- The buffer bounds the string of every sample. -/
theorem length_stackStr_le {filterMode : FilterMode} {sys sys' : SystemContext}
    {callchain : CallchainResult} {reads : SampleReads} {timestampNs : UInt64} {stackStr : CString}
    (h : symbolizeSample filterMode sys callchain reads = some (sys', timestampNs, stackStr)) :
    stackStr.length ≤ 16639 := by
  obtain ⟨⟨_, c⟩, -, heq⟩ := Option.map_eq_some_iff.mp h
  rw [← (Prod.mk.inj (Prod.mk.inj heq).2).2, dbStackStr, List.length_take]
  exact Nat.min_le_left _ _

theorem stackRoom_range (d : Int) : -2 ^ 31 ≤ stackRoom d ∧ stackRoom d < 2 ^ 31 := by
  have hlo := Int.le_bmod (x := d * 257) (m := 2 ^ 32) (by decide)
  have hhi := Int.bmod_lt (x := d * 257) (m := 2 ^ 32) (by decide)
  unfold stackRoom
  omega

/-- There is room for the longest string. -/
theorem fitsEntry_of_room {d : Int} (hroom : 16640 ≤ stackRoom d ∨ stackRoom d < -16)
    {stackStr : CString} (hlen : stackStr.length ≤ 16639) : FitsEntry d stackStr := by
  have hrange := stackRoom_range d
  simp only [FitsEntry, entrySize, maxStackStrLen, sizeofDbEntry]
  omega

/-! ## Long names -/

/-- A command line of one word without a path is the name. -/
theorem storedName_of_cmdline {reads : ProcReads} {name : CString} (pid : Int)
    (hcomm : reads.comm = none) (hcmdline : reads.cmdline = some name)
    (hdup : reads.dupName = true) (hne : name ≠ []) (hlen : name.length ≤ 4095)
    (hclean : ∀ b ∈ name, b ≠ 0 ∧ b ≠ 32 ∧ b ≠ 47) : storedName reads pid = some name := by
  have hread : readCmdline (some name) = some name := by
    have hkeep : name.dropLast.map (fun b => if b = 0 then 32 else b) = name.dropLast := by
      refine (List.map_congr_left fun b hb => ?_).trans (List.map_id _)
      rw [if_neg (hclean b (List.dropLast_subset _ hb)).1, id]
    have hwhole : name.dropLast ++ name.getLast?.toList = name := by
      rw [List.getLast?_eq_some_getLast hne]
      exact List.dropLast_append_getLast hne
    rw [readCmdline, Option.bind_some, List.take_of_length_le hlen, if_neg hne, hkeep, hwhole,
      untilNul, List.takeWhile_eq_self_iff.mpr fun b hb => by simpa using (hclean b hb).1]
  have hword : name.takeWhile (· ≠ 32) = name :=
    List.takeWhile_eq_self_iff.mpr fun b hb => by simpa using (hclean b hb).2.1
  have hbase : basename name = name := by
    rw [basename, List.takeWhile_eq_self_iff.mpr fun b hb => by
      simpa using (hclean b (List.mem_reverse.mp hb)).2.2, List.reverse_reverse]
  obtain ⟨b, rest, rfl⟩ := List.exists_cons_of_ne_nil hne
  simp only [storedName, hcomm, readComm, Option.bind_none, hcmdline, hread, hdup, if_true,
    hword, hbase]

/-- Frames of one kernel function. -/
theorem frameLoop_kernel {filterMode : FilterMode} {pid : Int} {reads : Nat → FrameReads}
    {sys : SystemContext} {ip : UInt64} (hshown : filteredOut filterMode ip = false)
    (hkernel : isKernelAddr ip = true) (i n : Nat) (c : Flame) :
    frameLoop filterMode pid reads i (List.replicate n ip) sys c =
      some (sys, (fun c => Flame.append c
        ((findKernelSymbol sys.kernelSymbols ip ++ cstr " [kernel]").take 511))^[n] c) := by
  induction n generalizing i c with
  | zero => rfl
  | succ n ih =>
      rw [List.replicate_succ, frameLoop, symbolizeFrame, hshown, hkernel, Function.iterate_succ,
        Function.comp_apply]
      exact ih (i + 1) _

/-- Frames are appended until there is no room for one more. -/
theorem append_iterate {funcName : CString} (n : Nat) {c : Flame}
    (hlen : c.flameBuffer.length = c.flameLen) :
    let c' := (fun c => Flame.append c funcName)^[n] c
    c'.processName = c.processName ∧ c'.flameBuffer.length = c'.flameLen ∧
      min (16382 - funcName.length) (c.flameLen + (funcName.length + 1) * n) ≤ c'.flameLen := by
  induction n generalizing c with
  | zero => exact ⟨rfl, hlen, by simp⟩
  | succ n ih =>
      have happend : (c.append funcName).processName = c.processName ∧
          (c.append funcName).flameBuffer.length = (c.append funcName).flameLen ∧
          min (16382 - funcName.length) (c.flameLen + (funcName.length + 1)) ≤
            (c.append funcName).flameLen := by
        unfold Flame.append
        split
        · refine ⟨rfl, ?_, ?_⟩
          · simp [hlen]
            omega
          · dsimp only
            omega
        · refine ⟨rfl, hlen, ?_⟩
          omega
      obtain ⟨hname, hlen', hmin⟩ := happend
      obtain ⟨hname', hlen'', hmin'⟩ := ih hlen'
      refine ⟨hname'.trans hname, hlen'', ?_⟩
      rw [Function.iterate_succ, Function.comp_apply]
      refine le_trans ?_ hmin'
      rw [Nat.mul_succ]
      omega

/-! ## A sample that is too long -/

/-- Nothing is known yet, and the kernel has one symbol. -/
def kernelOnly (symbol : CString) : SystemContext where
  processTable _ := []
  elfCache _ := []
  kernelSymbols := some (.node .black .nil ⟨0, symbol⟩ .nil)
  monotonicStartNs := 0
  realtimeStartNs := 0
  fresh := 0

/-- What is answered for a process with this command line. -/
def cmdlineReads (cmdline : CString) : SampleReads where
  process := ⟨true, true, true, 0, none, some cmdline, true, some .nil⟩
  frame _ := ⟨0, ⟨true, true, true, 0, none, some cmdline, true, some .nil⟩,
    ⟨fun _ => none, true, true⟩⟩

/-- A sample in the kernel, with a chain of `n` addresses. -/
def kernelSample (n : Nat) : CallchainResult where
  timestampNs := 1
  pid := 7
  tid := 7
  ip := 0xffffffff81000000
  nr := n
  ips _ := 0xffffffff81000000

theorem allIps_kernelSample (n : Nat) :
    allIps (kernelSample n) = List.replicate (n + 1) 0xffffffff81000000 := by
  have hentries : (kernelSample n).entries = List.replicate n 0xffffffff81000000 := by
    simp [CallchainResult.entries, slice, kernelSample]
  have hkeep : (List.replicate n (0xffffffff81000000 : UInt64)).filter (· < perfContextMax) =
      List.replicate n 0xffffffff81000000 :=
    List.filter_eq_self.mpr fun ip hip => by rw [List.eq_of_mem_replicate hip]; decide
  have hip :
      (0xffffffff81000000 : UInt64) ≠ 0 ∧ (0xffffffff81000000 : UInt64) < perfContextMax := by
    decide
  rw [allIps, hentries, hkeep, kernelSample, if_pos hip]
  rfl

/-- How long the string of such a sample is: the name takes 1000 bytes, and
each frame 265. -/
theorem length_kernelSample {name symbol : CString} (hname : name.length = 1000)
    (hclean : ∀ b ∈ name, b ≠ 0 ∧ b ≠ 32 ∧ b ≠ 47) (hsymbol : symbol.length = 255) (n : Nat) :
    ∃ sys' timestampNs stackStr,
      symbolizeSample .all (kernelOnly symbol) (kernelSample n) (cmdlineReads name) =
        some (sys', timestampNs, stackStr) ∧
      min 16639 (1003 + min 16118 (1003 + 265 * (n + 1))) ≤ stackStr.length := by
  have hstored : storedName (cmdlineReads name).process 7 = some name :=
    storedName_of_cmdline 7 rfl rfl rfl (List.ne_nil_of_length_pos (by omega)) (by omega) hclean
  obtain ⟨node, hfound, hnode⟩ : ∃ node,
      ((kernelOnly symbol).findNew 7 (cmdlineReads name).process).2 = some node ∧
        node.info.processName = some name := ⟨_, rfl, hstored⟩
  let sys₁ := ((kernelOnly symbol).findNew 7 (cmdlineReads name).process).1
  let c := (Flame.enter ⟨none, [], [], 0⟩ (some node)).header 7
  have hpid : (Int.repr 7).toList.length = 1 := by decide
  have hcname : c.processName = name := by simp [c, Flame.header, Flame.enter, hnode]
  have hcheader : c.flameLen = 1003 ∧ c.flameBuffer.length = c.flameLen := by
    simp [c, Flame.header, Flame.enter, hnode, hname, hpid, cstr]
  have hfunc : (findKernelSymbol sys₁.kernelSymbols 0xffffffff81000000 ++
      cstr " [kernel]").take 511 = symbol ++ cstr " [kernel]" := by
    have hfind : findKernelSymbol sys₁.kernelSymbols 0xffffffff81000000 = symbol := by
      simp [sys₁, SystemContext.findNew, kernelOnly, findKernelSymbol, kernelSymbolLoop]
    rw [hfind]
    exact List.take_of_length_le (by simp [hsymbol, cstr])
  have hlen : (symbol ++ cstr " [kernel]").length = 264 := by simp [hsymbol, cstr]
  have hloop : frameLoop .all 7 (cmdlineReads name).frame 0
      (List.replicate (n + 1) 0xffffffff81000000) sys₁ c = some (sys₁, _) :=
    frameLoop_kernel rfl (by decide) 0 (n + 1) c
  obtain ⟨hname', hbuffer, hmin⟩ := append_iterate (n + 1) hcheader.2
  rw [hfunc] at hloop
  rw [hlen, hcheader.1] at hmin
  generalize (fun c => Flame.append c (symbol ++ cstr " [kernel]"))^[n + 1] c = c'
    at hloop hname' hbuffer hmin
  refine ⟨sys₁, sys₁.realtimeTimestampNs (kernelSample n),
    dbStackStr 7 c'.processName c'.flameBuffer, ?_, ?_⟩
  · have hint : (kernelSample n).intPid = 7 :=
      (by decide : ((7 : UInt32).toNat : Int).bmod (2 ^ 32) = 7)
    have hcall : (kernelOnly symbol).findNew 7 (cmdlineReads name).process = (sys₁, some node) :=
      Prod.ext rfl hfound
    simp only [symbolizeSample, hint, hcall, allIps_kernelSample]
    rw [hloop]
    rfl
  · have hcname' : c'.processName.length = 1000 := by rw [hname', hcname, hname]
    have hdigit : (cstr (toString (7 : Int))).length = 1 := by decide
    simp only [dbStackStr, List.length_take, List.length_append, List.length_cons, hcname', hbuffer,
      hdigit]
    omega

/-- A thousand letters. -/
def longName : CString := List.replicate 1000 97

/-- A symbol of as many letters as `load_kernel_symbols` reads. -/
def longSymbol : CString := List.replicate 255 107

theorem length_longSample (n : Nat) :
    ∃ sys' timestampNs stackStr,
      symbolizeSample .all (kernelOnly longSymbol) (kernelSample n) (cmdlineReads longName) =
        some (sys', timestampNs, stackStr) ∧
      min 16639 (1003 + min 16118 (1003 + 265 * (n + 1))) ≤ stackStr.length := by
  refine length_kernelSample List.length_replicate (fun b hb => ?_) List.length_replicate n
  rw [List.eq_of_mem_replicate hb]
  decide

/-- Where the room is less than the longest string, some sample does not fit. -/
theorem room_of_everySampleFits {d : Int} (hlo : 1 ≤ d) (h : EverySampleFits d) :
    16640 ≤ stackRoom d ∨ stackRoom d < -16 := by
  by_contra hroom
  rw [not_or, not_le, not_lt] at hroom
  obtain ⟨sys', timestampNs, stackStr, hsample, hlen⟩ := length_longSample (min d 128).toNat
  have hfits := h .all _ (kernelSample (min d 128).toNat) _ _ _ _
    (by simp only [kernelSample, maxStackDepthCopy]; omega) hsample
  have hsmall : d < 128 → stackRoom d = d * 257 := fun hd =>
    Int.bmod_eq_of_le (by omega) (by omega)
  simp only [FitsEntry, entrySize, maxStackStrLen, sizeofDbEntry] at hfits
  rcases Int.lt_or_le (stackRoom d) 0 with hneg | hpos
  · have hmod : stackRoom d % 2 ^ 64 = stackRoom d + 2 ^ 64 := by omega
    rw [hmod] at hfits
    omega
  · have hmod : stackRoom d % 2 ^ 64 = stackRoom d := by omega
    rw [hmod] at hfits
    rcases Int.lt_or_le d 128 with hd | hd
    · rw [hsmall hd] at hfits
      omega
    · omega

/-- **When every string fits.**  The string of every sample fits its chunk if
and only if the room for it, 257 bytes for each level in `int` arithmetic, is
that of the longest string, or wraps around to more. -/
theorem stack_str_fits_iff {d : Int} (hlo : 1 ≤ d) :
    EverySampleFits d ↔ 16640 ≤ stackRoom d ∨ stackRoom d < -16 := by
  refine ⟨room_of_everySampleFits hlo, fun hroom => ?_⟩
  intro filterMode sys callchain reads sys' timestampNs stackStr _ hsample
  exact fitsEntry_of_room hroom (length_stackStr_le hsample)

/-- 65 levels are enough. -/
theorem stack_str_fits_65 : EverySampleFits 65 :=
  (stack_str_fits_iff (by decide)).mpr (.inl (by decide))

/-- The default depth is not: a process with a name of 1000 letters, in kernel
functions with names of 255 letters, one for each level and one for the sampled
address. -/
theorem stack_str_overflows_default :
    defaultConfig.maxStackDepth = 48 ∧
    (∃ sys' timestampNs stackStr,
      symbolizeSample .all (kernelOnly longSymbol) (kernelSample 48) (cmdlineReads longName) =
        some (sys', timestampNs, stackStr) ∧
      ¬FitsEntry 48 stackStr) ∧
    ¬EverySampleFits 48 := by
  obtain ⟨sys', timestampNs, stackStr, hsample, hlen⟩ := length_longSample 48
  have hlong : ¬FitsEntry 48 stackStr := by
    have hroom : maxStackStrLen 48 = 12336 := by decide
    rw [FitsEntry, hroom]
    omega
  have hdepth : ((kernelSample 48).nr : Int) ≤ min 48 maxStackDepthCopy := by
    simp [kernelSample, maxStackDepthCopy]
  exact ⟨rfl, ⟨sys', timestampNs, stackStr, hsample, hlong⟩, fun hall =>
    hlong (hall _ _ _ _ _ _ _ hdepth hsample)⟩

end Profiling
