import Profiling.Symbolize.Recycle

/-!
# Profiling.Symbolize.Display

The loop of `symbolize_sample` that fills `display_buffer`.

`snprintf` returns the length of the whole text, so `display_len` goes on
growing behind the end of the buffer, and the size that is left is computed in
`size_t`.  The lines are indented by two blanks for each frame in front of
them: the offset of the last call is quadratic in the number of frames
(`display_len_bounded_iff`), and 120 frames are enough.
-/

namespace Profiling

/-! ## The calls -/

/-- A call of `snprintf` on `display_buffer`. -/
structure SnprintfCall where
  /-- `display_len` in front of the call -/
  displayLen : Nat
  /-- `sizeof(display_buffer) - display_len` -/
  size : UInt64
  text : CString
  deriving DecidableEq, Repr

/-- `display_len += snprintf(display_buffer + display_len, …)`, behind the calls so far. -/
def callSnprintf (st : Nat × List SnprintfCall) (text : CString) : Nat × List SnprintfCall :=
  (st.1 + text.length, st.2 ++ [⟨st.1, 16384 - UInt64.ofNat st.1, text⟩])

/-- What is written for an address; `known` if `proc_info` is not `NULL`. -/
def displayText (kernelSymbols : Option (RbTree KernelSymbol)) (known : Bool)
    (currentIp : UInt64) : CString :=
  if isKernelAddr currentIp then
    findKernelSymbol kernelSymbols currentIp ++ cstr " [kernel]\n"
  else if known then cstr "[user_function]\n"
  else cstr "[unknown_process]\n"

/-- The display loop, from its `i`-th address on. -/
def displayLoop (kernelSymbols : Option (RbTree KernelSymbol)) (known : Bool) :
    Nat → List UInt64 → Nat × List SnprintfCall → Nat × List SnprintfCall
  | _, [], st => st
  | i, currentIp :: ips, st =>
      let indented := (List.range i).foldl (fun st _ => callSnprintf st (cstr "  ")) st
      displayLoop kernelSymbols known (i + 1) ips
        (callSnprintf indented (displayText kernelSymbols known currentIp))

/-- The calls that `symbolize_sample` makes behind its frame loop. -/
def displayCalls (filterMode : FilterMode) (sys : SystemContext) (callchain : CallchainResult)
    (reads : SampleReads) : Option (List SnprintfCall) :=
  (afterFrames filterMode sys callchain reads (allIps callchain).length).map fun next =>
    (displayLoop next.1.kernelSymbols next.2.procInfo.isSome 0 (allIps callchain) (0, [])).2

/-- The size that is left does not wrap around. -/
def SnprintfCall.InBounds (call : SnprintfCall) : Prop :=
  call.displayLen ≤ 16384 ∧ call.size.toNat = 16384 - call.displayLen

/-! ## The offsets -/

section

variable {kernelSymbols : Option (RbTree KernelSymbol)} {known : Bool}

/-- The texts of the loop, from its `i`-th address on. -/
def displayTexts (kernelSymbols : Option (RbTree KernelSymbol)) (known : Bool) :
    Nat → List UInt64 → List CString
  | _, [] => []
  | i, currentIp :: ips =>
      List.replicate i (cstr "  ") ++ displayText kernelSymbols known currentIp ::
        displayTexts kernelSymbols known (i + 1) ips

theorem foldl_indent (i : Nat) (st : Nat × List SnprintfCall) :
    (List.range i).foldl (fun st _ => callSnprintf st (cstr "  ")) st =
      (List.replicate i (cstr "  ")).foldl callSnprintf st := by
  induction i with
  | zero => rfl
  | succ i ih =>
      rw [List.range_succ, List.foldl_concat, ih, List.replicate_succ', List.foldl_concat]

/-- The loop makes one call for each text. -/
theorem displayLoop_eq (ips : List UInt64) (i : Nat) (st : Nat × List SnprintfCall) :
    displayLoop kernelSymbols known i ips st =
      (displayTexts kernelSymbols known i ips).foldl callSnprintf st := by
  induction ips generalizing i st with
  | nil => rfl
  | cons currentIp ips ih =>
      simp only [displayLoop, displayTexts, ih, foldl_indent, List.foldl_append, List.foldl_cons]

/-- `display_len` is the length of all texts so far. -/
theorem foldl_callSnprintf_len (texts : List CString) (st : Nat × List SnprintfCall) :
    (texts.foldl callSnprintf st).1 = st.1 + (texts.map List.length).sum := by
  induction texts generalizing st with
  | nil => rfl
  | cons text texts ih =>
      rw [List.foldl_cons, ih, List.map_cons, List.sum_cons, ← Nat.add_assoc]
      rfl

/-- A size in bounds does not wrap around. -/
theorem inBounds_iff {displayLen : Nat} {text : CString} :
    SnprintfCall.InBounds ⟨displayLen, 16384 - UInt64.ofNat displayLen, text⟩ ↔
      displayLen ≤ 16384 := by
  refine ⟨And.left, fun h => ⟨h, ?_⟩⟩
  have hlen : (UInt64.ofNat displayLen).toNat = displayLen :=
    UInt64.toNat_ofNat_of_lt' (by rw [UInt64.size]; omega)
  have hsub : (16384 - UInt64.ofNat displayLen).toNat =
      (16384 : UInt64).toNat - (UInt64.ofNat displayLen).toNat :=
    UInt64.toNat_sub_of_le _ _ (UInt64.le_iff_toNat_le.mpr (by rw [hlen]; exact h))
  rw [hsub, hlen]
  rfl

/-- The calls are in bounds if the last one is. -/
theorem foldl_callSnprintf_inBounds (texts : List CString) :
    (∀ call ∈ (texts.foldl callSnprintf (0, [])).2, call.InBounds) ↔
      ((texts.dropLast).map List.length).sum ≤ 16384 := by
  induction texts using List.reverseRecOn with
  | nil => simp
  | append_singleton texts text ih =>
      have hlast := foldl_callSnprintf_len texts (0, [])
      rw [Nat.zero_add] at hlast
      have hmono : ((texts.dropLast).map List.length).sum ≤ (texts.map List.length).sum :=
        ((List.dropLast_sublist texts).map List.length).sum_le_sum fun _ _ => Nat.zero_le _
      rw [List.foldl_concat, callSnprintf, List.dropLast_concat, hlast]
      simp only [List.forall_mem_append, List.forall_mem_singleton, ih, inBounds_iff]
      omega

/-- The length of all texts but the last: the indentations add up to a square. -/
theorem sum_displayTexts_dropLast (ips : List UInt64) (i : Nat) :
    ((displayTexts kernelSymbols known i ips).dropLast.map List.length).sum =
      ips.length * (2 * i) + ips.length * (ips.length - 1) +
        (ips.dropLast.map fun ip => (displayText kernelSymbols known ip).length).sum := by
  induction ips generalizing i with
  | nil => simp [displayTexts]
  | cons currentIp ips ih =>
      have hblanks : (cstr "  ").length = 2 := rfl
      cases ips with
      | nil => simp [displayTexts, hblanks, Nat.mul_comm]
      | cons nextIp ips =>
          have hne : displayTexts kernelSymbols known (i + 1) (nextIp :: ips) ≠ [] := by
            simp [displayTexts]
          rw [displayTexts, List.dropLast_append_cons, List.dropLast_cons_of_ne_nil hne,
            List.dropLast_cons_cons, List.map_append, List.map_cons, List.map_cons, List.sum_append,
            List.sum_cons, List.sum_cons, ih (i + 1), List.map_replicate, List.sum_replicate,
            hblanks]
          simp only [List.length_cons, Nat.add_sub_cancel, smul_eq_mul]
          ring

/-- **The loop.**  Its calls are in bounds if all texts but the last are at most
as long as the buffer. -/
theorem displayLoop_inBounds_iff (kernelSymbols : Option (RbTree KernelSymbol)) (known : Bool)
    (ips : List UInt64) :
    (∀ call ∈ (displayLoop kernelSymbols known 0 ips (0, [])).2, call.InBounds) ↔
      ips.length * (ips.length - 1) +
        (ips.dropLast.map fun ip => (displayText kernelSymbols known ip).length).sum ≤ 16384 := by
  rw [displayLoop_eq, foldl_callSnprintf_inBounds, sum_displayTexts_dropLast, Nat.mul_zero,
    Nat.zero_add]

end

/-! ## The bound -/

section

variable {filterMode : FilterMode} {sys : SystemContext} {callchain : CallchainResult}
  {reads : SampleReads}

/-- A frame leaves the kernel's symbols alone. -/
theorem symbolizeFrame_kernelSymbols {pid : Int} {sys' : SystemContext} {c c' : Flame}
    {currentIp : UInt64} {reads : FrameReads}
    (hframe : symbolizeFrame filterMode pid sys c currentIp reads = some (sys', c')) :
    sys'.kernelSymbols = sys.kernelSymbols := by
  have hrecycle : ∀ {node : ProcessNode} {reads : ProcReads} {sys₁ : SystemContext}
      {found : Option ProcessNode}, sys.recycle node pid reads = (sys₁, found) →
      sys₁.kernelSymbols = sys.kernelSymbols := fun hfind =>
    (congrArg (·.1.kernelSymbols) hfind).symm
  cases symbolizeFrame_cases hframe with
  | filtered => rfl
  | kernel => rfl
  | unknown => rfl
  | same _ _ _ _ hname => exact (userFuncName_spec hname).2.kernelSymbols
  | gone _ _ _ _ hfind => exact hrecycle hfind
  | replaced _ _ _ _ hfind hname =>
      exact (userFuncName_spec hname).2.kernelSymbols.trans (hrecycle hfind)

theorem afterFrames_kernelSymbols {n : Nat} (hn : n ≤ (allIps callchain).length)
    {sys' : SystemContext} {c' : Flame}
    (h : afterFrames filterMode sys callchain reads n = some (sys', c')) :
    sys'.kernelSymbols = sys.kernelSymbols := by
  induction n generalizing sys' c' with
  | zero =>
      obtain rfl := congrArg Prod.fst (Option.some.inj (afterFrames_zero.symm.trans h))
      rfl
  | succ n ih =>
      rw [afterFrames_succ (by omega)] at h
      obtain ⟨⟨sys₁, c₁⟩, hafter, hframe⟩ := Option.bind_eq_some_iff.mp h
      exact (symbolizeFrame_kernelSymbols hframe).trans (ih (by omega) hafter)

/-- `proc_info` is not `NULL` if a record is held. -/
theorem Tracks.isSome_procInfo {pid : Int} {c : Flame} {held : Option (Nat × Option CString)}
    (h : Tracks pid sys c held) : c.procInfo.isSome = held.isSome := by
  have hpoints := h.points
  cases held with
  | none =>
      rw [hpoints]
      rfl
  | some record =>
      obtain ⟨addr, hinfo, -⟩ := hpoints
      rw [hinfo]
      rfl

end

/-- **When `display_len` stays in the buffer.**  If and only if the indentations
and all texts but the last are at most 16384 bytes long. -/
theorem display_len_bounded_iff {filterMode : FilterMode} {sys : SystemContext}
    {callchain : CallchainResult} {reads : SampleReads} (hsys : sys.Sound)
    (hparsed : reads.Parsed) :
    (∃ calls, displayCalls filterMode sys callchain reads = some calls ∧
        ∀ call ∈ calls, call.InBounds) ↔
      (allIps callchain).length * ((allIps callchain).length - 1) +
        ((allIps callchain).dropLast.map fun ip => (displayText sys.kernelSymbols
          (heldAt filterMode sys callchain reads (allIps callchain).length).isSome ip).length).sum ≤
        16384 := by
  obtain ⟨sys', c', hafter, -⟩ := afterFrames_inv hsys callchain hparsed filterMode le_rfl
  have hknown := (tracks_afterFrames hsys hparsed le_rfl hafter).isSome_procInfo
  have hkernel := afterFrames_kernelSymbols le_rfl hafter
  simp only [displayCalls, hafter, Option.map_some, Option.some.injEq, exists_eq_left',
    displayLoop_inBounds_iff, hkernel, hknown]

theorem display_len_bounded_iff_two :
    ∃ calls, displayCalls .all (withSymbols .nil) (chainSample 0x401136 [0xffffffff81000000])
        noProcess = some calls ∧ ∀ call ∈ calls, call.InBounds :=
  (display_len_bounded_iff (sound_withSymbols .nil) parsed_noProcess).mpr (by decide)

/-- The deepest sample. -/
def deepSample : CallchainResult := chainSample 0x401136 (List.replicate 128 0x401136)

/-- 129 user-space addresses are more than `display_buffer` has room for. -/
theorem display_len_exceeds_buffer :
    deepSample.nr ≤ maxStackDepthCopy ∧
    (¬∃ calls, displayCalls .all (withSymbols .nil) deepSample noProcess = some calls ∧
      ∀ call ∈ calls, call.InBounds) ∧
    ¬∀ filterMode sys callchain reads, sys.Sound → reads.Parsed →
      callchain.nr ≤ maxStackDepthCopy →
      ∃ calls, displayCalls filterMode sys callchain reads = some calls ∧
        ∀ call ∈ calls, call.InBounds := by
  have hnr : deepSample.nr ≤ maxStackDepthCopy := by
    simp [deepSample, chainSample, maxStackDepthCopy]
  have hlength : (allIps deepSample).length = 129 := by
    rw [deepSample, allIps_chainSample (by decide) fun x hx => by
      rw [List.eq_of_mem_replicate (n := 129) hx]
      decide]
    rfl
  have hexceeds : ¬∃ calls, displayCalls .all (withSymbols .nil) deepSample noProcess =
      some calls ∧ ∀ call ∈ calls, call.InBounds := by
    rintro ⟨calls, hcalls, hbounds⟩
    obtain ⟨⟨sys', c'⟩, -, rfl⟩ := Option.map_eq_some_iff.mp hcalls
    rw [displayLoop_inBounds_iff, hlength] at hbounds
    omega
  exact ⟨hnr, hexceeds, fun hall => hexceeds (hall _ _ _ _ (sound_withSymbols .nil)
    parsed_noProcess hnr)⟩

end Profiling
