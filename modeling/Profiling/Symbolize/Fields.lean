import Profiling.Database.Writer
import Profiling.Symbolize

/-!
# Profiling.Symbolize.Fields

The string between the symbolizer and the writer: `symbolize_sample` builds
`"pid|process_name|full_stack"`, and `db_writer_thread_func` takes it apart
with `strtok_r`.

`strtok_r` skips separators, and the name is not escaped, so the three fields
come back only if the name has none of them and is not empty
(`stack_str_fields_iff`).
-/

namespace Profiling

/-- What `db_stack_str` is before it is cut to the size of the buffer. -/
def stackFields (pid : Int) (processName flameBuffer : CString) : CString :=
  cstr (toString pid) ++ 124 :: processName ++ 124 :: flameBuffer

section

variable {pid : Int}

/-- No separator is printed in a number. -/
theorem separator_not_in_pid {b : UInt8} (hb : b ∈ cstr (toString pid)) : (b == 124) = false := by
  rcases mem_cstr_toString hb with hb | rfl
  · have := toNat_of_isdigit hb
    refine beq_false_of_ne fun heq => ?_
    simp [heq] at this
  · rfl

/-- The first field is the pid; the others are what `strtok_r` makes of the rest. -/
theorem parseStackStr_fields (hlo : -2 ^ 31 ≤ pid) (hhi : pid < 2 ^ 31)
    (processName flameBuffer : CString) :
    parseStackStr (stackFields pid processName flameBuffer) =
      (pid, ((strtokR (· = 124) (processName ++ 124 :: flameBuffer)).1).getD (cstr "unknown"),
        (strtokR (· = 124) (processName ++ 124 :: flameBuffer)).2) := by
  have hpid :
      strtokR (· = 124) (cstr (toString pid) ++ 124 :: (processName ++ 124 :: flameBuffer)) =
        (some (cstr (toString pid)), processName ++ 124 :: flameBuffer) :=
    strtokR_append (cstr_toString_ne_nil pid)
      (fun b hb => by simpa using separator_not_in_pid hb) rfl _
  rw [parseStackStr, stackFields, List.append_assoc, List.cons_append, hpid]
  simp only [Option.elim_some, atoi_toString hlo hhi, strtokR_rest]

end

/-- **When the fields come back.**  The writer recovers the pid, the name and
the stack of a string that fits the buffer if and only if the name is not empty
and has no `|` in it. -/
theorem stack_str_fields_iff {pid : Int} (hlo : -2 ^ 31 ≤ pid) (hhi : pid < 2 ^ 31)
    {processName flameBuffer : CString}
    (hfits : (stackFields pid processName flameBuffer).length < 16640) :
    parseStackStr (dbStackStr pid processName flameBuffer) = (pid, processName, flameBuffer) ↔
      processName ≠ [] ∧ 124 ∉ processName := by
  have hwhole : dbStackStr pid processName flameBuffer = stackFields pid processName flameBuffer :=
    List.take_of_length_le (Nat.le_of_lt_succ hfits)
  rw [hwhole, parseStackStr_fields hlo hhi]
  constructor
  · intro h
    have hname := congrArg (fun fields => fields.2.1) h
    dsimp only at hname
    cases htoken : strtokR (· = 124) (processName ++ 124 :: flameBuffer) with
    | mk token rest =>
      rw [htoken] at hname
      cases token with
      | none =>
          rw [← hname]
          exact (by decide : cstr "unknown" ≠ [] ∧ 124 ∉ cstr "unknown")
      | some token =>
          obtain rfl : token = processName := hname
          obtain ⟨hne, hclean⟩ := strtokR_eq_some htoken
          exact ⟨hne, fun hmem => by simpa using hclean 124 hmem⟩
  · rintro ⟨hne, hclean⟩
    have htoken : strtokR (· = 124) (processName ++ 124 :: flameBuffer) =
        (some processName, flameBuffer) :=
      strtokR_append hne (fun b hb => by simpa using ne_of_mem_of_not_mem hb hclean) rfl _
    rw [htoken]
    rfl

/-- A name without separators. -/
theorem stack_str_fields_plain :
    parseStackStr (dbStackStr 7 (cstr "sh") (cstr "sh[7];main")) =
      (7, cstr "sh", cstr "sh[7];main") :=
  (stack_str_fields_iff (by decide) (by decide) (by decide)).mpr (by decide)

/-- A process that calls itself `a|b`. -/
def pipeReads : ProcReads where
  calloc := true
  dupName := true
  dupCmdline := true
  startTime := 0
  comm := some (cstr "a|b\n")
  cmdline := none
  alive := true
  maps := some .nil

/-- Its name ends at the separator, and the rest of it goes into the stack. -/
theorem pipe_splits_name :
    storedName pipeReads 7 = some (cstr "a|b") ∧
    parseStackStr (dbStackStr 7 (cstr "a|b") (cstr "a|b[7];main")) =
      (7, cstr "a", cstr "b|a|b[7];main") ∧
    ¬∀ pid : Int, -2 ^ 31 ≤ pid → pid < 2 ^ 31 → ∀ reads processName flameBuffer,
      storedName reads pid = some processName →
      (stackFields pid processName flameBuffer).length < 16640 →
      parseStackStr (dbStackStr pid processName flameBuffer) =
        (pid, processName, flameBuffer) := by
  have hname : storedName pipeReads 7 = some (cstr "a|b") := by decide
  have hparse : parseStackStr (dbStackStr 7 (cstr "a|b") (cstr "a|b[7];main")) =
      (7, cstr "a", cstr "b|a|b[7];main") := by decide
  refine ⟨hname, hparse, fun hall => ?_⟩
  have := hall 7 (by decide) (by decide) pipeReads _ (cstr "a|b[7];main") hname (by decide)
  rw [hparse] at this
  exact absurd this (by decide)

end Profiling
