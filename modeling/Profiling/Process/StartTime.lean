import Profiling.Scanf

/-!
# Profiling.Process.StartTime

`get_process_start_time` of `src/core/process.c`: the scan of
`/proc/[pid]/stat` up to its 22nd field.

`%*s` ends at the first blank, and the second field is free text.  With a blank
in it, what is left of it is in the way of the numbers, and there are more of
these to be skipped than it has bytes (`start_time_read_iff`).
-/

namespace Profiling

/-! ## The scan -/

/-- The numbers between the state and the start time. -/
def statNumbers : List Directive :=
  List.replicate 5 .skipInt ++ List.replicate 7 .skipUint ++ List.replicate 6 .skipInt

/-- The format of `get_process_start_time`. -/
def statFormat : List Directive :=
  [.skipInt, .space, .skipString, .space, .skipChar] ++
    (spaced statNumbers ++ spaced [.readUll])

example : statFormat.flatMap Directive.text =
    cstr ("%*d %*s %*c %*d %*d %*d %*d %*d %*u %*u %*u %*u %*u %*u %*u " ++
      "%*d %*d %*d %*d %*d %*d %llu") := by decide

/-- `get_process_start_time`, given the file, if it can be opened. -/
def getProcessStartTime (content : Option CString) : Nat :=
  match content with
  | none => 0
  | some input =>
      match fscanf statFormat input with
      | [startTime] => startTime
      | _ => 0

/-! ## The line -/

/-- The states of a process. -/
def processStates : CString := cstr "RSDTtXxZPIKW"

/-- The fields of `/proc/[pid]/stat`. -/
structure ProcStat where
  pid : Nat
  comm : CString
  comm_le : comm.length ≤ 15
  state : UInt8
  state_mem : state ∈ processStates
  /-- the fourth field and those up to the 21st -/
  numbers : List Int
  numbers_length : numbers.length = 18
  startTime : Nat
  startTime_lt : startTime < 2 ^ 64
  /-- the fields behind the 22nd -/
  further : List Int

namespace ProcStat

/-- The line, behind the closing parenthesis. -/
def behindComm (stat : ProcStat) : CString :=
  32 :: stat.state :: (printNumbers stat.numbers ++
    (printNumbers [(stat.startTime : Int)] ++ (printNumbers stat.further ++ [10])))

/-- The line as the kernel writes it. -/
def line (stat : ProcStat) : CString :=
  cstr (toString (stat.pid : Int)) ++ 32 :: 40 :: (stat.comm ++ 41 :: stat.behindComm)

end ProcStat

/-! ## Reading it -/

section

variable (stat : ProcStat)

theorem skipsNumber_statNumbers : ∀ directive ∈ statNumbers, directive.SkipsNumber := by
  simp [statNumbers, Directive.SkipsNumber]

theorem length_statNumbers : statNumbers.length = 18 := rfl

/-- A state is a letter. -/
theorem ProcStat.stopsScan_state : StopsScan stat.state := by
  have hall : ∀ b ∈ processStates, isspace b = false ∧ isdigit b = false ∧ b ≠ 43 ∧ b ≠ 45 := by
    simp [processStates, cstr, isspace, isdigit]
  exact hall _ stat.state_mem

/-- The scan gets to the second field. -/
theorem fscanf_line : fscanf statFormat stat.line =
    fscanf (statFormat.drop 2) (40 :: (stat.comm ++ 41 :: stat.behindComm)) := by
  have hend : EndsNumber (32 :: 40 :: (stat.comm ++ 41 :: stat.behindComm)) := by
    simp [EndsNumber, isdigit]
  have hformat : statFormat = .skipInt :: .space :: statFormat.drop 2 := rfl
  rw [ProcStat.line, hformat, fscanf_skipNumber (.inl rfl), scanNumber_toString _ hend,
    Option.map_some, Option.getD_some, fscanf_space, List.dropWhile_cons_of_pos (by decide),
    List.dropWhile_cons_of_neg (by decide)]
  rfl

/-- Behind the state, the scan skips the numbers and reads the 22nd field. -/
theorem fscanf_behindState : fscanf (statFormat.drop 5) (printNumbers stat.numbers ++
    (printNumbers [(stat.startTime : Int)] ++ (printNumbers stat.further ++ [10]))) =
      [stat.startTime] := by
  have hend : EndsNumber (printNumbers stat.further ++ [10]) := by
    cases stat.further <;> simp [EndsNumber, printNumbers, isdigit]
  have hend' : EndsNumber (printNumbers [(stat.startTime : Int)] ++
      (printNumbers stat.further ++ [10])) := by
    simp [EndsNumber, printNumbers, isdigit]
  have hlength := length_statNumbers.trans stat.numbers_length.symm
  have hformat : statFormat.drop 5 = spaced statNumbers ++ spaced [.readUll] := rfl
  rw [hformat, fscanf_numbers skipsNumber_statNumbers hlength hend',
    fscanf_readUll stat.startTime_lt hend]

/-- Without a blank in it, the second field is skipped. -/
theorem fscanf_comm (hcomm : ∀ b ∈ stat.comm, isspace b = false) :
    fscanf (statFormat.drop 2) (40 :: (stat.comm ++ 41 :: stat.behindComm)) =
      [stat.startTime] := by
  have hformat : statFormat.drop 2 = .skipString :: .space :: .skipChar :: statFormat.drop 5 := rfl
  have hline : 40 :: (stat.comm ++ 41 :: stat.behindComm) =
      (40 :: (stat.comm ++ [41])) ++ stat.behindComm := by simp
  have htoken : ∀ b ∈ (40 : UInt8) :: (stat.comm ++ [41]), isspace b = false := by
    simp only [List.forall_mem_cons, List.forall_mem_append]
    exact ⟨by decide, hcomm, by decide, by simp⟩
  rw [hformat, hline, ProcStat.behindComm, fscanf_skipString (List.cons_ne_nil _ _) htoken
    (by decide), fscanf_space, List.dropWhile_cons_of_pos (by decide),
    List.dropWhile_cons_of_neg (by simp [stat.stopsScan_state.1]), fscanf_skipChar,
    fscanf_behindState]

/-- With a blank in it, it is in the way. -/
theorem fscanf_comm_blank {a b : CString} {w : UInt8} (hcomm : stat.comm = a ++ w :: b)
    (ha : ∀ x ∈ a, isspace x = false) (hw : isspace w = true) :
    fscanf (statFormat.drop 2) (40 :: (stat.comm ++ 41 :: stat.behindComm)) = [] := by
  have hformat : statFormat.drop 2 = .skipString :: .space :: .skipChar :: statFormat.drop 5 := rfl
  have hnumbers : statFormat.drop 5 = spaced statNumbers ++ spaced [.readUll] := rfl
  have hline : 40 :: (stat.comm ++ 41 :: stat.behindComm) =
      (40 :: a) ++ w :: (b ++ 41 :: stat.behindComm) := by simp [hcomm]
  have htoken : ∀ x ∈ (40 : UInt8) :: a, isspace x = false := by
    simp only [List.forall_mem_cons]
    exact ⟨by decide, ha⟩
  have hstop : StopsScan 41 := ⟨by decide, by decide, by decide, by decide⟩
  have hlength : b.length ≤ 14 := by
    have := stat.comm_le
    rw [hcomm, List.length_append, List.length_cons] at this
    omega
  have hdropped := (List.dropWhile_sublist isspace (l := b)).length_le
  rw [hformat, hline, fscanf_skipString (List.cons_ne_nil _ _) htoken hw, fscanf_space,
    List.dropWhile_cons_of_pos hw, dropWhile_append_stop hstop.1, hnumbers]
  cases hrest : b.dropWhile isspace with
  | nil =>
      -- the parenthesis is taken for the state, and the state for a number
      have hblank : stat.behindComm = [32] ++ stat.state :: (printNumbers stat.numbers ++
          (printNumbers [(stat.startTime : Int)] ++ (printNumbers stat.further ++ [10]))) := rfl
      rw [List.nil_append, fscanf_skipChar, hblank]
      exact fscanf_stuck stat.stopsScan_state skipsNumber_statNumbers (by decide)
  | cons x front =>
      -- the numbers are looked for in what is left in front of the parenthesis
      rw [hrest, List.length_cons] at hdropped
      rw [List.cons_append, fscanf_skipChar]
      refine fscanf_stuck hstop skipsNumber_statNumbers ?_
      rw [length_statNumbers]
      omega

end

/-- **When the start time is read.**  If and only if there is no blank in the
second field, but for a process whose start time is 0. -/
theorem start_time_read_iff (stat : ProcStat) :
    getProcessStartTime (some stat.line) = stat.startTime ↔
      (∀ b ∈ stat.comm, isspace b = false) ∨ stat.startTime = 0 := by
  rw [getProcessStartTime, fscanf_line]
  by_cases hcomm : ∀ b ∈ stat.comm, isspace b = false
  · rw [fscanf_comm stat hcomm]
    exact iff_of_true rfl (.inl hcomm)
  · have hsplit : ∃ a w b, stat.comm = a ++ w :: b ∧ (∀ x ∈ a, isspace x = false) ∧
        isspace w = true := by
      push Not at hcomm
      obtain ⟨w, hw, hspace⟩ := hcomm
      have hne : stat.comm.dropWhile (fun x => !isspace x) ≠ [] := fun hnil => by
        have := List.dropWhile_eq_nil_iff.mp hnil w hw
        simp [hspace] at this
      obtain ⟨x, b, hxb⟩ := List.exists_cons_of_ne_nil hne
      refine ⟨stat.comm.takeWhile (fun x => !isspace x), x, b, ?_, ?_, ?_⟩
      · rw [← hxb, List.takeWhile_append_dropWhile]
      · intro y hy
        simpa using List.mem_takeWhile_imp hy
      · have := List.head?_dropWhile_not (fun x => !isspace x) stat.comm
        rw [hxb] at this
        simpa using this
    obtain ⟨a, w, b, hab, ha, hw⟩ := hsplit
    rw [fscanf_comm_blank stat hab ha hw]
    simp only [hcomm, false_or]
    exact eq_comm

/-- A terminal multiplexer that runs as process 7. -/
def tmuxServer : ProcStat where
  pid := 7
  comm := cstr "tmux: server"
  comm_le := by decide
  state := 83
  state_mem := by decide
  numbers := List.replicate 18 0
  numbers_length := rfl
  startTime := 5
  startTime_lt := by decide
  further := []

/-- Its start time is not read. -/
theorem blank_in_comm_breaks_scan :
    getProcessStartTime (some tmuxServer.line) = 0 ∧
    ¬∀ stat : ProcStat, getProcessStartTime (some stat.line) = stat.startTime := by
  have hzero : getProcessStartTime (some tmuxServer.line) = 0 := by decide
  exact ⟨hzero, fun hall => absurd (hzero.symm.trans (hall tmuxServer)) (by decide)⟩

end Profiling
