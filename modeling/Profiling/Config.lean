import Profiling.CString

/-!
# Profiling.Config

The command line: `parse_command_line` and `validate_config` of
`config/config.c`.

One argument is one `parseArg`, the body of the loop over `argv`; the error
texts are those written to `stderr`.  `strdup` may fail, so the parser takes
the outcome of the allocation an argument may ask for.
-/

namespace Profiling

/-- `enum filter_mode` -/
inductive FilterMode where
  | all
  | user
  | kernel
  deriving DecidableEq, Repr

/-- `struct profiling_config` -/
structure ProfilingConfig where
  samplingFrequency : Int
  filterMode : FilterMode
  cleanupInterval : Int
  maxStackDepth : Int
  samplePoolSize : Int
  useLbr : Bool
  dbOutputDir : CString
  httpPort : Int
  logOutputDir : CString
  histogramPrintThreshold : Int
  histogramLogPath : Option CString
  dbBatchSize : Int
  producerBatchSize : Int
  dbEntryPoolSize : Int
  deriving DecidableEq, Repr

/-- `MAX_PRODUCER_BATCH_SIZE` -/
def maxProducerBatchSize : Nat := 4096

/-- `DEFAULT_HISTOGRAM_LOG_PATH` -/
def defaultHistogramLogPath : CString := cstr "log/histogram.log"

/-- The defaults `parse_command_line` starts from. -/
def defaultConfig : ProfilingConfig where
  samplingFrequency := 30
  filterMode := .all
  cleanupInterval := 30
  maxStackDepth := 48
  samplePoolSize := 99297
  useLbr := false
  dbOutputDir := cstr "/tmp"
  httpPort := 8081
  logOutputDir := cstr "/log"
  histogramPrintThreshold := 1000
  histogramLogPath := none
  dbBatchSize := 96
  producerBatchSize := 96
  dbEntryPoolSize := 8192

/-- What one argument leads to. -/
inductive ArgResult where
  | next (config : ProfilingConfig)
  /-- `return -1`, after writing `message` -/
  | reject (message : CString)
  /-- `--help`: usage and `exit(0)` -/
  | help
  /-- the argument is read past its end -/
  | outOfBounds
  deriving DecidableEq, Repr

/-- Store a checked value: `if (value <= 0) return -1`. -/
def requirePositive (value : Int) (config : ProfilingConfig) (message : String) : ArgResult :=
  if value ≤ 0 then .reject (cstr message) else .next config

/-- `printf("%d")` of a positive number -/
def decimal (n : Int) : CString := cstr (toString n)

/-- The body of the loop over `argv`.  `dup` says whether `strdup` succeeds. -/
def parseArg (dup : Bool) (arg : CString) (config : ProfilingConfig) : ArgResult :=
  if strncmpEq arg (cstr "--frequency=") 12 then
    let value := atoi (arg.drop 12)
    requirePositive value { config with samplingFrequency := value }
      "Error: Invalid sampling frequency"
  else if strncmpEq arg (cstr "--filter=") 9 then
    let mode := arg.drop 9
    if mode = cstr "user" then .next { config with filterMode := .user }
    else if mode = cstr "kernel" then .next { config with filterMode := .kernel }
    else if mode = cstr "all" then .next { config with filterMode := .all }
    else .reject (cstr "Error: Invalid filter mode '" ++ mode ++ cstr "'. Use user|kernel|all")
  else if strncmpEq arg (cstr "--sample-pool-size=") 19 then
    let value := atoi (arg.drop 19)
    requirePositive value { config with samplePoolSize := value } "Error: Invalid sample pool size"
  else if strncmpEq arg (cstr "--stack-depth=") 14 then
    let value := atoi (arg.drop 14)
    requirePositive value { config with maxStackDepth := value } "Error: Invalid stack depth"
  else if strncmpEq arg (cstr "--cleanup=") 10 then
    let value := atoi (arg.drop 10)
    requirePositive value { config with cleanupInterval := value } "Error: Invalid cleanup interval"
  else if strncmpEq arg (cstr "--output-dir=") 13 then
    .next { config with dbOutputDir := arg.drop 13 }
  else if strncmpEq arg (cstr "--http-port=") 12 then
    let value := atoi (arg.drop 12)
    if value ≤ 0 ∨ 65535 < value then .reject (cstr "Error: Invalid HTTP port")
    else .next { config with httpPort := value }
  else if strncmpEq arg (cstr "--log-dir=") 10 then
    if dup then .next { config with logOutputDir := arg.drop 10 }
    else .reject (cstr "Error: Failed to allocate memory for log_output_dir")
  else if strncmpEq arg (cstr "--histogram-log-path=") 21 then
    if dup then .next { config with histogramLogPath := some (arg.drop 21) }
    else .reject (cstr "Error: Failed to allocate memory for histogram_log_path")
  else if arg = cstr "--lbr" then .next { config with useLbr := true }
  -- the literal has 22 bytes, so comparing 24 reaches its terminator
  else if strncmpEq arg (cstr "--histogram-threshold=") 24 then .outOfBounds
  else if strncmpEq arg (cstr "--db-batch-size=") 16 then
    let value := atoi (arg.drop 16)
    requirePositive value { config with dbBatchSize := value } "Error: Invalid db batch size"
  else if strncmpEq arg (cstr "--producer-batch-size=") 22 then
    let value := atoi (arg.drop 22)
    if value ≤ 0 then .reject (cstr "Error: Invalid producer batch size")
    else if value > maxProducerBatchSize then
      .reject (cstr "Error: producer_batch_size (" ++ decimal value ++
        cstr ") cannot exceed the maximum limit (" ++ decimal maxProducerBatchSize ++ cstr ").")
    else .next { config with producerBatchSize := value }
  else if strncmpEq arg (cstr "--db-entry-pool-size=") 21 then
    let value := atoi (arg.drop 21)
    requirePositive value { config with dbEntryPoolSize := value }
      "Error: Invalid db entry pool size"
  else if arg = cstr "--help" then .help
  else .reject (cstr "Error: Unknown option '" ++ arg ++ cstr "'")

/-- The loop over the arguments behind the program's name; each comes with
the outcome of its `strdup`. -/
def parseArgs : List (CString × Bool) → ProfilingConfig → ArgResult
  | [], config => .next config
  | (arg, dup) :: args, config =>
      match parseArg dup arg config with
      | .next config' => parseArgs args config'
      | r => r

/-- `parse_command_line`; `dupDefault` is the outcome of the last `strdup`.
`next` is the return value 0. -/
def parseCommandLine (args : List (CString × Bool)) (dupDefault : Bool) : ArgResult :=
  match parseArgs args defaultConfig with
  | .next config =>
      .next <|
        if config.histogramLogPath = none then
          { config with
            histogramLogPath := if dupDefault then some defaultHistogramLogPath else none }
        else config
  | r => r

/-- What `parse_command_line` makes of no arguments. -/
def noArguments : ProfilingConfig :=
  { defaultConfig with histogramLogPath := some defaultHistogramLogPath }

theorem parseCommandLine_nil : parseCommandLine [] true = .next noArguments := rfl

/-- `validate_config`: the message behind `return -1`, or `none` for 0. -/
def validateConfig (config : ProfilingConfig) : Option CString :=
  if config.samplingFrequency ≤ 0 then
    some (cstr "Error: Invalid sampling frequency: " ++ decimal config.samplingFrequency)
  else if config.cleanupInterval ≤ 0 then
    some (cstr "Error: Invalid cleanup interval: " ++ decimal config.cleanupInterval)
  else if config.httpPort ≤ 0 ∨ 65535 < config.httpPort then
    some (cstr "Error: Invalid HTTP port: " ++ decimal config.httpPort)
  else none

/-! ## What is accepted -/

/-- The ranges the parser checks. -/
structure ProfilingConfig.InRange (c : ProfilingConfig) : Prop where
  samplingFrequency_pos : 0 < c.samplingFrequency
  cleanupInterval_pos : 0 < c.cleanupInterval
  maxStackDepth_pos : 0 < c.maxStackDepth
  samplePoolSize_pos : 0 < c.samplePoolSize
  httpPort_pos : 0 < c.httpPort
  httpPort_le : c.httpPort ≤ 65535
  histogramPrintThreshold_pos : 0 < c.histogramPrintThreshold
  dbBatchSize_pos : 0 < c.dbBatchSize
  producerBatchSize_pos : 0 < c.producerBatchSize
  producerBatchSize_le : c.producerBatchSize ≤ maxProducerBatchSize
  dbEntryPoolSize_pos : 0 < c.dbEntryPoolSize

/-- Every default passes its own check. -/
theorem defaultConfig_inRange : defaultConfig.InRange := by constructor <;> decide

/-- A result whose configuration, if there is one, is in range. -/
def ArgResult.Keeps (r : ArgResult) : Prop := ∀ config, r = .next config → config.InRange

theorem keeps_next {c : ProfilingConfig} (h : c.InRange) : (ArgResult.next c).Keeps :=
  fun _ heq => ArgResult.next.inj heq ▸ h

theorem keeps_reject (message : CString) : (ArgResult.reject message).Keeps := by
  simp [ArgResult.Keeps]

theorem keeps_help : ArgResult.help.Keeps := by simp [ArgResult.Keeps]

theorem keeps_outOfBounds : ArgResult.outOfBounds.Keeps := by simp [ArgResult.Keeps]

theorem keeps_ite {p : Prop} [Decidable p] {a b : ArgResult} (ha : p → a.Keeps)
    (hb : ¬p → b.Keeps) : (if p then a else b).Keeps := by
  split
  · next h => exact ha h
  · next h => exact hb h

/-- A checked value only has to be in range when it is positive. -/
theorem keeps_requirePositive {value : Int} {c : ProfilingConfig} {message : String}
    (h : 0 < value → c.InRange) : (requirePositive value c message).Keeps :=
  keeps_ite (fun _ => keeps_reject _) fun hpos => keeps_next (h (Int.not_le.mp hpos))

/-- One argument keeps every field in its range. -/
theorem parseArg_inRange {dup : Bool} {arg : CString} {c : ProfilingConfig} (hc : c.InRange) :
    (parseArg dup arg c).Keeps := by
  unfold parseArg
  -- one case for each option, in the order of the source
  refine keeps_ite (fun _ => ?frequency) fun _ => keeps_ite (fun _ => ?filter) fun _ =>
    keeps_ite (fun _ => ?samplePoolSize) fun _ => keeps_ite (fun _ => ?stackDepth) fun _ =>
    keeps_ite (fun _ => ?cleanup) fun _ => keeps_ite (fun _ => ?outputDir) fun _ =>
    keeps_ite (fun _ => ?httpPort) fun _ => keeps_ite (fun _ => ?logDir) fun _ =>
    keeps_ite (fun _ => ?histogramLogPath) fun _ => keeps_ite (fun _ => ?lbr) fun _ =>
    keeps_ite (fun _ => keeps_outOfBounds) fun _ => keeps_ite (fun _ => ?dbBatchSize) fun _ =>
    keeps_ite (fun _ => ?producerBatchSize) fun _ => keeps_ite (fun _ => ?dbEntryPoolSize) fun _ =>
    keeps_ite (fun _ => keeps_help) fun _ => keeps_reject _
  case frequency => exact keeps_requirePositive fun h => { hc with samplingFrequency_pos := h }
  case samplePoolSize => exact keeps_requirePositive fun h => { hc with samplePoolSize_pos := h }
  case stackDepth => exact keeps_requirePositive fun h => { hc with maxStackDepth_pos := h }
  case cleanup => exact keeps_requirePositive fun h => { hc with cleanupInterval_pos := h }
  case dbBatchSize => exact keeps_requirePositive fun h => { hc with dbBatchSize_pos := h }
  case dbEntryPoolSize => exact keeps_requirePositive fun h => { hc with dbEntryPoolSize_pos := h }
  case filter =>
    exact keeps_ite (fun _ => keeps_next { hc with }) fun _ =>
      keeps_ite (fun _ => keeps_next { hc with }) fun _ =>
      keeps_ite (fun _ => keeps_next { hc with }) fun _ => keeps_reject _
  case outputDir | lbr => exact keeps_next { hc with }
  case logDir | histogramLogPath =>
    exact keeps_ite (fun _ => keeps_next { hc with }) fun _ => keeps_reject _
  case httpPort =>
    refine keeps_ite (fun _ => keeps_reject _) fun h => keeps_next ?_
    obtain ⟨hpos, hle⟩ := not_or.mp h
    exact { hc with httpPort_pos := Int.not_le.mp hpos, httpPort_le := Int.not_lt.mp hle }
  case producerBatchSize =>
    refine keeps_ite (fun _ => keeps_reject _) fun hpos => keeps_ite (fun _ => keeps_reject _)
      fun hle => keeps_next ?_
    exact { hc with
      producerBatchSize_pos := Int.not_le.mp hpos
      producerBatchSize_le := Int.not_lt.mp hle }

theorem parseArgs_inRange {args : List (CString × Bool)} {c c' : ProfilingConfig} (hc : c.InRange)
    (h : parseArgs args c = .next c') : c'.InRange := by
  induction args generalizing c with
  | nil => exact ArgResult.next.inj h ▸ hc
  | cons a args ih =>
      obtain ⟨arg, dup⟩ := a
      rw [parseArgs] at h
      cases hstep : parseArg dup arg c with
      | next c₁ =>
          rw [hstep] at h
          exact ih (parseArg_inRange hc _ hstep) h
      | reject _ => simp [hstep] at h
      | help => simp [hstep] at h
      | outOfBounds => simp [hstep] at h

/-- **Every accepted configuration is in range.** -/
theorem parseCommandLine_inRange {args : List (CString × Bool)} {dup : Bool} {c : ProfilingConfig}
    (h : parseCommandLine args dup = .next c) : c.InRange := by
  rw [parseCommandLine] at h
  cases hargs : parseArgs args defaultConfig with
  | next c₁ =>
      rw [hargs] at h
      have hc₁ := parseArgs_inRange defaultConfig_inRange hargs
      obtain rfl := ArgResult.next.inj h
      split
      · exact { hc₁ with }
      · exact hc₁
  | reject _ => simp [hargs] at h
  | help => simp [hargs] at h
  | outOfBounds => simp [hargs] at h

/-- `validate_config` finds nothing to object to in what was accepted. -/
theorem ProfilingConfig.InRange.validateConfig_eq_none {c : ProfilingConfig} (h : c.InRange) :
    validateConfig c = none := by
  obtain ⟨hf, hcl, -, -, hp, hp', -, -, -, -, -⟩ := h
  rw [validateConfig, if_neg (by omega), if_neg (by omega), if_neg (by omega)]

end Profiling
