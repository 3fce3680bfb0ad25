import Profiling.Config

/-!
# Profiling.Config.Options

`parse_command_line` over lists of options.

The prefixes are tried one after another with their lengths counted by hand.
For each option but one its own test is the first to succeed, and what is behind
the prefix goes into its field (`parseArg_of_works`).  The test for
`--histogram-threshold=` compares two bytes more than the literal has, so this
option is not known (`parseCommandLine_options_iff`).
-/

namespace Profiling

/-- The options that `parse_command_line` handles, besides `--help`. -/
inductive ConfigOption where
  | frequency
  | filter
  | samplePoolSize
  | stackDepth
  | cleanup
  | outputDir
  | httpPort
  | logDir
  | histogramLogPath
  | lbr
  | histogramThreshold
  | dbBatchSize
  | producerBatchSize
  | dbEntryPoolSize
  deriving DecidableEq, Repr

/-- An argument: an option, what is behind its `=`, and whether the `strdup` of that
would succeed. -/
structure OptionArg where
  option : ConfigOption
  value : CString
  dup : Bool
  deriving DecidableEq, Repr

namespace ConfigOption

/-- The text in front of the value. -/
def name : ConfigOption → CString
  | frequency => cstr "--frequency="
  | filter => cstr "--filter="
  | samplePoolSize => cstr "--sample-pool-size="
  | stackDepth => cstr "--stack-depth="
  | cleanup => cstr "--cleanup="
  | outputDir => cstr "--output-dir="
  | httpPort => cstr "--http-port="
  | logDir => cstr "--log-dir="
  | histogramLogPath => cstr "--histogram-log-path="
  | lbr => cstr "--lbr"
  | histogramThreshold => cstr "--histogram-threshold="
  | dbBatchSize => cstr "--db-batch-size="
  | producerBatchSize => cstr "--producer-batch-size="
  | dbEntryPoolSize => cstr "--db-entry-pool-size="

/-- The value is in the range that is checked for the option; `--lbr` has none. -/
def Accepts (value : CString) : ConfigOption → Prop
  | frequency | samplePoolSize | stackDepth | cleanup | histogramThreshold | dbBatchSize
  | dbEntryPoolSize => 0 < atoi value
  | filter => value = cstr "user" ∨ value = cstr "kernel" ∨ value = cstr "all"
  | outputDir | logDir | histogramLogPath => True
  | httpPort => 0 < atoi value ∧ atoi value ≤ 65535
  | lbr => value = []
  | producerBatchSize => 0 < atoi value ∧ atoi value ≤ maxProducerBatchSize

instance (value : CString) : (option : ConfigOption) → Decidable (option.Accepts value)
  | frequency | samplePoolSize | stackDepth | cleanup | histogramThreshold | dbBatchSize
  | dbEntryPoolSize => inferInstanceAs (Decidable (_ < _))
  | filter => inferInstanceAs (Decidable (_ ∨ _))
  | outputDir | logDir | histogramLogPath => inferInstanceAs (Decidable True)
  | httpPort | producerBatchSize => inferInstanceAs (Decidable (_ ∧ _))
  | lbr => inferInstanceAs (Decidable (_ = _))

/-- The value is copied with `strdup`. -/
def Copies (option : ConfigOption) : Prop := option = logDir ∨ option = histogramLogPath

instance (option : ConfigOption) : Decidable option.Copies := inferInstanceAs (Decidable (_ ∨ _))

/-- The mode that a value of `--filter=` stands for. -/
def modeOf (value : CString) : FilterMode :=
  if value = cstr "user" then .user else if value = cstr "kernel" then .kernel else .all

/-- The field of the option holds the value. -/
def assign (value : CString) (config : ProfilingConfig) : ConfigOption → ProfilingConfig
  | frequency => { config with samplingFrequency := atoi value }
  | filter => { config with filterMode := modeOf value }
  | samplePoolSize => { config with samplePoolSize := atoi value }
  | stackDepth => { config with maxStackDepth := atoi value }
  | cleanup => { config with cleanupInterval := atoi value }
  | outputDir => { config with dbOutputDir := value }
  | httpPort => { config with httpPort := atoi value }
  | logDir => { config with logOutputDir := value }
  | histogramLogPath => { config with histogramLogPath := some value }
  | lbr => { config with useLbr := true }
  | histogramThreshold => { config with histogramPrintThreshold := atoi value }
  | dbBatchSize => { config with dbBatchSize := atoi value }
  | producerBatchSize => { config with producerBatchSize := atoi value }
  | dbEntryPoolSize => { config with dbEntryPoolSize := atoi value }

end ConfigOption

/-- The argument as it stands in `argv`, with the outcome of its `strdup`. -/
def OptionArg.input (a : OptionArg) : CString × Bool := (a.option.name ++ a.value, a.dup)

/-- The option is known, and its value is copied if it has to be. -/
def OptionArg.Works (a : OptionArg) : Prop :=
  a.option ≠ .histogramThreshold ∧ (a.option.Copies → a.dup = true)

/-- The last value that is given for an option. -/
def lastValue (args : List OptionArg) (option : ConfigOption) : Option CString :=
  (args.filter (·.option = option)).getLast?.map (·.value)

/-- The number that is given last for an option. -/
def lastNumber (args : List OptionArg) (option : ConfigOption) (default : Int) : Int :=
  ((lastValue args option).map atoi).getD default

/-- Each field has the last value that is given for its option, or its default. -/
def configured (args : List OptionArg) : ProfilingConfig where
  samplingFrequency := lastNumber args .frequency defaultConfig.samplingFrequency
  filterMode := ((lastValue args .filter).map ConfigOption.modeOf).getD defaultConfig.filterMode
  cleanupInterval := lastNumber args .cleanup defaultConfig.cleanupInterval
  maxStackDepth := lastNumber args .stackDepth defaultConfig.maxStackDepth
  samplePoolSize := lastNumber args .samplePoolSize defaultConfig.samplePoolSize
  useLbr := (lastValue args .lbr).isSome
  dbOutputDir := (lastValue args .outputDir).getD defaultConfig.dbOutputDir
  httpPort := lastNumber args .httpPort defaultConfig.httpPort
  logOutputDir := (lastValue args .logDir).getD defaultConfig.logOutputDir
  histogramPrintThreshold :=
    lastNumber args .histogramThreshold defaultConfig.histogramPrintThreshold
  histogramLogPath := some ((lastValue args .histogramLogPath).getD defaultHistogramLogPath)
  dbBatchSize := lastNumber args .dbBatchSize defaultConfig.dbBatchSize
  producerBatchSize := lastNumber args .producerBatchSize defaultConfig.producerBatchSize
  dbEntryPoolSize := lastNumber args .dbEntryPoolSize defaultConfig.dbEntryPoolSize

/-- `parse_command_line` of these arguments. -/
def parseOptions (args : List OptionArg) (dupDefault : Bool) : ArgResult :=
  parseCommandLine (args.map OptionArg.input) dupDefault

/-- The arguments lead to the configuration that they ask for, and still do when two
neighbours for different options change places. -/
structure ParsesAsGiven (args : List OptionArg) (dupDefault : Bool) : Prop where
  returns : parseOptions args dupDefault = .next (configured args)
  swap : ∀ front a b back, args = front ++ a :: b :: back → a.option ≠ b.option →
    parseOptions (front ++ b :: a :: back) dupDefault = parseOptions args dupDefault

/-- Each `strdup` of the call succeeds. -/
def AllCopied (args : List OptionArg) (dupDefault : Bool) : Prop :=
  (∀ a ∈ args, a.option.Copies → a.dup = true) ∧
    (lastValue args .histogramLogPath = none → dupDefault = true)

/-! ## One argument -/

section

variable {args : List OptionArg} {dupDefault : Bool}

theorem requirePositive_of_pos {value : Int} (h : 0 < value) (config : ProfilingConfig)
    (message : String) : requirePositive value config message = .next config :=
  if_neg (Int.not_le.mpr h)

/-- The mode is one of the three. -/
theorem parse_filter {mode : CString} (h : ConfigOption.filter.Accepts mode)
    (config : ProfilingConfig) (message : CString) :
    (if mode = cstr "user" then ArgResult.next { config with filterMode := .user }
      else if mode = cstr "kernel" then .next { config with filterMode := .kernel }
      else if mode = cstr "all" then .next { config with filterMode := .all }
      else .reject message) = .next (ConfigOption.filter.assign mode config) := by
  rcases h with rfl | rfl | rfl <;> rfl

/-- **An option that works** is found by its own test, and its field set. -/
theorem parseArg_of_works {a : OptionArg} (ha : a.option.Accepts a.value) (hworks : a.Works)
    (config : ProfilingConfig) :
    parseArg a.dup (a.option.name ++ a.value) config = .next (a.option.assign a.value config) := by
  obtain ⟨option, value, dup⟩ := a
  obtain ⟨hknown, hdup⟩ := hworks
  dsimp only at ha hknown hdup ⊢
  cases option with
  | frequency => exact requirePositive_of_pos ha _ _
  | filter => exact parse_filter ha config _
  | samplePoolSize => exact requirePositive_of_pos ha _ _
  | stackDepth => exact requirePositive_of_pos ha _ _
  | cleanup => exact requirePositive_of_pos ha _ _
  | outputDir => rfl
  | httpPort => exact if_neg (not_or.mpr ⟨Int.not_le.mpr ha.1, Int.not_lt.mpr ha.2⟩)
  | logDir =>
      obtain rfl := hdup (.inl rfl)
      rfl
  | histogramLogPath =>
      obtain rfl := hdup (.inr rfl)
      rfl
  | lbr =>
      obtain rfl : value = [] := ha
      rfl
  | histogramThreshold => exact absurd rfl hknown
  | dbBatchSize => exact requirePositive_of_pos ha _ _
  | producerBatchSize =>
      exact (if_neg (Int.not_le.mpr ha.1)).trans (if_neg (Int.not_lt.mpr ha.2))
  | dbEntryPoolSize => exact requirePositive_of_pos ha _ _

/-- The literal of `--histogram-threshold=` ends before the 24th byte. -/
theorem parseArg_histogramThreshold {dup : Bool} {value : CString}
    (h : ConfigOption.histogramThreshold.Accepts value) (config : ProfilingConfig) :
    parseArg dup (ConfigOption.histogramThreshold.name ++ value) config =
      .reject (cstr "Error: Unknown option '" ++ (ConfigOption.histogramThreshold.name ++ value) ++
        cstr "'") := by
  cases value with
  | nil => exact absurd h (by decide)
  | cons b value => rfl

/-- An option that does not work ends the loop with an error. -/
theorem parseArg_of_not_works {a : OptionArg} (ha : a.option.Accepts a.value) (hnot : ¬a.Works)
    (config : ProfilingConfig) :
    ∃ message, parseArg a.dup (a.option.name ++ a.value) config = .reject message := by
  obtain ⟨option, value, dup⟩ := a
  by_cases hknown : option = .histogramThreshold
  · subst hknown
    exact ⟨_, parseArg_histogramThreshold ha config⟩
  · obtain ⟨hcopies, hdup⟩ := Classical.not_imp.mp fun h => hnot ⟨hknown, h⟩
    obtain rfl : dup = false := by simpa using hdup
    rcases hcopies with rfl | rfl
    · exact ⟨_, rfl⟩
    · exact ⟨_, rfl⟩

/-! ## All arguments -/

/-- The configuration after these arguments, from a given one on. -/
def assignAll (args : List OptionArg) (config : ProfilingConfig) : ProfilingConfig :=
  args.foldl (fun config a => a.option.assign a.value config) config

/-- **The loop** goes through if and only if each argument works. -/
theorem parseArgs_eq_next_iff (hrange : ∀ a ∈ args, a.option.Accepts a.value)
    (config config' : ProfilingConfig) :
    parseArgs (args.map OptionArg.input) config = .next config' ↔
      (∀ a ∈ args, a.Works) ∧ config' = assignAll args config := by
  induction args generalizing config with
  | nil => simp [parseArgs, assignAll, eq_comm]
  | cons a args ih =>
      obtain ⟨ha, hrest⟩ := List.forall_mem_cons.mp hrange
      rw [List.map_cons, OptionArg.input, parseArgs, List.forall_mem_cons]
      by_cases hworks : a.Works
      · rw [parseArg_of_works ha hworks]
        dsimp only
        rw [ih hrest]
        simp [hworks, assignAll]
      · obtain ⟨message, hreject⟩ := parseArg_of_not_works ha hworks config
        rw [hreject]
        simp [hworks]

theorem lastValue_concat (args : List OptionArg) (a : OptionArg) (option : ConfigOption) :
    lastValue (args ++ [a]) option =
      if a.option = option then some a.value else lastValue args option := by
  by_cases h : a.option = option <;> simp [lastValue, h]

/-- Neighbours for different options may change places. -/
theorem lastValue_swap (front back : List OptionArg) {a b : OptionArg} (hne : a.option ≠ b.option) :
    lastValue (front ++ b :: a :: back) = lastValue (front ++ a :: b :: back) := by
  funext option
  by_cases ha : a.option = option
  · have hb : ¬b.option = option := fun hb => hne (ha.trans hb.symm)
    simp [lastValue, ha, hb]
  · simp [lastValue, ha, List.filter_cons]

/-- The fields after the loop: those that are asked for, and no path yet if none
was given. -/
theorem assignAll_eq (args : List OptionArg) :
    assignAll args defaultConfig =
      { configured args with histogramLogPath := lastValue args .histogramLogPath } := by
  induction args using List.reverseRecOn with
  | nil => rfl
  | append_singleton args a ih =>
      rw [assignAll, List.foldl_concat, ← assignAll, ih]
      obtain ⟨option, value, dup⟩ := a
      cases option <;> simp [ConfigOption.assign, configured, lastNumber, lastValue_concat]

/-- **The call** leads to the configuration that is asked for, if and only if each
argument works, and the default path is copied where none is given. -/
theorem parseOptions_eq_iff (hrange : ∀ a ∈ args, a.option.Accepts a.value) :
    parseOptions args dupDefault = .next (configured args) ↔
      (∀ a ∈ args, a.Works) ∧ (lastValue args .histogramLogPath = none → dupDefault = true) := by
  have hloop := parseArgs_eq_next_iff hrange defaultConfig
  rw [parseOptions, parseCommandLine]
  by_cases hworks : ∀ a ∈ args, a.Works
  · rw [(hloop _).mpr ⟨hworks, rfl⟩, assignAll_eq, and_iff_right hworks]
    cases hpath : lastValue args .histogramLogPath with
    | none => cases dupDefault <;> simp [configured, hpath]
    | some path => simp [configured, hpath]
  · cases hparse : parseArgs (args.map OptionArg.input) defaultConfig with
    | next config => exact absurd ((hloop config).mp hparse).1 hworks
    | reject message => simp [hworks]
    | help => simp [hworks]
    | outOfBounds => simp [hworks]

end

/-- **The options.**  The call returns the configuration that is asked for, in
whatever order, if and only if no `--histogram-threshold=` is among them and the
allocations succeed. -/
theorem parseCommandLine_options_iff (args : List OptionArg) (dupDefault : Bool)
    (hrange : ∀ a ∈ args, a.option.Accepts a.value) :
    ParsesAsGiven args dupDefault ↔
      (∀ a ∈ args, a.option ≠ .histogramThreshold) ∧ AllCopied args dupDefault := by
  have hworks : (∀ a ∈ args, a.Works) ∧
      (lastValue args .histogramLogPath = none → dupDefault = true) ↔
      (∀ a ∈ args, a.option ≠ .histogramThreshold) ∧ AllCopied args dupDefault := by
    simp only [OptionArg.Works, AllCopied, forall_and, and_assoc]
  rw [← hworks, ← parseOptions_eq_iff hrange]
  refine ⟨ParsesAsGiven.returns, fun h => ⟨h, fun front a b back heq hne => ?_⟩⟩
  obtain ⟨hall, hdefault⟩ := (parseOptions_eq_iff hrange).mp h
  subst heq
  have hperm : ∀ c, c ∈ front ++ b :: a :: back → c ∈ front ++ a :: b :: back :=
    fun c hc => ((List.Perm.swap a b back).append_left front).mem_iff.mp hc
  have hsame : configured (front ++ b :: a :: back) = configured (front ++ a :: b :: back) := by
    simp only [configured, lastNumber, lastValue_swap front back hne]
  rw [h, ← hsame]
  refine (parseOptions_eq_iff fun c hc => hrange c (hperm c hc)).mpr
    ⟨fun c hc => hall c (hperm c hc), ?_⟩
  rwa [lastValue_swap front back hne]

/-- `--frequency=50 --lbr --frequency=99` -/
def frequencyArgs : List OptionArg :=
  [⟨.frequency, cstr "50", true⟩, ⟨.lbr, [], true⟩, ⟨.frequency, cstr "99", true⟩]

theorem parseCommandLine_frequencyArgs : ParsesAsGiven frequencyArgs true :=
  (parseCommandLine_options_iff frequencyArgs true (by decide)).mpr
    ⟨by decide, by simp [AllCopied, frequencyArgs, ConfigOption.Copies]⟩

/-- `--histogram-threshold=500` is refused as an unknown option. -/
theorem parseCommandLine_histogramThreshold :
    ConfigOption.histogramThreshold.Accepts (cstr "500") ∧
      parseOptions [⟨.histogramThreshold, cstr "500", true⟩] true =
        .reject (cstr "Error: Unknown option '--histogram-threshold=500'") ∧
      ¬ParsesAsGiven [⟨.histogramThreshold, cstr "500", true⟩] true := by
  have hreject : parseOptions [⟨.histogramThreshold, cstr "500", true⟩] true =
      .reject (cstr "Error: Unknown option '--histogram-threshold=500'") := by rfl
  refine ⟨by decide, hreject, fun h => ?_⟩
  have hreturns := h.returns
  rw [hreject] at hreturns
  cases hreturns

end Profiling
