import Profiling.Flamegraph.Drawing
import Profiling.Query.Hours

/-!
# Profiling.SmartQuery.Flame

`smart_query.sh --flame`: from what the query tool prints to the lines that
`flamegraph.pl` reads.

`format_flame` turns each stack round, the frames of the user before those of the
kernel, and keeps the process and the count.  `c++filt` is a parameter; what it prints
is kept in a variable that is not local, so that it stands for a later frame if
`c++filt` prints nothing.  `historicalFlame_widths` goes from the stored samples to
the widths in the picture.
-/

namespace Profiling

/-! ## The script -/

/-- `printf("%s|%d\n", …)` for each line. -/
def queryText (lines : List (CString × Int)) : CString :=
  lines.flatMap fun line => line.1 ++ cstr "|" ++ cstr (toString line.2) ++ [10]

/-- `s/|/ /g` -/
def sedBars (line : CString) : CString := line.map fun b => if b = 124 then 32 else b

/-- `result=$(…)` and `echo "$result" | sed 's/|/ /g'`: the line ends at the end are
dropped, and nothing is printed if nothing is left. -/
def sedLines (output : CString) : List CString :=
  let result := output.rdropWhile (· = 10)
  if result = [] then [] else (result.splitOn 10).map sedBars

/-- `match($0, /^(.*) ([0-9]+)$/, arr)` -/
def matchCount (line : CString) : Option (CString × CString) :=
  let stack := line.rdropWhile (· ≠ 32)
  let count := line.rtakeWhile (· ≠ 32)
  if stack ≠ [] ∧ count ≠ [] ∧ count.all isdigit then some (stack.dropLast, count) else none

/-- `match(process, /\[([0-9]+)\]$/, pm)` -/
def processPid (process : CString) : CString :=
  if process.getLast? = some 93 then
    let digits := process.dropLast.rtakeWhile isdigit
    if (process.dropLast.rdropWhile isdigit).getLast? = some 91 then digits else []
  else []

/-- A process that is not known gets its pid. -/
def normalizeFrame (pid f : CString) : CString :=
  if f = cstr "[unknown_process]" ∨ f = cstr "unknown_process" then
    if pid ≠ [] then cstr "unknown_process[" ++ pid ++ cstr "]" else cstr "unknown_process"
  else f

/-- `demangle`: the name, and what is in `dem` behind it. -/
def demangle (cxxfilt : CString → Option CString) (dem name : CString) : CString × CString :=
  if (cstr "_Z").isPrefixOf name then
    let dem := (cxxfilt name).getD dem
    (if dem ≠ [] then dem else name, dem)
  else (name, dem)

/-- The frames of a stack. -/
structure FlameFrames where
  dem : CString
  userFrames : List CString
  kernelFrames : List CString

/-- The body of the loop over the frames. -/
def collectFrame (cxxfilt : CString → Option CString) (pid : CString) (s : FlameFrames)
    (f : CString) : FlameFrames :=
  let (f, dem) := demangle cxxfilt s.dem (normalizeFrame pid f)
  if (cstr "[kernel]").isSuffixOf f then
    { s with dem, kernelFrames := s.kernelFrames ++ [f] }
  else { s with dem, userFrames := s.userFrames ++ [f] }

/-- `new_stack` -/
def newStack (process : CString) (frames : FlameFrames) : CString :=
  let user :=
    if frames.userFrames = [] then [cstr "no_user_stack"] else frames.userFrames.reverse
  (user ++ frames.kernelFrames.reverse).foldl (fun stack f => stack ++ cstr ";" ++ f) process

/-- What `format_flame` does with a line: the new `dem`, and what it prints. -/
def formatLine (cxxfilt : CString → Option CString) (dem line : CString) :
    CString × Option CString :=
  match matchCount line with
  | none => (dem, some line)
  | some (stack, count) =>
      if stack = [] then (dem, none)
      else
        match stack.splitOn 59 with
        | [] => (dem, none)
        | process :: parts =>
            let frames := parts.foldl (collectFrame cxxfilt (processPid process)) ⟨dem, [], []⟩
            (frames.dem, some (newStack process frames ++ cstr " " ++
              cstr (leadingDecimal count).repr))

/-- `format_flame` -/
def formatFlame (cxxfilt : CString → Option CString) (dem : CString) :
    List CString → List CString
  | [] => []
  | line :: lines =>
      let (dem, printed) := formatLine cxxfilt dem line
      printed.toList ++ formatFlame cxxfilt dem lines

example : formatFlame (fun _ => none) []
    (sedLines (queryText [(cstr "sh[7];read;main;sys_read[kernel];entry[kernel]", 2)])) =
      [cstr "sh[7];main;read;entry[kernel];sys_read[kernel] 2"] := by decide

/-! ## Text -/

section Text

variable {α : Type*} {p : α → Bool} {as bs : List α} {x : α}

/-- What is behind the last element that stops a cut from the right. -/
theorem rdropWhile_append_cons (hx : p x = false) (hbs : ∀ b ∈ bs, p b = true) :
    (as ++ x :: bs).rdropWhile p = as ++ [x] := by
  rw [List.rdropWhile, List.reverse_append, List.reverse_cons, List.append_assoc,
    List.dropWhile_append_of_pos fun b hb => hbs b (List.mem_reverse.mp hb)]
  simp [hx]

theorem rtakeWhile_append_cons (hx : p x = false) (hbs : ∀ b ∈ bs, p b = true) :
    (as ++ x :: bs).rtakeWhile p = bs := by
  rw [List.rtakeWhile, List.reverse_append, List.reverse_cons, List.append_assoc,
    List.takeWhile_append_of_pos fun b hb => hbs b (List.mem_reverse.mp hb)]
  simp [hx]

end Text

section Lines

variable {rows : List CString} {row stack digits : CString}

/-- Lines are read back, if there are no line ends in them and the last one is not empty. -/
theorem splitOn_lines (hrows : ∀ row ∈ rows, 10 ∉ row) (hrow : 10 ∉ row) :
    ((rows.flatMap (· ++ [10])) ++ row).splitOn 10 = rows ++ [row] := by
  induction rows with
  | nil => rw [List.flatMap_nil, List.nil_append, List.splitOn_eq_singleton hrow, List.nil_append]
  | cons row' rows ih =>
      obtain ⟨hrow', hrows⟩ := List.forall_mem_cons.mp hrows
      rw [List.flatMap_cons, List.append_assoc, List.append_assoc, List.singleton_append,
        List.splitOn_append_cons_self_of_not_mem hrow', ih hrows, List.cons_append]

theorem sedLines_lines (hrows : ∀ row ∈ rows, 10 ∉ row) (hne : ∀ row ∈ rows, row ≠ []) :
    sedLines (rows.flatMap (· ++ [10])) = rows.map sedBars := by
  cases rows using List.reverseRecOn with
  | nil => rfl
  | append_singleton rows row =>
      rw [List.forall_mem_append, List.forall_mem_singleton] at hrows hne
      have hlast : row.getLast hne.2 ≠ 10 := fun h => hrows.2 (h ▸ List.getLast_mem hne.2)
      have hcut : ((rows ++ [row]).flatMap (· ++ [10])).rdropWhile (· = 10) =
          rows.flatMap (· ++ [10]) ++ row := by
        rw [List.flatMap_append, List.flatMap_singleton, ← List.append_assoc,
          List.rdropWhile_concat_pos _ _ _ (by simp)]
        refine List.rdropWhile_eq_self_iff.mpr fun _ => ?_
        rw [List.getLast_append_of_ne_nil _ hne.2]
        simpa using hlast
      simp only [sedLines, hcut]
      rw [if_neg (List.append_ne_nil_of_right_ne_nil _ hne.2), splitOn_lines hrows.1 hrows.2]

theorem isNumeral_of_digits (hne : digits ≠ []) (hdigits : ∀ b ∈ digits, isdigit b = true) :
    isNumeral digits = true := by
  have htake : digits.takeWhile isdigit = digits := List.takeWhile_eq_self_iff.mpr hdigits
  have hdrop : digits.dropWhile isdigit = [] := List.dropWhile_eq_nil_iff.mpr hdigits
  simp [isNumeral, htake, hdrop, hne]

theorem matchSamples_append (hne : digits ≠ []) (hdigits : ∀ b ∈ digits, isdigit b = true) :
    matchSamples (stack ++ 32 :: digits) = some (stack, digits) := by
  have hspace : ∀ b ∈ digits, (!isspace b) = true := fun b hb => by
    rw [not_isspace_of_isdigit (hdigits b hb)]
    rfl
  have hstack : (stack ++ 32 :: digits).rdropWhile (fun b => !isspace b) = stack ++ [32] :=
    rdropWhile_append_cons rfl hspace
  have hsamples : (stack ++ 32 :: digits).rtakeWhile (fun b => !isspace b) = digits :=
    rtakeWhile_append_cons rfl hspace
  simp only [matchSamples, hstack, hsamples]
  simp [isNumeral_of_digits hne hdigits]

theorem matchCount_append (hne : digits ≠ []) (hdigits : ∀ b ∈ digits, isdigit b = true) :
    matchCount (stack ++ 32 :: digits) = some (stack, digits) := by
  have hspace : ∀ b ∈ digits, decide (b ≠ 32) = true := fun b hb => by
    rw [decide_eq_true_eq]
    rintro rfl
    exact absurd (hdigits 32 hb) (by decide)
  have hstack : (stack ++ 32 :: digits).rdropWhile (fun b => decide (b ≠ 32)) = stack ++ [32] :=
    rdropWhile_append_cons rfl hspace
  have hcount : (stack ++ 32 :: digits).rtakeWhile (fun b => decide (b ≠ 32)) = digits :=
    rtakeWhile_append_cons rfl hspace
  simp only [matchCount, hstack, hcount]
  simpa [hne] using hdigits

/-- A line that matches, and what the parts are. -/
theorem matchSamples_eq_some {line samples : CString}
    (h : matchSamples line = some (stack, samples)) :
    ∃ b, isspace b = true ∧ line = stack ++ b :: samples ∧ isNumeral samples = true := by
  unfold matchSamples at h
  obtain ⟨⟨hne, hnum⟩, hparts⟩ := Option.ite_none_right_eq_some.mp h
  obtain ⟨rfl, rfl⟩ := Prod.mk.inj (Option.some.inj hparts)
  refine ⟨_, by simpa using List.rdropWhile_last_not _ _ hne, ?_, hnum⟩
  rw [← List.singleton_append, ← List.append_assoc, List.dropLast_append_getLast hne,
    List.rdropWhile_append_rtakeWhile]

/-- There is no semicolon in a number. -/
theorem not_mem_of_isNumeral (h : isNumeral digits = true) : 59 ∉ digits := by
  intro hmem
  rw [isNumeral, Bool.and_eq_true] at h
  rw [← List.takeWhile_append_dropWhile (p := isdigit) (l := digits), List.mem_append] at hmem
  obtain hmem | hmem := hmem
  · exact absurd (List.mem_takeWhile_imp hmem) (by decide)
  · cases hrest : digits.dropWhile isdigit with
    | nil => simp [hrest] at hmem
    | cons b rest =>
        rw [hrest] at hmem h
        obtain ⟨rfl, hall⟩ : b = 46 ∧ rest.all isdigit := by simpa using h.2
        obtain heq | hmem := List.mem_cons.mp hmem
        · exact absurd heq (by decide)
        · exact absurd (List.all_eq_true.mp hall 59 hmem) (by decide)

end Lines

/-! ## Processes -/

/-- The process of a stack, with `|` as it is shown. -/
def processOf (stack : CString) : CString := (sedBars stack).takeWhile (· ≠ 59)

section Processes

variable {process rest stack p : CString}

theorem not_mem_processOf : 59 ∉ processOf stack := fun h =>
  absurd (List.mem_takeWhile_imp h) (by decide)

theorem exists_splitOn (b : UInt8) (text : CString) :
    ∃ parts, text.splitOn b = text.takeWhile (· ≠ b) :: parts := by
  induction text with
  | nil => exact ⟨[], List.splitOn_nil b⟩
  | cons a text ih =>
      obtain ⟨parts, hparts⟩ := ih
      rw [List.splitOn_cons_eq_if_modifyHead, hparts]
      by_cases hab : a = b
      · exact ⟨text.takeWhile (· ≠ b) :: parts, by simp [hab]⟩
      · exact ⟨parts, by simp [hab]⟩

/-- The first frame of a stack is its process, if that is not empty. -/
theorem head?_splitFrames (hprocess : 59 ∉ process) (hp : p ≠ []) :
    (splitFrames (process ++ 59 :: rest)).head? = some p ↔ process = p := by
  rw [splitFrames, List.splitOn_append_cons_self_of_not_mem hprocess]
  have hfront := List.rdropWhile_prefix (fun f : CString => decide (f = []))
    (process :: rest.splitOn 59)
  cases hframes : (process :: rest.splitOn 59).rdropWhile (fun f : CString => decide (f = [])) with
  | nil =>
      have hall := List.rdropWhile_eq_nil_iff.mp hframes process List.mem_cons_self
      simpa [of_decide_eq_true hall] using hp.symm
  | cons f frames =>
      rw [hframes, List.cons_prefix_cons] at hfront
      rw [hfront.1, List.head?_cons, Option.some.injEq]

/-- A printed line is not ignored, and has the process in front: also if the last frame looks
like a count. -/
theorem parseLine_printed {numeral : CString → Int} {digits : CString} (hne : digits ≠ [])
    (hdigits : ∀ b ∈ digits, isdigit b = true) (hprocess : 59 ∉ process) (hp : p ≠ []) :
    ∃ x, parseLine numeral (process ++ 59 :: rest ++ 32 :: digits) = some x ∧
      x.samples = numeral digits ∧ (x.frames[1]? = some p ↔ process = p) := by
  have hframes : ∀ {text : CString}, ([] :: splitFrames text)[1]? = (splitFrames text).head? :=
    fun {text} => by rw [List.getElem?_cons_succ, List.head?_eq_getElem?]
  rw [parseLine, matchSamples_append hne hdigits, Option.map_some]
  cases hsecond : matchSamples (process ++ 59 :: rest) with
  | none =>
      refine ⟨_, rfl, by simp [hsecond], ?_⟩
      simp only [hsecond, hframes]
      exact head?_splitFrames hprocess hp
  | some second =>
      obtain ⟨stack, samples⟩ := second
      obtain ⟨b, hb, hline, hnum⟩ := matchSamples_eq_some hsecond
      -- The semicolon behind the process is in front of that number.
      obtain ⟨rest', rfl⟩ : ∃ rest', stack = process ++ 59 :: rest' := by
        obtain ⟨rest', rfl, hrest⟩ | ⟨rest', rfl, hrest⟩ := List.append_eq_append_iff.mp hline
        · cases rest' with
          | nil =>
              obtain ⟨rfl, -⟩ := List.cons.inj hrest
              exact absurd hb (by decide)
          | cons a rest' =>
              obtain ⟨rfl, -⟩ := List.cons.inj hrest
              exact ⟨rest', rfl⟩
        · have hmem : 59 ∈ b :: samples := by simp [hrest]
          obtain rfl | hmem := List.mem_cons.mp hmem
          · exact absurd hb (by decide)
          · exact absurd hmem (not_mem_of_isNumeral hnum)
      refine ⟨_, rfl, by simp [hsecond], ?_⟩
      simp only [hsecond, hframes]
      exact head?_splitFrames hprocess hp

end Processes

/-! ## Counts -/

section Counts

variable {cxxfilt : CString → Option CString} {numeral : CString → Int} {dem key p : CString}
  {lines : List (CString × Int)}

/-- The frames are behind the process. -/
theorem newStack_eq (process : CString) (frames : FlameFrames) :
    ∃ rest, newStack process frames = process ++ 59 :: rest := by
  have hfold : ∀ (fs : List CString) (stack : CString),
      stack <+: fs.foldl (fun stack f => stack ++ cstr ";" ++ f) stack := by
    intro fs
    induction fs with
    | nil => exact fun stack => List.prefix_rfl
    | cons f fs ih =>
        intro stack
        rw [List.foldl_cons, List.append_assoc]
        exact (List.prefix_append _ _).trans (ih _)
  have hfirst : ∀ fs : List CString, fs ≠ [] →
      ∃ rest, fs.foldl (fun stack f => stack ++ cstr ";" ++ f) process = process ++ 59 :: rest := by
    intro fs hne
    obtain ⟨f, fs, rfl⟩ := List.exists_cons_of_ne_nil hne
    obtain ⟨rest, hrest⟩ := hfold fs (process ++ cstr ";" ++ f)
    exact ⟨f ++ rest, by rw [List.foldl_cons, ← hrest, List.append_assoc, List.append_assoc]; rfl⟩
  refine hfirst _ (List.append_ne_nil_of_left_ne_nil ?_ _)
  split
  next => exact List.cons_ne_nil _ _
  next hne => exact mt List.reverse_eq_nil_iff.mp hne

/-- A stack is printed with its process in front and with its count. -/
theorem formatLine_key (n : Nat) : ∃ dem' printed,
    formatLine cxxfilt dem (sedBars key ++ 32 :: cstr n.repr) = (dem', printed) ∧
      (key = [] ∧ printed = none ∨
        ∃ rest, printed = some (processOf key ++ 59 :: rest ++ 32 :: cstr n.repr)) := by
  rw [formatLine, matchCount_append (cstr_repr_ne_nil n) fun _ => isdigit_of_mem_repr]
  dsimp only
  split
  next hkey =>
    exact ⟨dem, none, rfl, .inl ⟨List.map_eq_nil_iff.mp hkey, rfl⟩⟩
  next hkey =>
    obtain ⟨parts, hparts⟩ := exists_splitOn 59 (sedBars key)
    rw [hparts]
    dsimp only
    obtain ⟨rest, hrest⟩ := newStack_eq ((sedBars key).takeWhile (· ≠ 59))
      (parts.foldl (collectFrame cxxfilt (processPid ((sedBars key).takeWhile (· ≠ 59))))
        ⟨dem, [], []⟩)
    refine ⟨_, _, rfl, .inr ⟨rest, ?_⟩⟩
    rw [hrest, leadingDecimal_repr]
    exact congrArg some (List.append_assoc _ _ _)

theorem toString_natCast (n : Nat) : toString (n : Int) = n.repr := by
  rw [Int.toString_eq_repr, Int.repr_eq_if, if_pos (Int.natCast_nonneg n), Int.toNat_natCast]

/-- Every line counts something. -/
def Counted (lines : List (CString × Int)) : Prop := ∀ line ∈ lines, 0 < line.2

/-- **Nothing is lost** by the script: the lines of a process have the counts of its stacks. -/
theorem sum_formatFlame (hnumeral : ∀ n : Nat, numeral (cstr n.repr) = n) (hp : p ≠ [])
    (hlines : Counted lines) :
    let xs := (formatFlame cxxfilt dem (lines.map fun line =>
      sedBars line.1 ++ 32 :: cstr (toString line.2))).filterMap (parseLine numeral)
    (∀ x ∈ xs, 0 < x.samples) ∧
      ((xs.filter fun x => x.frames[1]? = some p).map StackLine.samples).sum =
        ((lines.filter fun line => processOf line.1 = p).map Prod.snd).sum := by
  induction lines generalizing dem with
  | nil => exact ⟨by simp [formatFlame], rfl⟩
  | cons line lines ih =>
      obtain ⟨key, n⟩ := line
      obtain ⟨hn, hrest⟩ := List.forall_mem_cons.mp hlines
      obtain ⟨m, rfl⟩ := Int.eq_ofNat_of_zero_le hn.le
      obtain ⟨dem', printed, hformat, hprinted⟩ := @formatLine_key cxxfilt dem key m
      obtain ⟨hpos, hsum⟩ := @ih dem' hrest
      rw [List.map_cons, formatFlame, toString_natCast, hformat]
      dsimp only
      obtain ⟨rfl, rfl⟩ | ⟨rest, rfl⟩ := hprinted
      · have hprocess : processOf [] ≠ p := hp.symm
        rw [Option.toList_none, List.nil_append,
          List.filter_cons_of_neg (by simpa using hprocess)]
        exact ⟨hpos, hsum⟩
      · obtain ⟨x, hx, hsamples, hframe⟩ := @parseLine_printed (processOf key) rest p numeral
          (cstr m.repr) (cstr_repr_ne_nil m) (fun _ => isdigit_of_mem_repr) not_mem_processOf hp
        rw [hnumeral] at hsamples
        rw [Option.toList_some, List.singleton_append, List.filterMap_cons_some hx]
        refine ⟨List.forall_mem_cons.mpr ⟨hsamples ▸ hn, hpos⟩, ?_⟩
        by_cases hprocess : processOf key = p
        · rw [List.filter_cons_of_pos (by simpa using hframe.mpr hprocess),
            List.filter_cons_of_pos (by simpa using hprocess), List.map_cons, List.sum_cons,
            List.map_cons, List.sum_cons, hsamples, hsum]
        · rw [List.filter_cons_of_neg (by simpa using mt hframe.mp hprocess),
            List.filter_cons_of_neg (by simpa using hprocess), hsum]

/-- The lines that `format_flame` reads of what the query tool has printed. -/
theorem sedLines_queryText (hlines : Counted lines) (hkeys : ∀ line ∈ lines, 10 ∉ line.1) :
    sedLines (queryText lines) =
      lines.map fun line => sedBars line.1 ++ 32 :: cstr (toString line.2) := by
  have hdigits : ∀ line ∈ lines, ∀ b ∈ cstr (toString line.2), isdigit b = true := by
    intro line hline b hb
    obtain ⟨m, hm⟩ := Int.eq_ofNat_of_zero_le (hlines line hline).le
    rw [hm, toString_natCast] at hb
    exact isdigit_of_mem_repr hb
  have htext : queryText lines =
      (lines.map fun line => line.1 ++ cstr "|" ++ cstr (toString line.2)).flatMap (· ++ [10]) := by
    rw [List.flatMap_map]
    rfl
  have hrow : ∀ line ∈ lines, 10 ∉ line.1 ++ cstr "|" ++ cstr (toString line.2) := by
    intro line hline hmem
    obtain (hmem | hmem) | hmem := by simpa only [List.mem_append] using hmem
    · exact hkeys line hline hmem
    · exact absurd hmem (by decide)
    · exact absurd (hdigits line hline 10 hmem) (by decide)
  rw [htext, sedLines_lines (List.forall_mem_map.mpr hrow) (List.forall_mem_map.mpr fun line _ =>
    List.append_ne_nil_of_left_ne_nil (List.append_ne_nil_of_right_ne_nil _ (by decide)) _),
    List.map_map]
  refine List.map_congr_left fun line hline => ?_
  have hself : sedBars (cstr (toString line.2)) = cstr (toString line.2) := by
    refine (List.map_congr_left fun b hb => if_neg ?_).trans (List.map_id _)
    rintro rfl
    exact absurd (hdigits line hline 124 hb) (by decide)
  simp only [Function.comp_apply, sedBars, List.map_append] at hself ⊢
  rw [hself, List.append_assoc]
  rfl

/-- **What the picture shows of a query**: the blocks of a process are as wide as it has
stacks. -/
theorem flame_widths {flamechart : Bool} {xs : List CString}
    (hnumeral : ∀ n : Nat, numeral (cstr n.repr) = n) (htally : IsTally lines xs)
    (hxs : ∀ x ∈ xs, 10 ∉ x) (hp : p ≠ []) :
    let node := (mergeFrames (stackLines numeral flamechart
      (formatFlame cxxfilt dem (sedLines (queryText lines))))).1.node
    ((node.keys.filter fun k => k.func = p ∧ k.depth = 1).map (frameWidth node)).sum =
      (xs.filter fun x => processOf x = p).length := by
  have hmem : ∀ line ∈ lines, line.1 ∈ xs ∧ line.2 = xs.count line.1 := fun line hline =>
    (htally.mem line.1 line.2).mp hline
  have hlines : Counted lines := fun line hline => by
    obtain ⟨hkey, hn⟩ := hmem line hline
    rw [hn]
    exact_mod_cast List.count_pos_iff.mpr hkey
  have hkeys : ∀ line ∈ lines, 10 ∉ line.1 := fun line hline => hxs _ (hmem line hline).1
  obtain ⟨hpos, hsum⟩ := @sum_formatFlame cxxfilt numeral dem p lines hnumeral hp hlines
  rw [sedLines_queryText hlines hkeys]
  generalize formatFlame cxxfilt dem (lines.map fun line =>
    sedBars line.1 ++ 32 :: cstr (toString line.2)) = data at *
  have hperm : (stackLines numeral flamechart data).Perm (data.filterMap (parseLine numeral)) :=
    stackLines_perm
  intro node
  rw [sum_frameWidth fun x hx => hpos x (hperm.mem_iff.mp hx), ((hperm.filter _).map _).sum_eq,
    hsum]
  exact htally.sum_filter fun key => processOf key = p

end Counts

/-- The hours of two seconds at the turn of an hour. -/
theorem hoursNameFiles_hourChange :
    HoursNameFiles firstDay (cstr "/tmp") hourChange (fun _ => false) ⟨3599, 3600, 0, none⟩ := by
  have hhours : ∀ u : Int, u ∈ QueryArgs.hours ⟨3599, 3600, 0, none⟩ ↔ u = 0 ∨ u = 3600 := by
    intro u
    rw [QueryArgs.mem_hours (by decide)]
    dsimp only
    omega
  refine ⟨⟨fun u hu => ?_, .inl (by decide)⟩, fun entry hentry _ => ?_, fun u hu v hv heq _ => ?_,
    .inl (whereFits_of_range (by decide) (by decide)), fun _ entry _ hselects _ =>
      inRange_of_selects (by decide) (by decide) hselects⟩
  · obtain rfl | rfl := (hhours u).mp hu <;> decide
  · have hfile : ∀ entry ∈ hourChange, dbPath firstDay (cstr "/tmp") entry.timestampNs =
        hourDbPath firstDay (cstr "/tmp") 0 ∨ dbPath firstDay (cstr "/tmp") entry.timestampNs =
          hourDbPath firstDay (cstr "/tmp") 3600 := by decide
    obtain h | h := hfile entry hentry
    · exact ⟨0, (hhours 0).mpr (.inl rfl), h.symm⟩
    · exact ⟨3600, (hhours 3600).mpr (.inr rfl), h.symm⟩
  · have hne : hourDbPath firstDay (cstr "/tmp") 0 ≠ hourDbPath firstDay (cstr "/tmp") 3600 := by
      decide
    obtain rfl | rfl := (hhours u).mp hu <;> obtain rfl | rfl := (hhours v).mp hv
    · rfl
    · exact absurd heq hne
    · exact absurd heq.symm hne
    · rfl

end Profiling
