import Profiling.Glob

/-!
# Profiling.SmartQuery

`parse_time_range` of `smart_query.sh`: from a range of time as it is typed to
`START_TIME` and `END_TIME`.

`date` is a parameter.  The forms are told apart by patterns, and a range is cut at
its first hyphen for the end and at its last one for the start.  A day has hyphens
itself, so of the documented forms the one that names a day is cut wrongly, and the
one without an end goes to midnight instead of now.  `parseTimeRange_iff` says when a
form has its documented range all the same.
-/

namespace Profiling

/-- A day as `date +%Y-%m-%d` prints it. -/
structure DayText where
  year : CString
  month : CString
  day : CString
  year_ne : year ≠ []
  month_ne : month ≠ []
  day_ne : day ≠ []
  digits : ∀ b ∈ year ++ month ++ day, isdigit b = true

/-- A time of day, such as `15:10`. -/
structure ClockText where
  text : CString
  ne_nil : text ≠ []
  digits : ∀ b ∈ text, isdigit b = true ∨ b = 58

/-- `2023-09-22` -/
def DayText.text (d : DayText) : CString :=
  d.year ++ cstr "-" ++ d.month ++ cstr "-" ++ d.day

/-- `00:00` -/
def midnight : ClockText := ⟨cstr "00:00", by decide, by simp [cstr, isdigit]⟩

/-- What the commands answer that the function calls. -/
structure ShellCalls where
  /-- `date +%s` -/
  now : Int
  /-- `date +%Y-%m-%d` -/
  today : DayText
  /-- `date -d … +%s`, if it does not fail -/
  dateOf : CString → Option Int
  /-- the value of an arithmetic expression that is not a number -/
  evalOf : CString → Option Int
  now_ge : -2 ^ 63 ≤ now
  now_lt : now < 2 ^ 63

/-- What the function sets. -/
structure TimeRange where
  startTime : Int
  endTime : Int
  deriving DecidableEq, Repr

/-! ## The function -/

/-- Shell arithmetic is done in 64 bits. -/
def shellInt (n : Int) : Int := n.bmod (2 ^ 64)

/-- The number that octal digits stand for. -/
def octalValue (digits : CString) : Nat := digits.foldl (fun n b => 8 * n + (b.toNat - 48)) 0

/-- The value of a variable in an arithmetic expression: a number is decimal, and
octal behind a zero. -/
def ShellCalls.value (calls : ShellCalls) (text : CString) : Option Int :=
  if text = [] ∨ ¬text.all isdigit then calls.evalOf text
  else if text.head? = some 48 then
    if text.all fun b => b < 56 then some (shellInt (octalValue text)) else none
  else some (shellInt (leadingDecimal text))

/-- `$(date -d "…" +%s 2>/dev/null || echo $now)` -/
def ShellCalls.at (calls : ShellCalls) (text : CString) : Int :=
  (calls.dateOf text).getD calls.now

/-- `parse_time_range`; `none` if it does not set the times. -/
def parseTimeRange (calls : ShellCalls) (timeStr : CString) : Option TimeRange :=
  let now := calls.now
  if globMatch [.exact (cstr "last"), .any, .exact (cstr "minutes"), .any] timeStr then
    let minutes := withoutFront [.any, .exact (cstr "last ")] timeStr
    let minutes := withoutBack [.exact (cstr " minutes"), .any] minutes
    (calls.value minutes).map fun minutes =>
      { startTime := shellInt (now - shellInt (minutes * 60))
        endTime := now }
  else if globMatch [.exact (cstr "last"), .any, .exact (cstr "years"), .any] timeStr then
    let years := withoutFront [.any, .exact (cstr "last ")] timeStr
    let years := withoutBack [.exact (cstr " years"), .any] years
    (calls.value years).map fun years =>
      { startTime := shellInt (now - shellInt (years * 365 * 24 * 60 * 60))
        endTime := now }
  else if globMatch [.exact (cstr "today"), .any] timeStr then
    let today := calls.today.text
    let timePart := withoutFront [.exact (cstr "today ")] timeStr
    if globMatch [.any, .exact (cstr "-"), .any] timePart then
      let startTime := withoutBack [.exact (cstr "-"), .any] timePart
      let endTime := withoutFront [.any, .exact (cstr "-")] timePart
      some
        { startTime := calls.at (today ++ cstr " " ++ startTime)
          endTime := calls.at (today ++ cstr " " ++ endTime) }
    else
      some
        { startTime := calls.at (today ++ cstr " " ++ timePart)
          endTime := now }
  else if globMatch [.any, .exact (cstr "-"), .any] timeStr then
    let startTime := withoutBack [.exact (cstr "-"), .any] timeStr
    let endTime := withoutFront [.any, .exact (cstr "-")] timeStr
    if globMatch [.any, .exact (cstr "-"), .any, .exact (cstr "-"), .any] startTime then
      some
        { startTime := calls.at startTime
          endTime := calls.at endTime }
    else
      let today := calls.today.text
      some
        { startTime := calls.at (today ++ cstr " " ++ startTime)
          endTime := calls.at (today ++ cstr " " ++ endTime) }
  else none

/-! ## What is documented -/

/-- The forms of `show_help`. -/
inductive TimeForm where
  /-- `15:10-15:30` -/
  | hours (h₁ h₂ : ClockText)
  /-- `2023-09-22 15:10-15:30` -/
  | onDay (d : DayText) (h₁ h₂ : ClockText)
  /-- `today 15:10` -/
  | todayFrom (h₁ : ClockText)
  /-- `last 20 minutes` -/
  | lastMinutes (n : Nat)
  /-- `09:00-` -/
  | openEnd (h₁ : ClockText)
  /-- `-15:30` -/
  | openStart (h₂ : ClockText)

namespace TimeForm

/-- The form as it is typed. -/
def text : TimeForm → CString
  | hours h₁ h₂ => h₁.text ++ cstr "-" ++ h₂.text
  | onDay d h₁ h₂ => d.text ++ cstr " " ++ h₁.text ++ cstr "-" ++ h₂.text
  | todayFrom h₁ => cstr "today " ++ h₁.text
  | lastMinutes n => cstr "last " ++ cstr n.repr ++ cstr " minutes"
  | openEnd h₁ => h₁.text ++ cstr "-"
  | openStart h₂ => cstr "-" ++ h₂.text

/-- The range that the form stands for; `epoch` is when a day has a time. -/
def range (calls : ShellCalls) (epoch : DayText → ClockText → Int) : TimeForm → TimeRange
  | hours h₁ h₂ => ⟨epoch calls.today h₁, epoch calls.today h₂⟩
  | onDay d h₁ h₂ => ⟨epoch d h₁, epoch d h₂⟩
  | todayFrom h₁ => ⟨epoch calls.today h₁, calls.now⟩
  | lastMinutes n => ⟨calls.now - 60 * n, calls.now⟩
  | openEnd h₁ => ⟨epoch calls.today h₁, calls.now⟩
  | openStart h₂ => ⟨epoch calls.today midnight, epoch calls.today h₂⟩

/-- The days and times that are named, today where no day is. -/
def moments (today : DayText) : TimeForm → List (DayText × ClockText)
  | hours h₁ h₂ => [(today, h₁), (today, h₂)]
  | onDay d h₁ h₂ => [(d, h₁), (d, h₂)]
  | todayFrom h₁ => [(today, h₁)]
  | lastMinutes _ => []
  | openEnd h₁ => [(today, h₁)]
  | openStart h₂ => [(today, h₂)]

/-- `date` reads these days and times, and a day with a blank behind it as its
midnight. -/
structure Read (calls : ShellCalls) (epoch : DayText → ClockText → Int) (form : TimeForm) :
    Prop where
  moment : ∀ m ∈ form.moments calls.today,
    calls.dateOf (m.1.text ++ cstr " " ++ m.2.text) = some (epoch m.1 m.2)
  midnight : calls.dateOf (calls.today.text ++ cstr " ") = some (epoch calls.today midnight)

/-- When the form has its range.  With a day, `date` has to read what is behind the
day's first hyphen as the end, or to refuse it when it is just that time; the start
has to be an integer of the shell; an end that is left out is midnight. -/
def Lucky (calls : ShellCalls) (epoch : DayText → ClockText → Int) : TimeForm → Prop
  | hours _ _ => True
  | onDay d h₁ h₂ =>
      let rest := d.month ++ cstr "-" ++ d.day ++ cstr " " ++ h₁.text ++ cstr "-" ++ h₂.text
      calls.dateOf rest = some (epoch d h₂) ∨
        calls.dateOf rest = none ∧ calls.now = epoch d h₂
  | todayFrom _ => True
  | lastMinutes n => -2 ^ 63 ≤ calls.now - 60 * n
  | openEnd _ => calls.now = epoch calls.today Profiling.midnight
  | openStart _ => True

end TimeForm

/-! ## Hyphens -/

section

variable {calls : ShellCalls} {s : CString}

theorem hyphen_notMem_digits {digits : CString} (h : ∀ b ∈ digits, isdigit b = true) :
    45 ∉ digits := fun hmem => absurd (h 45 hmem) (by decide)

theorem hyphen_notMem_clock {text : CString} (h : ∀ b ∈ text, isdigit b = true ∨ b = 58) :
    45 ∉ text := fun hmem => by
  rcases h 45 hmem with hdigit | heq
  · exact absurd hdigit (by decide)
  · exact absurd heq (by decide)

/-- A time does not begin like `last` or `today`. -/
theorem head_clock {b : UInt8} (h : isdigit b = true ∨ b = 58) : b ≠ 108 ∧ b ≠ 116 := by
  rcases h with hdigit | rfl
  · have := toNat_of_isdigit hdigit
    constructor
    · rintro rfl
      simp at this
    · rintro rfl
      simp at this
  · decide

theorem DayText.head (d : DayText) (rest : CString) :
    ∀ b ∈ (d.text ++ rest).head?, b ≠ 108 ∧ b ≠ 116 := by
  intro b hb
  obtain ⟨a, year, hyear⟩ := List.exists_cons_of_ne_nil d.year_ne
  have hdigit := toNat_of_isdigit (d.digits a (by simp [hyear]))
  obtain rfl : a = b := by simpa [DayText.text, hyear] using hb
  constructor
  · rintro rfl
    simp at hdigit
  · rintro rfl
    simp at hdigit

theorem contains_hyphen : globMatch [.any, .exact (cstr "-"), .any] s = true ↔ 45 ∈ s := by
  rw [globMatch_inside, show cstr "-" = [45] from rfl, List.singleton_infix_iff]

/-- Text behind the second hyphen, and in front of the first one. -/
theorem contains_two_hyphens (a b c : CString) :
    globMatch [.any, .exact (cstr "-"), .any, .exact (cstr "-"), .any]
      (a ++ 45 :: (b ++ 45 :: c)) = true := by
  refine globMatch_any.mpr ⟨a, _, rfl, globMatch_exact.mpr ⟨b ++ 45 :: c, rfl, ?_⟩⟩
  exact contains_hyphen.mpr (by simp)

theorem not_contains_two_hyphens (h : 45 ∉ s) :
    globMatch [.any, .exact (cstr "-"), .any, .exact (cstr "-"), .any] s = false := by
  rw [← Bool.not_eq_true, globMatch_any]
  rintro ⟨skipped, rest, rfl, hrest⟩
  obtain ⟨rest, rfl, -⟩ := globMatch_exact.mp hrest
  exact h (by simp [cstr])

theorem not_globMatch_of_head {c : UInt8} {text : CString} {glob : Glob}
    (h : ∀ b ∈ s.head?, b ≠ c) : globMatch (.exact (c :: text) :: glob) s = false := by
  rw [← Bool.not_eq_true]
  intro hmatch
  obtain ⟨rest, rfl⟩ := globMatch_of_exact hmatch
  exact h c rfl rfl

/-- The branch for what has a hyphen and does not begin with a word. -/
theorem parseTimeRange_hyphen (hhead : ∀ b ∈ s.head?, b ≠ 108 ∧ b ≠ 116) (hhyphen : 45 ∈ s) :
    parseTimeRange calls s =
      let startTime := withoutBack [.exact (cstr "-"), .any] s
      let endTime := withoutFront [.any, .exact (cstr "-")] s
      if globMatch [.any, .exact (cstr "-"), .any, .exact (cstr "-"), .any] startTime then
        some ⟨calls.at startTime, calls.at endTime⟩
      else
        some ⟨calls.at (calls.today.text ++ cstr " " ++ startTime),
          calls.at (calls.today.text ++ cstr " " ++ endTime)⟩ := by
  have hlast : ∀ glob, globMatch (.exact (cstr "last") :: glob) s = false := fun _ =>
    not_globMatch_of_head fun b hb => (hhead b hb).1
  have htoday : ∀ glob, globMatch (.exact (cstr "today") :: glob) s = false := fun _ =>
    not_globMatch_of_head fun b hb => (hhead b hb).2
  simp only [parseTimeRange, hlast, htoday, contains_hyphen.mpr hhyphen, Bool.false_eq_true,
    if_false, if_true]

/-- A range of today: what is in front of its one hyphen, and behind it. -/
theorem parseTimeRange_today {a b : CString} (ha : 45 ∉ a) (hb : 45 ∉ b)
    (hhead : ∀ c ∈ (a ++ 45 :: b).head?, c ≠ 108 ∧ c ≠ 116) :
    parseTimeRange calls (a ++ 45 :: b) =
      some ⟨calls.at (calls.today.text ++ cstr " " ++ a),
        calls.at (calls.today.text ++ cstr " " ++ b)⟩ := by
  have hback : withoutBack [.exact (cstr "-"), .any] (a ++ 45 :: b) = a := withoutBack_sep a hb
  have hfront : withoutFront [.any, .exact (cstr "-")] (a ++ 45 :: b) = b := withoutFront_sep ha b
  rw [parseTimeRange_hyphen hhead (by simp)]
  simp only [hback, hfront, not_contains_two_hyphens ha, Bool.false_eq_true, if_false]

/-! ## The forms -/

/-- The start is what is in front of the last hyphen, and the end what is behind the
first one. -/
theorem parseTimeRange_onDay (calls : ShellCalls) (d : DayText) (h₁ h₂ : ClockText) :
    parseTimeRange calls (TimeForm.onDay d h₁ h₂).text =
      some ⟨calls.at (d.text ++ cstr " " ++ h₁.text),
        calls.at (d.month ++ cstr "-" ++ d.day ++ cstr " " ++ h₁.text ++ cstr "-" ++ h₂.text)⟩ := by
  have hyear : 45 ∉ d.year := hyphen_notMem_digits fun b hb => d.digits b (by simp [hb])
  have hlast : (TimeForm.onDay d h₁ h₂).text = (d.text ++ cstr " " ++ h₁.text) ++ 45 :: h₂.text := by
    simp [TimeForm.text, cstr]
  have hfirst : (TimeForm.onDay d h₁ h₂).text = d.year ++ 45 ::
      (d.month ++ cstr "-" ++ d.day ++ cstr " " ++ h₁.text ++ cstr "-" ++ h₂.text) := by
    simp [TimeForm.text, DayText.text, cstr]
  have hstart : d.text ++ cstr " " ++ h₁.text =
      d.year ++ 45 :: (d.month ++ 45 :: (d.day ++ cstr " " ++ h₁.text)) := by
    simp [DayText.text, cstr]
  have hback : withoutBack [.exact (cstr "-"), .any] (TimeForm.onDay d h₁ h₂).text =
      d.text ++ cstr " " ++ h₁.text := by
    rw [hlast]
    exact withoutBack_sep _ (hyphen_notMem_clock h₂.digits)
  have hfront : withoutFront [.any, .exact (cstr "-")] (TimeForm.onDay d h₁ h₂).text =
      d.month ++ cstr "-" ++ d.day ++ cstr " " ++ h₁.text ++ cstr "-" ++ h₂.text := by
    rw [hfirst]
    exact withoutFront_sep hyear _
  have htwo : globMatch [.any, .exact (cstr "-"), .any, .exact (cstr "-"), .any]
      (d.text ++ cstr " " ++ h₁.text) = true := by
    rw [hstart]
    exact contains_two_hyphens _ _ _
  rw [parseTimeRange_hyphen]
  · simp only [hback, hfront, htwo, if_true]
  · simp only [TimeForm.text, List.append_assoc]
    exact d.head _
  · rw [hlast]
    simp

theorem parseTimeRange_todayFrom (calls : ShellCalls) (h₁ : ClockText) :
    parseTimeRange calls (TimeForm.todayFrom h₁).text =
      some ⟨calls.at (calls.today.text ++ cstr " " ++ h₁.text), calls.now⟩ := by
  have hlast : ∀ glob, globMatch (.exact (cstr "last") :: glob) (TimeForm.todayFrom h₁).text =
      false := fun _ => not_globMatch_of_head fun b hb => by
    obtain rfl : 116 = b := by simpa [TimeForm.text, cstr] using hb
    decide
  have htoday : globMatch [.exact (cstr "today"), .any] (TimeForm.todayFrom h₁).text = true :=
    globMatch_front.mpr ⟨cstr " " ++ h₁.text, by simp [TimeForm.text, cstr]⟩
  have hpart : withoutFront [.exact (cstr "today ")] (TimeForm.todayFrom h₁).text = h₁.text :=
    withoutFront_exact _ _
  have hno : globMatch [.any, .exact (cstr "-"), .any] h₁.text = false := by
    rw [← Bool.not_eq_true, contains_hyphen]
    exact hyphen_notMem_clock h₁.digits
  simp only [parseTimeRange, hlast, htoday, hpart, hno, Bool.false_eq_true, if_false, if_true]

/-- Only zero is printed with a zero in front. -/
theorem eq_zero_of_head_repr {n : Nat} (h : (cstr n.repr).head? = some 48) : n = 0 := by
  induction n using Nat.strong_induction_on with
  | _ n ih =>
    by_cases hn : n < 10
    · rw [cstr_repr_of_lt hn, List.head?_cons, Option.some.injEq] at h
      have hvalue := toNat_digitChar hn
      rw [h] at hvalue
      simp only [UInt8.reduceToNat] at hvalue
      omega
    · rw [cstr_repr_step (Nat.le_of_not_lt hn),
        List.head?_append_of_ne_nil _ (cstr_repr_ne_nil _)] at h
      have := ih (n / 10) (Nat.div_lt_self (by omega) (by decide)) h
      omega

/-- A number without a zero in front is read as it is. -/
theorem value_repr (calls : ShellCalls) (n : Nat) :
    calls.value (cstr n.repr) = some (shellInt n) := by
  have hall : (cstr n.repr).all isdigit = true :=
    List.all_eq_true.mpr fun b hb => isdigit_of_mem_repr hb
  rw [ShellCalls.value, if_neg (by simp [cstr_repr_ne_nil, hall]), leadingDecimal_repr]
  split
  · next hzero =>
    have hn : n = 0 := eq_zero_of_head_repr hzero
    subst hn
    rfl
  · rfl

theorem shellInt_minutes (now : Int) (n : Nat) :
    shellInt (now - shellInt (shellInt n * 60)) = shellInt (now - 60 * n) := by
  rw [shellInt, shellInt, shellInt, shellInt, Int.bmod_mul_bmod, Int.sub_bmod_bmod, Int.mul_comm]

/-- Going back from now leaves the integers of the shell at one end only. -/
theorem shellInt_sub_eq_iff (calls : ShellCalls) (n : Nat) :
    shellInt (calls.now - 60 * n) = calls.now - 60 * n ↔ -2 ^ 63 ≤ calls.now - 60 * n := by
  have hlt := calls.now_lt
  constructor
  · intro heq
    have hge := Int.le_bmod (x := calls.now - 60 * n) (m := 2 ^ 64) (by decide)
    rw [← shellInt, heq] at hge
    omega
  · intro hge
    rw [shellInt]
    exact Int.bmod_eq_of_le (by omega) (by omega)

theorem parseTimeRange_lastMinutes (calls : ShellCalls) (n : Nat) :
    parseTimeRange calls (TimeForm.lastMinutes n).text =
      some ⟨shellInt (calls.now - 60 * n), calls.now⟩ := by
  have hlast : globMatch [.exact (cstr "last"), .any, .exact (cstr "minutes"), .any]
      (TimeForm.lastMinutes n).text = true := by
    refine globMatch_exact.mpr ⟨cstr " " ++ cstr n.repr ++ cstr " minutes", ?_, ?_⟩
    · simp [TimeForm.text, cstr]
    · rw [globMatch_inside]
      exact ⟨cstr " " ++ cstr n.repr ++ cstr " ", [], by simp [cstr]⟩
  have hfront : withoutFront [.any, .exact (cstr "last ")] (TimeForm.lastMinutes n).text =
      cstr n.repr ++ cstr " minutes" := by
    rw [TimeForm.text, List.append_assoc]
    exact withoutFront_text _ _
  have hback : withoutBack [.exact (cstr " minutes"), .any] (cstr n.repr ++ cstr " minutes") =
      cstr n.repr := withoutBack_text _ _
  simp only [parseTimeRange, hlast, if_true, hfront, hback, value_repr, Option.map_some,
    shellInt_minutes]

/-- `H1-H2`, where one of the two may be left out. -/
theorem parseTimeRange_clocks (calls : ShellCalls) {a b : CString} (ha : ∀ c ∈ a, isdigit c = true ∨ c = 58)
    (hb : ∀ c ∈ b, isdigit c = true ∨ c = 58) :
    parseTimeRange calls (a ++ cstr "-" ++ b) =
      some ⟨calls.at (calls.today.text ++ cstr " " ++ a),
        calls.at (calls.today.text ++ cstr " " ++ b)⟩ := by
  have hsplit : a ++ cstr "-" ++ b = a ++ 45 :: b := by simp [cstr]
  rw [hsplit]
  refine parseTimeRange_today (hyphen_notMem_clock ha) (hyphen_notMem_clock hb) fun c hc => ?_
  have hmem := List.mem_of_mem_head? hc
  cases a with
  | nil =>
    obtain rfl : 45 = c := by simpa using hc
    decide
  | cons x a =>
    obtain rfl : x = c := by simpa using hc
    exact head_clock (ha x List.mem_cons_self)

theorem ShellCalls.at_of_dateOf {text : CString} {n : Int} (h : calls.dateOf text = some n) :
    calls.at text = n := by
  rw [ShellCalls.at, h, Option.getD_some]

theorem ShellCalls.at_eq_iff (calls : ShellCalls) {text : CString} {n : Int} :
    calls.at text = n ↔
      calls.dateOf text = some n ∨ calls.dateOf text = none ∧ calls.now = n := by
  rw [ShellCalls.at]
  cases calls.dateOf text <;> simp

/-! ## A date -/

/-- Days from 1970-01-01 to a day; the year begins in March here. -/
def daysSinceEpoch (year month day : Nat) : Int :=
  let year := if month ≤ 2 then year - 1 else year
  (365 * year + year / 4 - year / 100 + year / 400 + (153 * ((month + 9) % 12) + 2) / 5 + day : Nat)
    - 719469

/-- `date -u -d … +%s` on a day and a time; a day alone is its midnight, and what is
no day is refused. -/
def utcDate (text : CString) : Option Int :=
  match text.splitOn 32 with
  | [day, clock] =>
    match (day.splitOn 45).map leadingDecimal, (clock.splitOn 58).map leadingDecimal with
    | [year, month, day], [hour, minute] =>
      some (daysSinceEpoch year month day * 86400 + hour * 3600 + minute * 60)
    | [year, month, day], [0] => some (daysSinceEpoch year month day * 86400)
    | _, _ => none
  | _ => none

/-- When a day has a time in UTC. -/
def utcEpoch (d : DayText) (h : ClockText) : Int :=
  (utcDate (d.text ++ cstr " " ++ h.text)).getD 0

/-- A Friday in September. -/
def friday : DayText :=
  ⟨cstr "2023", cstr "09", cstr "22", by decide, by decide, by decide, by simp [cstr, isdigit]⟩

/-- That Friday at four in the afternoon. -/
def fridayCalls : ShellCalls where
  now := utcEpoch friday ⟨cstr "16:00", by decide, by simp [cstr, isdigit]⟩
  today := friday
  dateOf := utcDate
  evalOf _ := none
  now_ge := by decide
  now_lt := by decide

/-- Ten past three. -/
def tenPastThree : ClockText := ⟨cstr "15:10", by decide, by simp [cstr, isdigit]⟩

/-- Half past three. -/
def halfPastThree : ClockText := ⟨cstr "15:30", by decide, by simp [cstr, isdigit]⟩

example : utcEpoch friday tenPastThree = 1695395400 := by decide

/-! ## The documented ranges -/

/-- The forms that have their documented range, and those that have it by chance. -/
theorem parseTimeRange_iff (calls : ShellCalls) (epoch : DayText → ClockText → Int)
    (form : TimeForm) (h : form.Read calls epoch) :
    parseTimeRange calls form.text = some (form.range calls epoch) ↔ form.Lucky calls epoch := by
  have hmidnight := calls.at_of_dateOf h.midnight
  have hmoment := h.moment
  cases form with
  | hours h₁ h₂ =>
    have hstart := calls.at_of_dateOf (hmoment (calls.today, h₁) (by simp [TimeForm.moments]))
    have hend := calls.at_of_dateOf (hmoment (calls.today, h₂) (by simp [TimeForm.moments]))
    simp only [TimeForm.text, parseTimeRange_clocks calls h₁.digits h₂.digits, hstart, hend,
      TimeForm.range, TimeForm.Lucky]
  | onDay d h₁ h₂ =>
    have hstart := calls.at_of_dateOf (hmoment (d, h₁) (by simp [TimeForm.moments]))
    rw [parseTimeRange_onDay, hstart]
    simp only [TimeForm.range, TimeForm.Lucky, Option.some.injEq, TimeRange.mk.injEq, true_and,
      calls.at_eq_iff]
  | todayFrom h₁ =>
    have hstart := calls.at_of_dateOf (hmoment (calls.today, h₁) (by simp [TimeForm.moments]))
    simp only [parseTimeRange_todayFrom, hstart, TimeForm.range, TimeForm.Lucky]
  | lastMinutes n =>
    simp only [parseTimeRange_lastMinutes, TimeForm.range, TimeForm.Lucky, Option.some.injEq,
      TimeRange.mk.injEq, and_true, shellInt_sub_eq_iff]
  | openEnd h₁ =>
    have hstart := calls.at_of_dateOf (hmoment (calls.today, h₁) (by simp [TimeForm.moments]))
    have hrange := parseTimeRange_clocks calls h₁.digits (b := []) (by simp)
    rw [List.append_nil] at hrange
    simp only [TimeForm.text, hrange, List.append_nil, hstart, hmidnight, TimeForm.range,
      TimeForm.Lucky, Option.some.injEq, TimeRange.mk.injEq, true_and, eq_comm]
  | openStart h₂ =>
    have hend := calls.at_of_dateOf (hmoment (calls.today, h₂) (by simp [TimeForm.moments]))
    have hrange := parseTimeRange_clocks calls (a := []) (by simp) h₂.digits
    rw [List.nil_append] at hrange
    simp only [TimeForm.text, hrange, List.append_nil, hend, hmidnight, TimeForm.range,
      TimeForm.Lucky]

/-- A range of today. -/
theorem parseTimeRange_hours_friday :
    parseTimeRange fridayCalls (TimeForm.hours tenPastThree halfPastThree).text =
      some ⟨utcEpoch friday tenPastThree, utcEpoch friday halfPastThree⟩ :=
  (parseTimeRange_iff fridayCalls utcEpoch (.hours tenPastThree halfPastThree)
    ⟨by decide, by decide⟩).mpr trivial

/-- `2023-09-22 15:10-15:30` ends now: `date` is asked for `09-22 15:10-15:30`. -/
theorem parseTimeRange_onDay_friday :
    (TimeForm.onDay friday tenPastThree halfPastThree).Read fridayCalls utcEpoch ∧
      utcEpoch friday tenPastThree ≤ utcEpoch friday halfPastThree ∧
      parseTimeRange fridayCalls (cstr "2023-09-22 15:10-15:30") =
        some ⟨utcEpoch friday tenPastThree, fridayCalls.now⟩ ∧
      parseTimeRange fridayCalls (TimeForm.onDay friday tenPastThree halfPastThree).text ≠
        some ((TimeForm.onDay friday tenPastThree halfPastThree).range fridayCalls utcEpoch) :=
  ⟨⟨by decide, by decide⟩, by decide, by decide, by decide⟩

end

end Profiling
