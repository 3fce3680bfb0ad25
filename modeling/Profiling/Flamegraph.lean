import Profiling.CString
import Profiling.Runs

/-!
# Profiling.Flamegraph

`flamegraph.pl`: from lines of a stack and a count to the frames of the picture.

`flow` compares each stack with the one before it.  A frame that they do not share any
more gets its end and goes from `%Tmp` to `%Node`, and one that they do not share yet
gets its start.  Of `%Node` the frames that are too narrow go, and each of the others
becomes a rectangle.

The times are the sums of the counts so far; a count is any decimal number, and
`numeral` what the language makes of it.  Spaces and digits are those of ASCII.
`--reverse` and the chain colours are left out.
-/

namespace Profiling

/-! ## Lines -/

/-- `\d+(?:\.\d*)?` -/
def isNumeral (text : CString) : Bool :=
  text.takeWhile isdigit ≠ [] &&
    match text.dropWhile isdigit with
    | [] => true
    | b :: rest => b == 46 && rest.all isdigit

/-- `/^(.*)\s+?(\d+(?:\.\d*)?)$/`: there is no space in a number, so it is behind the last
one. -/
def matchSamples (line : CString) : Option (CString × CString) :=
  let stack := line.rdropWhile fun b => !isspace b
  let samples := line.rtakeWhile fun b => !isspace b
  if stack ≠ [] ∧ isNumeral samples then some (stack.dropLast, samples) else none

/-- `split ";", $stack`, which does not give the last fields if they are empty. -/
def splitFrames (stack : CString) : List CString :=
  (stack.splitOn 59).rdropWhile (· = [])

/-- What `flow` is called with for a line, and how far the time moves on. -/
structure StackLine (τ : Type*) where
  frames : List CString
  delta : Option τ
  samples : τ

/-- A line with one column of samples, or with two. -/
def parseLine {τ : Type*} [Sub τ] (numeral : CString → τ) (line : CString) :
    Option (StackLine τ) :=
  (matchSamples line).map fun (stack, samples) =>
    match matchSamples stack with
    | none => ⟨[] :: splitFrames stack, none, numeral samples⟩
    | some (stack, samples₁) =>
        ⟨[] :: splitFrames stack, some (numeral samples - numeral samples₁), numeral samples⟩

/-- `@SortedData`: the lines come in through `unshift`. -/
def sortedData (flamechart : Bool) (data : List CString) : List CString :=
  if flamechart then data.reverse.reverse
  else data.reverse.mergeSort fun a b => decide (a ≤ b)

/-! ## Merging -/

/-- `"$func;$depth"` -/
structure TmpKey where
  func : CString
  depth : Nat
  deriving DecidableEq, Repr

/-- `"$func;$depth;$etime"` -/
structure NodeKey (τ : Type*) extends TmpKey where
  etime : τ
  deriving DecidableEq, Repr

/-- A value of `%Tmp` or `%Node`; a field that is not defined is `none`. -/
structure FrameData (τ : Type*) where
  stime : Option τ
  delta : Option τ
  deriving DecidableEq, Repr

/-- The two hashes. -/
structure Hashes (τ : Type*) where
  node : AList fun _ : NodeKey τ => FrameData τ
  tmp : AList fun _ : TmpKey => FrameData τ

section Merging

variable {τ : Type*}

/-- The first loop of `flow`. -/
def lenSame : List CString → List CString → Nat
  | a :: last, b :: this => if a = b then lenSame last this + 1 else 0
  | _, _ => 0

/-- The keys of the frames from a depth on. -/
def frameKeys (stack : List CString) (depth : Nat) : List TmpKey :=
  (stack.zipIdx.map fun x => ⟨x.1, x.2⟩).drop depth

/-- The body of the second loop: the frame ends at `v`. -/
def closeFrame [DecidableEq τ] (v : τ) (s : Hashes τ) (k : TmpKey) : Hashes τ :=
  let tmp := s.tmp.lookup k
  let old := s.node.lookup ⟨k, v⟩
  { node := s.node.insert ⟨k, v⟩
      ⟨tmp.bind FrameData.stime, (tmp.bind FrameData.delta).or (old.bind FrameData.delta)⟩
    tmp := s.tmp.erase k }

/-- The body of the third loop: the frame begins at `v`, and is the last one of its stack or
not. -/
def openFrame [AddZeroClass τ] (v : τ) (d : Option τ) (lenB : Nat) (s : Hashes τ) (k : TmpKey) :
    Hashes τ :=
  let old := s.tmp.lookup k
  let delta := old.bind FrameData.delta
  { s with
    tmp := s.tmp.insert k
      ⟨some v, match d with
        | none => delta
        | some d => some (delta.getD 0 + if k.depth + 1 = lenB then d else 0)⟩ }

/-- `flow` -/
def flow [DecidableEq τ] [AddZeroClass τ] (last this : List CString) (v : τ) (d : Option τ)
    (s : Hashes τ) : Hashes τ :=
  let same := lenSame last this
  let s := (frameKeys last same).reverse.foldl (closeFrame v) s
  (frameKeys this same).foldl (openFrame v d this.length) s

/-- What the main loop carries from line to line. -/
structure MergeState (τ : Type*) where
  hashes : Hashes τ
  last : List CString
  time : τ

def mergeInit [Zero τ] : MergeState τ := ⟨⟨∅, ∅⟩, [], 0⟩

/-- One line that is not ignored. -/
def mergeLine [DecidableEq τ] [AddZeroClass τ] (s : MergeState τ) (line : StackLine τ) :
    MergeState τ where
  hashes := flow s.last line.frames s.time line.delta s.hashes
  last := line.frames
  time := s.time + line.samples

/-- The main loop and the last call of `flow`; `$delta` is that of the last line. -/
def mergeFrames [DecidableEq τ] [AddZeroClass τ] (lines : List (StackLine τ)) :
    Hashes τ × τ :=
  let s := lines.foldl mergeLine mergeInit
  (flow s.last [] s.time (lines.getLast?.bind StackLine.delta) s.hashes, s.time)

end Merging

/-- The lines that are not ignored, in the order in which they are merged. -/
def stackLines {τ : Type*} [Sub τ] (numeral : CString → τ) (flamechart : Bool)
    (data : List CString) : List (StackLine τ) :=
  (sortedData flamechart data).filterMap (parseLine numeral)

/-! ## Drawing -/

/-- `--minwidth` -/
inductive MinWidth (K : Type*) where
  | pixels (width : K)
  | percent (part : K)
  deriving Repr

/-- The options that the sizes depend on. -/
structure Layout (K : Type*) where
  imagewidth : K
  frameheight : K
  fontsize : K
  subtitle : Bool
  inverted : Bool
  minwidth : MinWidth K
  /-- `--total` -/
  total : Option K

/-- `filledRectangle` -/
structure Rect (K : Type*) where
  x1 : K
  y1 : K
  x2 : K
  y2 : K
  deriving DecidableEq, Repr

section Drawing

variable {K : Type*} [Field K] [LinearOrder K]

namespace Layout

variable (layout : Layout K)

/-- The sizes of an image without options. -/
def default : Layout K := ⟨1200, 16, 12, false, false, .pixels (1 / 10), none⟩

def ypad1 : K := layout.fontsize * 3
def ypad2 : K := layout.fontsize * 2 + 10
def ypad3 : K := layout.fontsize * 2
def xpad : K := 10
def framepad : K := 1

/-- A total that is zero or less than the sum of the counts is ignored. -/
def timemax (time : K) : K :=
  match layout.total with
  | none => time
  | some total => if total ≠ 0 ∧ ¬total < time then total else time

def widthpertime (timemax : K) : K := (layout.imagewidth - 2 * xpad) / timemax

def minwidthTime (timemax : K) : K :=
  match layout.minwidth with
  | .percent part => timemax * part / 100
  | .pixels width => width / layout.widthpertime timemax

def imageheight (depthmax : Nat) : K :=
  (depthmax + 1) * layout.frameheight + layout.ypad1 + layout.ypad2 +
    if layout.subtitle then layout.ypad3 else 0

/-- One round of the loop that draws the frames. -/
def drawFrame (timemax imageheight : K) (id : NodeKey K) (stime : K) : Rect K :=
  let etime := if id.func = [] ∧ id.depth = 0 then timemax else id.etime
  let x1 := xpad + stime * layout.widthpertime timemax
  let x2 := xpad + etime * layout.widthpertime timemax
  if layout.inverted then
    { x1, x2
      y1 := layout.ypad1 + id.depth * layout.frameheight
      y2 := layout.ypad1 + (id.depth + 1) * layout.frameheight - framepad }
  else
    { x1, x2
      y1 := imageheight - layout.ypad2 - (id.depth + 1) * layout.frameheight + framepad
      y2 := imageheight - layout.ypad2 - id.depth * layout.frameheight }

end Layout

/-- One round of the loop that prunes `%Node` and looks for the greatest depth; `none` if a
start is missing. -/
def pruneEntry (minwidthTime : K) (s : (AList fun _ : NodeKey K => FrameData K) × Nat)
    (entry : Σ _ : NodeKey K, FrameData K) :
    Option ((AList fun _ : NodeKey K => FrameData K) × Nat) := do
  let stime ← entry.2.stime
  if entry.1.etime - stime < minwidthTime then some (s.1.erase entry.1, s.2)
  else some (s.1, if s.2 < entry.1.depth then entry.1.depth else s.2)

/-- The frames that are not too narrow, and `$depthmax`. -/
def prune (minwidthTime : K) (node : AList fun _ : NodeKey K => FrameData K) :
    Option ((AList fun _ : NodeKey K => FrameData K) × Nat) :=
  node.entries.foldlM (pruneEntry minwidthTime) (node, 0)

/-- The picture: its height, and the frames with their rectangles. -/
structure Picture (K : Type*) where
  imageheight : K
  frames : List (NodeKey K × Rect K)

/-- From the lines to the picture; `none` if there are no counts, or a start is missing. -/
def flamegraph (layout : Layout K) (lines : List (StackLine K)) : Option (Picture K) :=
  let (hashes, time) := mergeFrames lines
  if time = 0 then none
  else
    let timemax := layout.timemax time
    (prune (layout.minwidthTime timemax) hashes.node).map fun (node, depthmax) =>
      let imageheight := layout.imageheight depthmax
      { imageheight
        frames := node.entries.map fun entry =>
          (entry.1, layout.drawFrame timemax imageheight entry.1 (entry.2.stime.getD 0)) }

end Drawing

end Profiling
