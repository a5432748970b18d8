import CommitLanes.History.Basic

/-! # Colored lines

A line is what the eye follows down the graph: it keeps its color through first parents. A line
that starts gets a color other than that of the line it leaves and of the line to its left. -/

namespace CommitLanes

/-- A color and the place where it starts. -/
structure Line where
  /-- A position in the palette. -/
  color : Nat
  /-- The revision at which the line starts. -/
  start : Rev
  deriving DecidableEq, Inhabited

namespace Line

/-- The first color to be had from a seed and the seeds after it that is not taken. Of three
seeds in a row that give different colors one is free if at most two colors are taken; where the
seeds start again at zero one or two more are needed. -/
def pickColor (palette : Nat) (seed : UInt32) (taken : List Nat) : Nat :=
  let colors := (List.range 5).map fun step => (seed + step.toUInt32).toNat % palette
  (colors.find? (· ∉ taken)).getD 0

/-- The line of a segment that continues no other line. It starts at the child, and both ends
have a say in its color. -/
def opening (h : History) (palette : Nat) (segment : Segment) (left : Option Line) : Line where
  color := pickColor palette
    ((h.revision segment.child).id.seed ^^^ (h.revision segment.parent).id.seed)
    (left.map (·.color)).toList
  start := segment.child

/-- The line of a segment that branches off the line `trunk`. It starts at the parent. -/
def branching (h : History) (palette : Nat) (segment : Segment) (trunk : Line)
    (left : Option Line) : Line where
  color := pickColor palette (h.revision segment.parent).id.seed
    (trunk.color :: (left.map (·.color)).toList)
  start := segment.parent

/-- The score of the revision at which the line starts. -/
def startScore (h : History) (line : Line) : Score := h.score line.start

end Line

end CommitLanes
