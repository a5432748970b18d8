import CommitLanes.Layout.Basic
import CommitLanes.Word

/-! # Sweeping over rows

Straightening goes down the rows and shifts what it can. A shift may allow another one further
up, so the sweep goes back by the look-ahead after each, but never above the look-ahead of the
row furthest down. It ends at the last row, or after a number of shifts that is ample for rows
that can be straightened at all. -/

namespace CommitLanes

/-- The rows that a sweep goes over. -/
structure Stretch where
  start : Nat
  last : Nat
  /-- The last row that is looked at. -/
  horizon : Nat
  lookAhead : Nat
  /-- How many strands of a row are examined. -/
  maxLanes : Nat
  deriving DecidableEq

namespace Stretch

/-- A sweep needs a row above the first one and all rows down to the horizon. -/
def Fits (stretch : Stretch) (rows : Layout) : Prop :=
  0 < stretch.start ∧ stretch.start ≤ stretch.last ∧ stretch.last ≤ stretch.horizon ∧
    stretch.horizon < rows.size

instance (stretch : Stretch) (rows : Layout) : Decidable (stretch.Fits rows) :=
  inferInstanceAs (Decidable (_ ∧ _))

/-- The number of times that a sweep shifts before it gives up. -/
def budget (stretch : Stretch) : Nat :=
  (stretch.last + 1 - stretch.start) * stretch.maxLanes * 4

/-- The last row that is looked at from a row. It may lie above that row, since the sum wraps
around. -/
def horizonFrom (stretch : Stretch) (row : Nat) : Nat :=
  min (wrapSize (row + stretch.lookAhead)) stretch.horizon

theorem horizonFrom_le (stretch : Stretch) (row : Nat) :
    stretch.horizonFrom row ≤ row + stretch.lookAhead :=
  Nat.le_trans (Nat.min_le_left _ _) (wrapSize_le _)

theorem horizonFrom_of_lt {stretch : Stretch} {row : Nat}
    (hlt : row + stretch.lookAhead < UInt64.size) :
    stretch.horizonFrom row = min (row + stretch.lookAhead) stretch.horizon := by
  rw [horizonFrom, wrapSize_of_lt hlt]

example : Stretch.horizonFrom ⟨1, 2, 3, 0xFFFFFFFFFFFFFFFF, 40⟩ 1 = 0 := by decide

end Stretch

namespace Layout

/-- The first row from `row` down with something to shift. -/
def nextShifts? (find : Layout → Nat → Option (List Shift)) (last : Nat) (rows : Layout)
    (row : Nat) : Option (Nat × List Shift) :=
  (List.range' row (last + 1 - row)).findSome? fun r => (find rows r).map (r, ·)

/-- Goes down from `row` and shifts at most `budget` times. The sweep never goes back above
`floor`. -/
def sweepWithin (find : Layout → Nat → Option (List Shift)) (stretch : Stretch) :
    Nat → Nat → Nat → Layout → Layout
  | 0, _, _, rows => rows
  | budget + 1, floor, row, rows =>
    match nextShifts? find stretch.last rows row with
    | none => rows
    | some (r, moves) =>
      let floor := max floor (r - stretch.lookAhead)
      sweepWithin find stretch budget floor floor (rows.shiftAll moves)

/-- Goes down the rows of a stretch and shifts what `find` finds in a row. Nothing happens unless
the stretch fits. -/
def sweep (find : Stretch → Layout → Nat → Option (List Shift)) (stretch : Stretch)
    (rows : Layout) : Layout :=
  if stretch.Fits rows then
    sweepWithin (find stretch) stretch stretch.budget 1 stretch.start rows
  else rows

end Layout

end CommitLanes
