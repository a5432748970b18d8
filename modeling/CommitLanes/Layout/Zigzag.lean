import CommitLanes.Layout.Position
import CommitLanes.Layout.Sweep

/-! # Zigzags

A line that steps to the left and shortly afterwards to the right again makes a zigzag. It is
removed by a shift of the rows in which the line is too far left. Left and right are those of the
positions of lanes, and a line that is not in a row takes part at its position, −1. -/

namespace CommitLanes

/-- A line that is in lane `lane` in the rows from `row` down, and in row `stop` is further to
the right again. -/
structure Zigzag where
  row : Nat
  lane : Nat
  stop : Nat
  deriving DecidableEq

/-- The rows before `stop` are shifted by one lane. -/
def Zigzag.shifts (zigzag : Zigzag) : List Shift :=
  (List.range' zigzag.row (zigzag.stop - zigzag.row)).map (⟨·, zigzag.lane, 1⟩)

namespace Layout

/-- The row in which a line that stays at `lane` from `row` down steps to the right, looked for in
the given number of rows. It has to step to the next position, or to any further right if it was
at the next one above. -/
def returnRow? (rows : Layout) (lane above : Int) : Nat → Nat → Seg → Option Nat
  | 0, _, _ => none
  | count + 1, row, s =>
    let here := rows.positionOf row s
    if here = lane + 1 ∨ (lane + 1 < here ∧ above = lane + 1) then some row
    else if here = lane then returnRow? rows lane above count (row + 1) (rows.follow row s)
    else none

/-- The zigzag that a strand of a row begins, if it ends in row `last` or before. -/
def zigzagOf? (rows : Layout) (row last : Nat) (strand : Drawn) : Option Zigzag :=
  let lane := position strand.lane
  let above := rows.positionOf (row - 1) strand.segment
  if lane < above then
    (rows.returnRow? lane above (last - row) (row + 1) (rows.follow row strand.segment)).map
      (⟨row, strand.lane, ·⟩)
  else none

/-- The leftmost zigzag that begins in a row. -/
def findZigzag? (rows : Layout) (row last maxLanes : Nat) : Option Zigzag :=
  (rows.examined row maxLanes).findSome? (rows.zigzagOf? row last)

/-- Removes zigzags. -/
def straightenLanes : Stretch → Layout → Layout :=
  sweep fun stretch rows row =>
    (rows.findZigzag? row (stretch.horizonFrom row) stretch.maxLanes).map Zigzag.shifts

end Layout

end CommitLanes
