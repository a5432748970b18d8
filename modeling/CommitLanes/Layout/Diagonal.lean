import CommitLanes.Layout.Position
import CommitLanes.Layout.Sweep

/-! # Diagonals

A line that steps by one lane in each row reads as a diagonal. Three shapes are changed: a step
that is held for a row and a step of several lanes become diagonals, and two steps of several
lanes in a row become one. Lanes are compared by their positions, and sums and differences of
positions wrap around. A line that stands left of lane 0 in a row above or below is treated as if
it were not there. -/

namespace CommitLanes

/-- A line at a row, looked at for a diagonal. -/
structure Bend where
  rows : Layout
  row : Nat
  /-- The last row that is looked at. -/
  last : Nat
  segment : Seg
  /-- Where the line stands in the row. -/
  here : Int
  /-- Where it stands in the row above. -/
  above : Int

namespace Bend

/-- The segment as which the line reaches the next row. -/
def next (b : Bend) : Seg := b.rows.follow b.row b.segment

/-- Where the line stands in the next row. -/
def below (b : Bend) : Int := b.rows.positionOf (b.row + 1) b.next

/-- The segment as which the line reaches the row after the next. -/
def afterNext (b : Bend) : Seg := b.rows.follow (b.row + 1) b.next

/-- The shift of the row itself at the line. -/
def shiftHere (b : Bend) (width : Nat) : List Shift := [⟨b.row, b.here.natAbs, width⟩]

/-- Whether the line comes into the row above by a step of `slope` to the left. -/
def entersBy (b : Bend) (slope : Int) : Bool :=
  let before := b.rows.positionOf (b.row - 2) b.segment
  2 ≤ b.row && (0 ≤ before && before = wrapInt (b.above + slope))

/-- Whether the line stands at `place` in the row after the next. -/
def goesOnTo (b : Bend) (place : Int) : Bool :=
  let after := b.rows.positionOf (b.row + 2) b.afterNext
  b.row + 2 ≤ b.last && (0 ≤ after && after = place)

/-- A line that steps to the left, stays for a row and steps to the left again: the first step is
put off by a row. -/
def postpone? (b : Bend) : Option (List Shift) :=
  if b.here = wrapInt (b.above - 1) ∧ b.below = b.here ∧ b.goesOnTo (wrapInt (b.here - 1)) ∧
      ¬ b.entersBy 1 then
    some (b.shiftHere 1)
  else none

/-- Follows a line down from `row` beside a diagonal that stands at `above` in the row before, for at
most the given number of rows, and collects the shifts that take the line onto the diagonal.
The diagonal ends where the line meets it. A line that ends in a shared lane is not shifted, so
there it has to meet the diagonal; and a line that falls behind again after a single step is left
to fall. -/
def diagonalFrom? (b : Bend) (slope : Int) :
    Nat → Nat → Seg → Int → List Shift → Option (List Shift)
  | 0, _, _, _, _ => none
  | count + 1, row, s, above, moves =>
    match b.rows.strand? row s with
    | none => none
    | some strand =>
      let target := wrapInt (above + slope)
      let behind := wrapInt (target - position strand.lane)
      let width := behind.toNat
      let ending := strand.sharing = .differentStart
      if behind < 0 ∨ position strand.lane < 0 ∨
          ¬ (strand.sharing = .primary ∨ ending) then none
      else if 2 ≤ width ∧ row = b.row + 3 ∧ moves.length = 2 ∧
          (moves[1]?.any fun move => move.width = 1) then
        some (moves.take 1)
      else if width = 0 ∧ moves ≠ [] then some moves
      else if ending then none
      else
        let moves := if width = 0 then moves else moves ++ [⟨row, strand.lane, width⟩]
        b.diagonalFrom? slope count (row + 1) (b.rows.follow row s) target moves

/-- A line that steps over several lanes is led there by a diagonal. -/
def diagonal? (b : Bend) (slope : Int) : Option (List Shift) :=
  b.diagonalFrom? slope (b.last + 1 - b.row) b.row b.segment
    (if 0 ≤ b.above then b.above else b.here) []

/-- Two steps in the same direction, of three lanes together or more, become one; but not where
the line goes on as a diagonal at either end. -/
def join? (b : Bend) : Option (List Shift) :=
  let first := wrapInt (b.above - b.here)
  let second := wrapInt (b.here - b.below)
  if 0 ≤ b.above ∧ first ≠ 0 ∧ 0 ≤ b.below ∧ second.sign = first.sign ∧
      3 ≤ (wrapInt (second + first)).natAbs ∧ ¬ b.entersBy first.sign ∧
      ¬ b.goesOnTo (wrapInt (b.below - second.sign)) then
    some (b.shiftHere (if second < 0 then second.natAbs else first.natAbs))
  else none

/-- The first shape found. -/
def shifts? (b : Bend) : Option (List Shift) :=
  b.postpone?.or <| (b.diagonal? 1).or <| (b.diagonal? (-1)).or b.join?

end Bend

namespace Layout

/-- A strand of a row as a bend, looked at down to row `last`. -/
def bend (rows : Layout) (row last : Nat) (strand : Drawn) : Bend where
  rows := rows
  row := row
  last := last
  segment := strand.segment
  here := position strand.lane
  above := rows.positionOf (row - 1) strand.segment

/-- The shifts for the leftmost strand of a row that can be made a diagonal, found in the rows
down to `last`. -/
def findDiagonal? (rows : Layout) (row last maxLanes : Nat) : Option (List Shift) :=
  (rows.examined row maxLanes).findSome? fun strand => (rows.bend row last strand).shifts?

/-- Turns steps into diagonals. -/
def straightenDiagonals : Stretch → Layout → Layout :=
  sweep fun stretch rows row =>
    rows.findDiagonal? row (stretch.horizonFrom row) stretch.maxLanes

end Layout

end CommitLanes
