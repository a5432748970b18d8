import CommitLanes.Row.Basic

/-! # Layouts

A layout is the list of rows from the top. Its rows are built once, and later only shifted: a
shift takes everything at or right of a lane further to the right, so it never changes the order
of strands and brings no two lanes together. -/

namespace CommitLanes

/-- The rows from the top. -/
abbrev Layout := Array Row

/-- The shift of a part of one row to the right. -/
structure Shift where
  row : Nat
  /-- The first lane that is shifted. -/
  lane : Nat
  /-- By how many lanes. -/
  width : Nat
  deriving DecidableEq, Inhabited

namespace Layout

/-- The strand of a segment in a row. -/
def strand? (rows : Layout) (row : Nat) (s : Seg) : Option Drawn := rows[row]?.bind (·.find? s)

/-- The lane of a segment in a row. -/
def lane? (rows : Layout) (row : Nat) (s : Seg) : Option Nat := rows[row]?.bind (·.lane? s)

/-- The segment as which a line goes on below a row. -/
def follow (rows : Layout) (row : Nat) (s : Seg) : Seg := (rows[row]?.map (·.follow s)).getD s

/-- Shifts a part of a row; a row that there is not is left alone. -/
def shift (rows : Layout) (move : Shift) : Layout :=
  rows.modify move.row (·.moveRight move.lane move.width)

@[simp] theorem size_shift (rows : Layout) (move : Shift) :
    (rows.shift move).size = rows.size := by
  simp [shift]

theorem getElem?_shift (rows : Layout) (move : Shift) (i : Nat) :
    (rows.shift move)[i]? =
      rows[i]?.map fun row =>
        if move.row = i then row.moveRight move.lane move.width else row := by
  simp only [shift, Array.getElem?_modify]
  split <;> simp

/-- Makes several shifts one after the other. -/
def shiftAll (rows : Layout) (moves : List Shift) : Layout := moves.foldl shift rows

/-- The strands that straightening examines: of the first `maxLanes` strands of a row those that
are the primary ones of their lanes. -/
def examined (rows : Layout) (row maxLanes : Nat) : List Drawn :=
  match rows[row]? with
  | some row => (row.drawn.take maxLanes).filter (·.sharing = .primary)
  | none => []

end Layout

end CommitLanes
