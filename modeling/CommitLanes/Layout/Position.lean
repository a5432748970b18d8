import CommitLanes.Layout.Basic
import CommitLanes.Word

/-! # Positions

Straightening compares lanes by their positions, which are signed numbers of 64 bits: a lane below
`farLane` stands at its own number, and the lanes from there on stand left of lane 0. A line that
is not in a row stands at −1, just left of lane 0. -/

namespace CommitLanes

/-- The first lane that does not stand at its own number. -/
def farLane : Nat := 0x8000000000000000

/-- Where a lane stands. -/
def position (lane : Nat) : Int := if lane < farLane then lane else (lane : Int) - 2 * farLane

theorem position_of_lt {lane : Nat} (h : lane < farLane) : position lane = lane := by
  simp [position, h]

namespace Layout

/-- Where a segment stands in a row. -/
def positionOf (rows : Layout) (row : Nat) (s : Seg) : Int :=
  ((rows.lane? row s).map position).getD (-1)

end Layout

end CommitLanes
