import CommitLanes.Line

/-! # Rows

A row shows one revision. Every segment that starts or ends at it or passes by is a strand of the
row and is drawn in a lane; lanes are counted from the left. Several strands may share a lane, of
which one is its primary strand. -/

namespace CommitLanes

/-- A segment as it appears in a row. -/
structure Strand where
  segment : Seg
  child : Rev
  parent : Rev
  line : Line
  deriving DecidableEq, Inhabited

/-- Whether the strand starts or ends at a revision. -/
def Strand.touches (strand : Strand) (r : Rev) : Bool := strand.parent = r || strand.child = r

/-- A segment of the history, drawn as part of a line. -/
def History.strand (h : History) (s : Seg) (line : Line) : Strand where
  segment := s
  child := (h.segment s).child
  parent := (h.segment s).parent
  line := line

/-- What a strand has in common with the primary strand of its lane. -/
inductive Sharing where
  /-- It is the primary strand. -/
  | primary
  /-- They come from different places and end together. -/
  | differentStart
  /-- They start together and go to different places. -/
  | differentEnd
  /-- They coincide in this row. -/
  | entire
  deriving DecidableEq, Inhabited

/-- A strand in its lane. -/
structure Drawn extends Strand where
  lane : Nat
  sharing : Sharing
  deriving DecidableEq, Inhabited

/-- A revision with the strands that are drawn beside it. -/
structure Row where
  revision : Rev
  /-- The strands in the order in which lanes were given out. -/
  drawn : List Drawn
  /-- The lane of the revision itself. -/
  revisionLane : Nat
  deriving DecidableEq, Inhabited

namespace Row

/-- The strand of a segment; the first one, should there be several. -/
def find? (row : Row) (s : Seg) : Option Drawn := row.drawn.find? (·.segment = s)

/-- The lane of a segment. -/
def lane? (row : Row) (s : Seg) : Option Nat := (row.find? s).map (·.lane)

/-- The number of lanes from the left that the row takes, empty ones included. -/
def laneCount (row : Row) : Nat :=
  row.drawn.foldl (fun width strand => max width (strand.lane + 1)) (row.revisionLane + 1)

/-- The strands in a lane. -/
def inLane (row : Row) (lane : Nat) : List Drawn := row.drawn.filter (·.lane = lane)

/-- The leftmost segment that starts at the revision. -/
def start? (row : Row) : Option Seg :=
  (row.drawn.find? (·.child = row.revision)).map (·.segment)

/-- The segment as which a line goes on below the row. Where a segment ends it is the leftmost
one that starts there; a segment that passes by, or ends where none starts, stays the same. -/
def follow (row : Row) (s : Seg) : Seg :=
  match row.find? s with
  | some strand => if strand.parent = row.revision then row.start?.getD s else s
  | none => s

/-- The lane to which a shift of everything at or right of `lane` takes what is in lane `l`. -/
def shiftLane (lane shift l : Nat) : Nat := if lane ≤ l then l + shift else l

/-- Shifts everything at or right of a lane to the right. -/
def moveRight (row : Row) (lane shift : Nat) : Row :=
  { row with
    drawn := row.drawn.map fun strand => { strand with lane := shiftLane lane shift strand.lane }
    revisionLane := shiftLane lane shift row.revisionLane }

@[simp] theorem revision_moveRight (row : Row) (lane shift : Nat) :
    (row.moveRight lane shift).revision = row.revision := rfl

@[simp] theorem find?_moveRight (row : Row) (lane shift : Nat) (s : Seg) :
    (row.moveRight lane shift).find? s =
      (row.find? s).map fun strand => { strand with lane := shiftLane lane shift strand.lane } := by
  simp only [moveRight, find?, List.find?_map]
  rfl

@[simp] theorem lane?_moveRight (row : Row) (lane shift : Nat) (s : Seg) :
    (row.moveRight lane shift).lane? s = (row.lane? s).map (shiftLane lane shift) := by
  simp only [lane?, find?_moveRight, Option.map_map]
  rfl

@[simp] theorem start?_moveRight (row : Row) (lane shift : Nat) :
    (row.moveRight lane shift).start? = row.start? := by
  simp only [moveRight, start?, List.find?_map, Option.map_map]
  rfl

/-- A shift changes no way that a line takes. -/
@[simp] theorem follow_moveRight (row : Row) (lane shift : Nat) (s : Seg) :
    (row.moveRight lane shift).follow s = row.follow s := by
  unfold follow
  rw [find?_moveRight]
  cases row.find? s with
  | none => rfl
  | some strand => simp

/-- A shift keeps lanes apart and in order. -/
theorem shiftLane_lt {lane shift a b : Nat} (h : a < b) :
    shiftLane lane shift a < shiftLane lane shift b := by
  unfold shiftLane; split <;> split <;> omega

theorem le_shiftLane (lane shift l : Nat) : l ≤ shiftLane lane shift l := by
  unfold shiftLane; split <;> omega

end Row

end CommitLanes
