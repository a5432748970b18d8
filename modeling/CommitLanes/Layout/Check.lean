import CommitLanes.Layout.Basic
import CommitLanes.Fault

/-! # Checking a layout

A layout is sound if no line comes from above the first row, none passes the last row to a commit
that is loaded, no two primary strands share a lane, and every line that does not end in a row is
in the next one. -/

namespace CommitLanes

namespace Row

/-- The first primary strand of a list in a lane that is in use, where `used` are the lanes of the
primary strands before the list. -/
def repeatedLane? (used : List Nat) : List Drawn → Option RowFault
  | [] => none
  | strand :: rest =>
    if strand.sharing = .primary then
      if strand.lane ∈ used then some (.laneInUse strand.segment strand.lane)
      else repeatedLane? (strand.lane :: used) rest
    else repeatedLane? used rest

/-- The leftmost primary strand of a row whose lane has another primary strand to its left. -/
def laneFault? (row : Row) : Option RowFault := repeatedLane? [] row.drawn

end Row

namespace Layout

/-- A strand of the first row that does not start there. -/
def firstFault? (rows : Layout) : Option Fault := do
  let row ← rows[0]?
  let strand ← row.drawn.find? fun strand => strand.child ≠ row.revision
  return .layout 0 (.passesFirst strand.segment)

/-- A strand that passes the last row although its parent is loaded. -/
def lastFault? (h : History) (rows : Layout) : Option Fault := do
  let row ← rows.back?
  let strand ← row.drawn.find? fun strand =>
    !strand.touches row.revision && (h.revision strand.parent).completed
  return .layout (rows.size - 1) (.passesLast strand.segment)

/-- A strand of a row that is lost in the next one. -/
def continuityFault? (rows : Layout) (i : Nat) : Option Fault := do
  let row ← rows[i]?
  let below ← rows[i + 1]?
  let strand ← row.drawn.find? fun strand =>
    strand.parent ≠ row.revision && (below.find? strand.segment).isNone
  return .layout (i + 1) (.missing strand.segment i)

/-- What is wrong with a row: its lanes, or else what goes on below it. -/
def rowFault? (rows : Layout) (i : Nat) : Option Fault :=
  ((rows[i]?.bind Row.laneFault?).map (.layout i)).or (rows.continuityFault? i)

/-- The first fault of a layout. Only a layout of all rows has a last row to check. -/
def fault? (h : History) (rows : Layout) (all : Bool) : Option Fault :=
  rows.firstFault?.or <|
    (if all then rows.lastFault? h else none).or <|
      (List.range rows.size).findSome? rows.rowFault?

/-- Checks a layout. -/
def check (h : History) (rows : Layout) (all : Bool) : Except Fault Unit :=
  match rows.fault? h all with
  | some fault => .error fault
  | none => .ok ()

end Layout

end CommitLanes
