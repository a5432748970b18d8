import CommitLanes.Config
import CommitLanes.Layout.Diagonal
import CommitLanes.Layout.Zigzag
import CommitLanes.Row.Below
import CommitLanes.Row.Draw
import CommitLanes.StartOrder

/-! # Extending a layout

A layout is brought up to date with the row order and extended to a row that is asked for. Rows
are kept as far as they show what the order puts there, less those whose lanes may depend on rows
after them; the rows below are drawn one after the other, and then the end of the layout is
straightened. -/

namespace CommitLanes

namespace Config

/-- The last row that can be drawn when `count` revisions are ordered. While more may come,
crossing reduction needs its rows below. -/
def lastRow? (config : Config) (completed : Bool) (count : Nat) : Option Nat :=
  let reserve :=
    if completed || !config.reduceCrossings then 0 else config.crossingLookAhead
  if reserve < count then some (count - 1 - reserve) else none

/-- How many rows above the first one with a changed revision are drawn again. -/
def margin (config : Config) : Nat := wrapSize (config.crossingLookAhead + config.lookAhead)

/-- How many rows above the first new one are searched for diagonals: those that the search for zigzags
may have changed, and those that look at them. -/
def diagonalReach (config : Config) : Nat :=
  wrapSize (config.laneLookAhead + config.diagonalLookAhead)

/-- The rows that a sweep is to go over after rows from `start` down to `last` are drawn, for a
reach of `reach` rows above the first one. The first row is never shifted, nor is a row whose rows
below may still come; there is none of these after the last row of all. -/
def stretch? (config : Config) (start last reach lookAhead : Nat) (final : Bool) :
    Option Stretch :=
  let withheld := if final then 1 else reach
  if withheld ≤ last then
    some {
      start := max (start - reach) 1
      last := last - withheld
      horizon := last
      lookAhead
      maxLanes := config.maxLanes }
  else none

end Config

namespace Layout

/-- The number of rows from the top that show what the order puts there. -/
def agreement (rows : Layout) (order : List Rev) : Nat :=
  ((rows.toList.zip order).takeWhile fun (row, r) => row.revision = r).length

/-- The rows that need not be drawn again. -/
def keep (rows : Layout) (config : Config) (order : List Rev) : Layout :=
  let agreed := rows.agreement order
  if agreed < rows.size then rows.take (agreed - config.margin) else rows

/-- The segments that start at the revision of a row, in the order in which they are drawn. -/
def startsAt (h : History) (config : Config) (order : List Rev) (row : Nat) (r : Rev) :
    List Seg :=
  let starts := (h.revision r).starts
  if config.reduceCrossings then
    (Window.ofRow h order row config.crossingLookAhead).sort starts
  else starts

/-- Draws the row of a revision below the rows there are. -/
def drawRow (h : History) (config : Config) (order : List Rev) (rows : Layout) (r : Rev) :
    Layout :=
  let above := rows.back?
  let starts := startsAt h config order rows.size r
  rows.push <|
    Row.draw r (strandsBelow h config.palette above r starts) above config.mergeLanes

/-- Draws the rows down to row `last`. -/
def drawTo (h : History) (config : Config) (order : List Rev) (last : Nat) (rows : Layout) :
    Layout :=
  ((order.drop rows.size).take (last + 1 - rows.size)).foldl (drawRow h config order) rows

/-- Straightens the end of a layout of which the rows from `start` down are new. -/
def straighten (config : Config) (start : Nat) (final : Bool) (rows : Layout) : Layout :=
  let last := rows.size - 1
  let lanes := config.laneLookAhead
  let diagonals := config.diagonalLookAhead
  let rows :=
    match config.stretch? start last lanes lanes final with
    | some stretch => straightenLanes stretch rows
    | none => rows
  if diagonals = 0 then rows
  else
    match config.stretch? start last config.diagonalReach diagonals final with
    | some stretch => straightenDiagonals stretch rows
    | none => rows

/-- Extends the layout published before down to row `last`, as far as that can be done. Nothing
is returned if there is nothing new to publish. -/
def extend? (h : History) (config : Config) (order : List Rev) (last : Nat) (completed : Bool)
    (published : Option Layout) : Option Layout :=
  let old := published.getD #[]
  let kept := old.keep config order
  let shortened := if old.agreement order < old.size then some kept else none
  match config.lastRow? completed order.length with
  | none => shortened
  | some possible =>
    let bound := min last possible
    if bound < kept.size then shortened
    else
      some <| straighten config kept.size (completed && last + 1 = order.length)
        (kept.drawTo h config order bound)

end Layout

end CommitLanes
