import CommitLanes.History.Basic
import CommitLanes.Reach

/-! # The order of the segments that leave a revision

Segments that start at a revision take lanes from left to right in the order in which they are
listed. Which order makes lines cross least is guessed from the rows shortly below: a segment to
an ancestor of another one's parent goes to its left, and otherwise merges and near parents go
first. The comparison is not transitive, so the sort is spelled out. -/

namespace CommitLanes

/-- The rows below a revision that are looked at. -/
structure Window where
  history : History
  /-- Their revisions from the nearest one down. -/
  below : List Rev

namespace Window

/-- The window of a row: `lookAhead` rows, the row itself counted. -/
def ofRow (h : History) (order : List Rev) (row lookAhead : Nat) : Window where
  history := h
  below := (order.drop (row + 1)).take (lookAhead - 1)

/-- How many rows below a revision is shown, if it is in the window. -/
def offset? (w : Window) (r : Rev) : Option Nat := (w.below.idxOf? r).map (· + 1)

/-- The parents of a revision that are shown in the window before a row. -/
def parentsBefore (w : Window) (stop : Nat) (r : Rev) : List Rev :=
  (w.history.parents r).filter fun parent => (w.offset? parent).any (· < stop)

/-- Whether a line of ancestors leads from a revision to another one by rows before `stop`. -/
def isAncestor (w : Window) (stop : Nat) (ancestor r : Rev) : Bool :=
  (reach (w.parentsBefore stop) (w.below.length + 2) [] r).any
    fun node => ancestor ∈ w.history.parents node

/-- What a parent is as seen from above: 0 for a merge, 1 for one with several children, and 2
for a plain one. -/
def rankOf (w : Window) (parent : Rev) : Nat :=
  let revision := w.history.revision parent
  if 1 < revision.parents.length then 0
  else if revision.parents.length = 1 ∧ 1 < revision.children.length then 1
  else 2

/-- Parents outside of the window come last, and within it merges first and near ones first. -/
def compareKeys (w : Window) (a b : Rev) : Ordering :=
  (compare (w.offset? a).isNone (w.offset? b).isNone).then <|
    (compare (w.rankOf a) (w.rankOf b)).then <|
      compare ((w.offset? a).getD 0) ((w.offset? b).getD 0)

/-- Compares segments by their parents. -/
def compareParents (w : Window) (a b : Rev) : Ordering :=
  match w.offset? a, w.offset? b with
  | some i, some j =>
    if j < i ∧ w.isAncestor i a b then .lt
    else if i < j ∧ w.isAncestor j b a then .gt
    else w.compareKeys a b
  | _, _ => w.compareKeys a b

/-- Whether a segment has to stand to the right of another one. -/
def swaps (w : Window) (a b : Seg) : Bool :=
  w.compareParents (w.history.segment a).parent (w.history.segment b).parent = .gt

/-- Moves a segment to the left of those that it swaps with, in a list kept from right to left. -/
def sink (w : Window) (s : Seg) : List Seg → List Seg
  | [] => [s]
  | t :: rest => if w.swaps t s then t :: w.sink s rest else s :: t :: rest

/-- Sorts segments, each taken in at the right. -/
def sort (w : Window) (segments : List Seg) : List Seg :=
  (segments.foldl (fun sorted s => w.sink s sorted) []).reverse

end Window

end CommitLanes
