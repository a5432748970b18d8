import CommitLanes.CommitId.Basic
import CommitLanes.Ranking

/-! # Revisions and segments

A revision is a commit as the graph knows it, linked to its parents and children. It may be known
by name only, as the parent of another one, until its own data arrives. A segment is one line of
ancestry. -/

namespace CommitLanes

/-- The number of a segment: segments are counted as they are linked. -/
abbrev Seg := Nat

/-- The line from a child down to one of its parents. -/
structure Segment where
  child : Rev
  parent : Rev
  deriving DecidableEq, Inhabited

/-- A commit as the graph knows it. -/
structure Revision where
  id : CommitId
  score : Score
  /-- The data of the commit has arrived. -/
  completed : Bool := false
  /-- The revision belongs to the highlighted branch. -/
  relative : Bool := false
  /-- The commit is checked out. -/
  checkedOut : Bool := false
  /-- The parents, in the order in which they were linked. -/
  parents : List Rev := []
  /-- The children, in the order in which they were linked. -/
  children : List Rev := []
  /-- The segments down to the parents, in the order of `parents`. -/
  starts : List Seg := []
  deriving DecidableEq, Inhabited

namespace Revision

/-- The three marks of a revision as bits of a number. -/
def flags (revision : Revision) : Nat :=
  revision.completed.toNat + 2 * revision.relative.toNat + 4 * revision.checkedOut.toNat

end Revision

end CommitLanes
