import CommitLanes.History.Basic
import CommitLanes.Word

/-! # Scores

A parent has a higher score than its child, and so its row is further down. Scores are kept
that way by raising: linking a parent raises it above the child, and its ancestors with it.
The other change is the gap that an inserted row needs: everything above it moves up. -/

namespace CommitLanes

/-- The place of a row made up for local changes. -/
structure Insertion where
  /-- The score of the revision in front of which the row is shown. -/
  score : Score
  /-- How many scores are set free in front of it. -/
  range : Int
  deriving DecidableEq

/-- The score of the inserted row, the first of the scores set free. -/
def Insertion.start (insertion : Insertion) : Score := insertion.score - insertion.range

namespace History

/-- Gives a revision a new score, for which it leaves its place in the row order. -/
def setScore (h : History) (r : Rev) (score : Score) : History :=
  (if (h.revision r).completed then h.disturb (h.score r) else h).modify r ({ · with score })

/-- Raises a revision to a score of at least `minimal` and its ancestors above it, over at most
`depth` generations. To need more is noted as divergence. -/
def raiseWithin : Nat → Rev → Score → History → History
  | 0, _, _, h => { h with diverged := true }
  | depth + 1, r, minimal, h =>
    if minimal ≤ h.score r then h.raiseMax (h.score r)
    else
      (h.parents r).foldr (fun parent => raiseWithin depth parent (minimal + 1))
        ((h.setScore r minimal).raiseMax minimal)

/-- Raises a revision to a score of at least `minimal` and its ancestors above it. A line of
ancestors is never longer than the number of revisions. -/
def raise (h : History) (r : Rev) (minimal : Score) : History :=
  raiseWithin h.revisions.size r minimal h

/-- Moves a revision scored below an insertion up by the range of the insertion. The score wraps
around. -/
def makeWay (insertion : Insertion) (h : History) (r : Rev) : History :=
  if h.score r < insertion.score then h.setScore r (wrapInt (h.score r - insertion.range))
  else h

/-- Sets the scores of an insertion free. -/
def openGap (h : History) (insertion : Insertion) : History :=
  (List.range h.revisions.size).foldl (makeWay insertion) h

end History

end CommitLanes
