import CommitLanes.History.Basic
import CommitLanes.Reach

/-! # The highlighted branch

The relatives are one revision and its ancestors. A parent linked to a relative becomes one. -/

namespace CommitLanes.History

/-- The relatives in ascending order of their numbers. -/
def relatives (h : History) : List Rev :=
  (List.range h.revisions.size).filter fun r => (h.revision r).relative

/-- Makes the given revisions the relatives. -/
def setRelatives (h : History) (relatives : List Rev) : History :=
  { h with revisions := h.revisions.mapIdx fun r revision =>
      { revision with relative := r ∈ relatives } }

/-- Adds a revision and its ancestors to the relatives. The ancestors of a relative are known to
be relatives. -/
def addRelative (h : History) (r : Rev) : History :=
  h.setRelatives (reach h.parents (h.revisions.size + 1) h.relatives r)

/-- Makes the named commit and its ancestors the only relatives; an unknown name leaves none. -/
def highlight (h : History) (id : CommitId) : History :=
  let h := h.setRelatives []
  match h.find? id with
  | some r => h.addRelative r
  | none => h

end CommitLanes.History
