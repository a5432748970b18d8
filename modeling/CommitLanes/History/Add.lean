import CommitLanes.History.Score
import CommitLanes.History.Relatives

/-! # Adding commits

Commits arrive in any order. A commit gets a number when it is first heard of, as a commit or as
a parent, and is completed in place when its own data arrives. -/

namespace CommitLanes.History

/-- Links a child to a parent it is not linked to yet. -/
def link (h : History) (child parent : Rev) : History :=
  let segment := h.segments.size
  let h := { h with segments := h.segments.push ⟨child, parent⟩ }
  let h := h.modify parent fun revision =>
    { revision with children := revision.children ++ [child] }
  let h := h.modify child fun revision =>
    { revision with
      parents := revision.parents ++ [parent], starts := revision.starts ++ [segment] }
  let h := if (h.revision child).relative then h.addRelative parent else h
  h.raise parent (h.score child + 1)

/-- The score of a parent first heard of as number `position` among the parents of `child`: after
everything seen so far, or for an inserted row right behind it. -/
def placeholderScore (h : History) (inserted : Bool) (child : Rev) (position : Nat) : Score :=
  if inserted then h.score child + 1 + position else h.maxScore + 1

/-- Makes sure that the parent named at `position` is known. -/
def meetParent (h : History) (inserted : Bool) (child : Rev) (position : Nat) (id : CommitId) :
    History × Rev :=
  match h.find? id with
  | some parent => (h, parent)
  | none =>
    let score := h.placeholderScore inserted child position
    let h := if inserted then h else { h with maxScore := score }
    (h.push id score, h.revisions.size)

/-- Links a commit to the parents it names, of which the first is at `position`. Naming a parent
twice or naming oneself has no effect. -/
def linkParents (inserted onlyFirst : Bool) (id : CommitId) (child : Rev) :
    Nat → List CommitId → History → History
  | _, [], h => h
  | position, name :: names, h =>
    if name = id then linkParents inserted onlyFirst id child (position + 1) names h
    else
      let (h, parent) := h.meetParent inserted child position name
      if parent ∈ h.parents child then
        linkParents inserted onlyFirst id child (position + 1) names h
      else
        let h := h.link child parent
        if onlyFirst then h
        else linkParents inserted onlyFirst id child (position + 1) names h

/-- Marks a revision as completed, and the first time lists it among the arrived ones. -/
def complete (h : History) (r : Rev) : History :=
  let arrived := if (h.revision r).completed then h.arrived else h.arrived ++ [r]
  { h.modify r ({ · with completed := true }) with arrived }

/-- What adding a commit came to. -/
structure Added where
  history : History
  revision : Rev
  /-- Whether the parents were looked at. -/
  linked : Bool

/-- Gives a commit its number and its preliminary score, after everything seen so far. A commit
known before is moved there, except for an inserted row: its place was set free together with
that of the row in front of it, and it keeps its parents too. -/
def enroll (h : History) (id : CommitId) (insertion : Option Insertion) : Added :=
  let h := { h with maxScore := h.maxScore + 1 }
  match h.find? id, insertion with
  | none, none => ⟨h.push id h.maxScore, h.revisions.size, true⟩
  | none, some insertion =>
    ⟨((h.openGap insertion).disturb insertion.start).push id insertion.start,
      h.revisions.size, true⟩
  | some r, none => ⟨h.raise r h.maxScore, r, true⟩
  | some r, some _ => ⟨h, r, false⟩

/-- Adds a commit with the parents it names. -/
def add (h : History) (id : CommitId) (parents : List CommitId) (insertion : Option Insertion)
    (onlyFirst : Bool) : Added :=
  let added := h.enroll id insertion
  let h := added.history
  let h := if added.linked then
      linkParents insertion.isSome onlyFirst id added.revision 0 parents h
    else h
  { added with history := h.complete added.revision }

end CommitLanes.History
