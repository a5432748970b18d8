import CommitLanes.Revision

/-! # The history: revisions and segments

A `History` numbers all revisions and segments it has ever seen and never drops one. A map leads
from names to numbers. Revisions whose own data has arrived are also listed in the order of arrival;
the others are placeholders for parents that were only named. -/

namespace CommitLanes

/-- All revisions and segments known so far. -/
structure History where
  revisions : Array Revision := #[]
  /-- The number of each name, for which the revisions are not searched. -/
  byId : List (CommitId × Rev) := []
  segments : Array Segment := #[]
  /-- The completed revisions in the order of their arrival. -/
  arrived : List Rev := []
  /-- The highest score given out so far. -/
  maxScore : Score := 0
  /-- The row order as last computed. -/
  ranking : Ranking := {}
  /-- Raising a score has not come to an end, which takes a commit that is its own ancestor. -/
  diverged : Bool := false
  deriving DecidableEq, Inhabited

namespace History

/-! ## Looking things up -/

/-- The number of completed revisions. -/
def count (h : History) : Nat := h.arrived.length

/-- The number that is filed under a name. -/
def find? (h : History) (id : CommitId) : Option Rev :=
  (h.byId.find? fun (name, _) => name = id).map fun (_, r) => r

/-- The revision of a number; a number not given out yet stands for an empty one. -/
def revision (h : History) (r : Rev) : Revision := h.revisions.getD r default

/-- The segment of a number; a number not given out yet stands for an empty one. -/
def segment (h : History) (s : Seg) : Segment := h.segments.getD s default

/-- The score of a revision. -/
def score (h : History) (r : Rev) : Score := (h.revision r).score

/-- The parents of a revision. -/
def parents (h : History) (r : Rev) : List Rev := (h.revision r).parents

/-! ## Changing one thing -/

/-- Changes one revision; a number not given out yet changes nothing. -/
def modify (h : History) (r : Rev) (f : Revision → Revision) : History :=
  { h with revisions := h.revisions.modify r f }

/-- Adds a placeholder for a name that has no number yet. Its number, which is filed under the name,
is the number of revisions before. -/
def push (h : History) (id : CommitId) (score : Score) : History :=
  { h with
    revisions := h.revisions.push { id, score }
    byId := (id, h.revisions.size) :: h.byId }

/-- Takes note that a completed revision leaves its place in the row order. -/
def disturb (h : History) (score : Score) : History :=
  { h with ranking := h.ranking.disturb score }

/-- Keeps the highest score at or above a score that was met. -/
def raiseMax (h : History) (score : Score) : History :=
  { h with maxScore := max h.maxScore score }

/-! ## How a change shows -/

theorem revision_of_lt {h : History} {r : Rev} (hr : r < h.revisions.size) :
    h.revision r = h.revisions[r] := by
  simp [revision, hr]

theorem revision_of_le {h : History} {r : Rev} (hr : h.revisions.size ≤ r) :
    h.revision r = default := by
  simp [revision, hr]

@[simp] theorem size_modify (h : History) (r : Rev) (f : Revision → Revision) :
    (h.modify r f).revisions.size = h.revisions.size := by
  simp [modify]

theorem revision_modify (h : History) (r : Rev) (f : Revision → Revision) (q : Rev) :
    (h.modify r f).revision q =
      if q = r ∧ r < h.revisions.size then f (h.revision r) else h.revision q := by
  simp only [revision, modify, Array.getD_eq_getD_getElem?, Array.getElem?_modify]
  by_cases hq : q < h.revisions.size
  · by_cases heq : q = r
    · subst heq
      simp [hq]
    · simp [heq, Ne.symm heq]
  · have hnone : h.revisions[q]? = none := Array.getElem?_eq_none (Nat.le_of_not_lt hq)
    have hne : ¬ (q = r ∧ r < h.revisions.size) := fun ⟨heq, hr⟩ => hq (heq ▸ hr)
    simp [hnone, hne]

@[simp] theorem size_push (h : History) (id : CommitId) (score : Score) :
    (h.push id score).revisions.size = h.revisions.size + 1 := by
  simp [push]

theorem revision_push (h : History) (id : CommitId) (score : Score) (q : Rev) :
    (h.push id score).revision q =
      if q = h.revisions.size then { id, score } else h.revision q := by
  simp only [revision, push, Array.getD_eq_getD_getElem?, Array.getElem?_push]
  split <;> rfl

theorem find?_push (h : History) (id : CommitId) (score : Score) (name : CommitId) :
    (h.push id score).find? name =
      if name = id then some h.revisions.size else h.find? name := by
  simp only [find?, push, List.find?_cons]
  by_cases hname : name = id
  · simp [hname]
  · simp [hname, Ne.symm hname]

end History

end CommitLanes
