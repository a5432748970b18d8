import CommitLanes.Row.Basic

/-! # Giving out lanes

The strands of a row take lanes from left to right. All strands that touch the revision share its
lane. With merging on, a strand that passes by joins an earlier one that heads to the same
parent. -/

namespace CommitLanes

/-- A row of which some strands have their lanes. -/
structure Draft where
  drawn : List Drawn := []
  /-- The lane of the revision, once a strand touches it. -/
  revisionLane : Option Nat := none
  /-- The first lane not given out yet. -/
  free : Nat := 0

namespace Draft

/-- Gives a strand the first free lane. -/
def own (draft : Draft) (strand : Strand) : Draft :=
  { draft with
    drawn := draft.drawn ++ [⟨strand, draft.free, .primary⟩], free := draft.free + 1 }

/-- Puts a strand into a lane given out before. -/
def share (draft : Draft) (strand : Strand) (lane : Nat) (sharing : Sharing) : Draft :=
  { draft with drawn := draft.drawn ++ [⟨strand, lane, sharing⟩] }

/-- The strand passing the revision that another passing strand may join. -/
def partner? (draft : Draft) (revision : Rev) (strand : Strand) : Option Drawn :=
  draft.drawn.find? fun earlier =>
    earlier.parent = strand.parent && !earlier.touches revision

/-- Whether two segments are drawn in one lane of a row. -/
def together (row : Row) (a b : Seg) : Bool :=
  match row.lane? a, row.lane? b with
  | some laneA, some laneB => laneA = laneB
  | _, _ => false

/-- Gives the next strand of a row its lane. -/
def place (revision : Rev) (above : Option Row) (merge : Bool) (draft : Draft)
    (strand : Strand) : Draft :=
  if strand.touches revision then
    match draft.revisionLane with
    | none => { draft.own strand with revisionLane := some draft.free }
    | some lane =>
      draft.share strand lane
        (if strand.parent = revision then .differentStart else .differentEnd)
  else
    match if merge then draft.partner? revision strand else none with
    | none => draft.own strand
    | some earlier =>
      draft.share strand earlier.lane
        (if above.any (together · earlier.segment strand.segment) then .entire
        else .differentStart)

end Draft

/-- Draws the row of a revision. The row above tells which strands have met before. A revision
that no strand touches has a lane of its own at the right. -/
def Row.draw (revision : Rev) (strands : List Strand) (above : Option Row) (merge : Bool) : Row :=
  let draft := strands.foldl (Draft.place revision above merge) {}
  { revision, drawn := draft.drawn, revisionLane := draft.revisionLane.getD draft.free }

end CommitLanes
