import CommitLanes.Row.Basic

/-! # From row to row

The strands of a row are those of the row above that do not end there, with the segments that
start at the revision put in where the first line arrives. Where no line arrives they are put at
the right end. -/

namespace CommitLanes

variable (h : History) (palette : Nat)

/-- Strands that open lines of their own, each to the right of the one before. -/
def openLines : Option Line → List Seg → List Strand
  | _, [] => []
  | left, s :: rest =>
    let line := Line.opening h palette (h.segment s) left
    h.strand s line :: openLines (some line) rest

/-- Strands whose lines branch off `trunk`, each to the right of the one before. -/
def branchLines (trunk : Line) : Line → List Seg → List Strand
  | _, [] => []
  | left, s :: rest =>
    let line := Line.branching h palette (h.segment s) trunk (some left)
    h.strand s line :: branchLines trunk line rest

/-- The line whose start is furthest up, of equal ones the leftmost. -/
def oldestLine (first : Line) (others : List Line) : Line :=
  others.foldl
    (fun oldest line => if line.startScore h < oldest.startScore h then line else oldest) first

/-- Strands that start where lines arrive, `first` leftmost: the first one continues the oldest
line, the others branch off the leftmost. -/
def continueLines (first : Line) (others : List Line) : List Seg → List Strand
  | [] => []
  | s :: rest =>
    h.strand s (oldestLine h first others) :: branchLines h palette first first rest

/-- The strands of a row that go on below it. -/
def Row.carried (row : Row) : List Strand :=
  (row.drawn.filter (·.parent ≠ row.revision)).map (·.toStrand)

/-- The strands of the row of a revision at which the segments `starts` start. -/
def strandsBelow (above : Option Row) (revision : Rev) (starts : List Seg) : List Strand :=
  match above with
  | none => openLines h palette none starts
  | some row =>
    let carried := row.carried
    match carried.span (·.parent ≠ revision) with
    | (before, first :: after) =>
      let others := (after.filter (·.parent = revision)).map (·.line)
      before ++ first :: continueLines h palette first.line others starts ++ after
    | (_, []) => carried ++ openLines h palette (carried.getLast?.map (·.line)) starts

end CommitLanes
