import CommitLanes.Fault

/-! # Reading commit identifiers -/

namespace CommitLanes.CommitId

/-- Reads a name, or refuses the text as it stands. -/
def parse (text : String) : Except Fault CommitId :=
  match ofHex? text with
  | some id => .ok id
  | none => .error (.malformedId text)

/-- Reads all names, or refuses the first text that is none. -/
def parseAll (texts : List String) : Except Fault (List CommitId) := texts.mapM parse

end CommitLanes.CommitId
