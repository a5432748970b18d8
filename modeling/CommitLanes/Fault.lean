import CommitLanes.CommitId.Hex

/-! # Faults

Everything that the library refuses or reports, by cause, and the one place where a cause is put
into words. -/

namespace CommitLanes

/-- Why a configuration is refused. -/
inductive ConfigFault where
  /-- A palette of fewer than three colors cannot tell a line from both of its neighbours. -/
  | smallPalette (size : Nat)
  | noLanes
  | noCrossingWindow
  deriving DecidableEq

/-- What is wrong with one row of a layout. -/
inductive RowFault where
  | passesFirst (segment : Nat)
  | passesLast (segment : Nat)
  | laneInUse (segment lane : Nat)
  /-- A segment goes on below the given row and is not in the next one. -/
  | missing (segment row : Nat)
  deriving DecidableEq

/-- Everything that can go wrong. -/
inductive Fault where
  | malformedId (text : String)
  | config (cause : ConfigFault)
  /-- The row of a parent is not below the row of its child. -/
  | order (child parent : CommitId)
  | layout (row : Nat) (cause : RowFault)
  deriving DecidableEq

namespace ConfigFault

def message : ConfigFault → String
  | smallPalette size => s!"lane_color_count must be at least 3, got {size}"
  | noLanes => "max_lanes must not be zero"
  | noCrossingWindow => "reduce_crossings requires a non-zero order_segments_look_ahead"

end ConfigFault

namespace RowFault

def message : RowFault → String
  | passesFirst segment => s!"segment {segment} passes through the first row"
  | passesLast segment => s!"segment {segment} passes through the last row to a loaded parent"
  | laneInUse segment lane => s!"segment {segment} takes lane {lane} which is already in use"
  | missing segment row => s!"segment {segment} continuing from row {row} is missing"

end RowFault

namespace Fault

def message : Fault → String
  | malformedId text => "Invalid object id - " ++ text
  | config cause => "Invalid graph configuration - " ++ cause.message
  | order child parent =>
    "Topological order violated - parent " ++ parent.toHex ++ " is not ordered after child "
      ++ child.toHex
  | layout row cause => s!"Layout violated in row {row}: " ++ cause.message

end Fault

end CommitLanes
