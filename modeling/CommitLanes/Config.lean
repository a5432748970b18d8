import CommitLanes.Fault
import CommitLanes.Word

/-! # Configuration

The switches and window sizes of a layout. Apart from `onlyFirstParent` they decide how lines are
arranged in lanes, never which lines a row holds. -/

namespace CommitLanes

/-- How rows are laid out. -/
structure Config where
  /-- Arrange the lines that leave a commit so that fewer lines cross. -/
  reduceCrossings : Bool
  /-- Turn steps of lines into diagonals. -/
  straightenDiagonals : Bool
  /-- Draw passing lines that head to the same parent in one lane. -/
  mergeLanes : Bool
  /-- Follow the first parent of each commit only. -/
  onlyFirstParent : Bool
  /-- How many rows crossing reduction looks down. -/
  crossingLookAhead : Nat
  /-- How many rows straightening looks down. -/
  laneLookAhead : Nat
  /-- How many segments of a row straightening examines. -/
  maxLanes : Nat
  /-- The number of colors. -/
  palette : Nat
  deriving DecidableEq

namespace Config

/-- Every arrangement is on. -/
def comprehensive : Config where
  reduceCrossings := true
  straightenDiagonals := true
  mergeLanes := true
  onlyFirstParent := false
  crossingLookAhead := 50
  laneLookAhead := 20
  maxLanes := 40
  palette := 8

/-- Every arrangement is off. -/
def minimal : Config where
  reduceCrossings := false
  straightenDiagonals := false
  mergeLanes := false
  onlyFirstParent := false
  crossingLookAhead := 0
  laneLookAhead := 0
  maxLanes := 40
  palette := 8

instance : Inhabited Config := ⟨comprehensive⟩

/-- How many rows the search for diagonals looks down. -/
def diagonalLookAhead (config : Config) : Nat :=
  if config.straightenDiagonals then config.laneLookAhead / 2 else 0

/-- How many of the last rows straightening may still change. -/
def fullLookAhead (config : Config) : Nat := 2 * (config.diagonalLookAhead + config.laneLookAhead)

/-- How many of the last rows are withheld because straightening may still change them. A look-ahead
that is too large wraps around, for nothing bounds the one that is configured. -/
def lookAhead (config : Config) : Nat := wrapSize config.fullLookAhead

/-- The first reason to refuse the configuration, if there is one. -/
def fault? (config : Config) : Option ConfigFault :=
  if config.palette < 3 then some (.smallPalette config.palette)
  else if config.maxLanes = 0 then some .noLanes
  else if config.reduceCrossings ∧ config.crossingLookAhead = 0 then some .noCrossingWindow
  else none

/-- A configuration that a graph accepts. -/
def Valid (config : Config) : Prop :=
  3 ≤ config.palette ∧ config.maxLanes ≠ 0 ∧
    (config.reduceCrossings → config.crossingLookAhead ≠ 0)

instance (config : Config) : Decidable config.Valid := inferInstanceAs (Decidable (_ ∧ _))

theorem fault?_eq_none_iff {config : Config} : config.fault? = none ↔ config.Valid := by
  unfold fault? Valid
  split
  · simp; omega
  · split
    · simp_all
    · split <;> simp_all

end Config

end CommitLanes
