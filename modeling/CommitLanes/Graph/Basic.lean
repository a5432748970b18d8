import CommitLanes.CommitId.Parse
import CommitLanes.History.Add
import CommitLanes.History.Order
import CommitLanes.Layout.Check
import CommitLanes.Layout.Extend

/-! # The revision graph

A graph takes in commits in any order and shows them as rows. It keeps the history, the row order
as last computed and the layout as last published, and brings them up to date only as far as it
is asked to. A question that may need the order answers with the graph that remembers it. -/

namespace CommitLanes

/-- A graph with all that it remembers between calls. -/
structure Graph where
  config : Config
  history : History := {}
  /-- The layout as last published. -/
  rows : Option Layout := none
  /-- Whether all commits have been added. -/
  completed : Bool := false
  /-- The commit that is checked out. -/
  head : Option CommitId := none
  /-- How often a layout was published. -/
  published : Nat := 0

/-- How far the loading of commits has come. -/
inductive Phase where
  | empty
  | loading
  | completed
  deriving DecidableEq

namespace Graph

/-- A graph without commits; an unsound configuration is refused. -/
def new (config : Config) : Except Fault Graph :=
  match config.fault? with
  | some cause => .error (.config cause)
  | none => .ok { config }

/-- The number of commits whose data has arrived. -/
def count (g : Graph) : Nat := g.history.count

/-- How far the loading has come. -/
def phase (g : Graph) : Phase :=
  if g.completed then .completed else if g.count = 0 then .empty else .loading

/-! ## The row order -/

/-- Brings the order up to date through a row. -/
def rank (g : Graph) (row : Nat) : Graph := { g with history := g.history.rank row }

/-- The order as last computed. -/
def order (g : Graph) : List Rev := g.history.ranking.order

/-- The revisions from the first row down, at least through a row. -/
def ordered (g : Graph) (row : Nat) : List Rev × Graph :=
  let g := g.rank row
  (g.order, g)

/-- The revision of a row. -/
def atRow? (g : Graph) (row : Nat) : Option Rev × Graph :=
  let g := g.rank row
  (g.order[row]?, g)

/-- The row of a commit, unless it is unknown or its data has not arrived. -/
def rowOf? (g : Graph) (id : CommitId) : Option Nat × Graph :=
  match g.history.find? id with
  | some r =>
    let g := g.rank g.count
    (g.order.idxOf? r, g)
  | none => (none, g)

/-! ## The layout -/

/-- The rows that are published, from the top. -/
def layout (g : Graph) : Layout := g.rows.getD #[]

/-- A row that is published. -/
def row? (g : Graph) (row : Nat) : Option Row := g.layout[row]?

/-- The last row to draw when rows through `row` are asked for: straightening needs those after
it. -/
def target (g : Graph) (row : Nat) : Nat :=
  let row := row + g.config.lookAhead
  if g.completed then min row (g.count - 1) else row

/-- Publishes rows through `current` and `last`, as far as there are commits. -/
def cache (g : Graph) (current last : Nat) : Graph :=
  let row := g.target (max current last)
  let g := g.rank row
  match Layout.extend? g.history g.config g.order row g.completed g.rows with
  | some rows => { g with rows := some rows, published := g.published + 1 }
  | none => g

/-- Publishes rows through `row`. -/
def ensure (g : Graph) (row : Nat) : Graph := g.cache row row

/-- The number of rows that will not change any more. -/
def cachedCount (g : Graph) : Nat :=
  let size := g.layout.size
  if g.completed ∧ size = g.count then size else size - g.config.lookAhead

/-! ## Adding commits -/

/-- The number of rows that are drawn again when an inserted row finds its place. -/
def refreshedRows : Nat := 99

/-- Marks a revision as checked out if it is the head. -/
def checkOut (g : Graph) (id : CommitId) (r : Rev) : Graph :=
  if g.head = some id then
    { g with history := g.history.modify r ({ · with checkedOut := true }) }
  else g

/-- Forgets that the order as last computed may still hold. -/
def distrustOrder (g : Graph) : Graph :=
  { g with history.ranking.stale := true }

/-- Adds a commit or an inserted row. An inserted row that was known before has its place among
the first rows, which are therefore drawn again. -/
def addRevision (g : Graph) (id : CommitId) (parents : List CommitId)
    (insertion : Option Insertion) : Graph :=
  let added := g.history.add id parents insertion g.config.onlyFirstParent
  let g := { g with history := added.history }.checkOut id added.revision
  if added.linked then g else g.distrustOrder.cache 0 refreshedRows

/-- Adds a commit. -/
def add (g : Graph) (id : CommitId) (parents : List CommitId) : Graph :=
  g.addRevision id parents none

/-- Adds a row made up for local changes. -/
def insert (g : Graph) (id : CommitId) (parents : List CommitId) (insertion : Insertion) : Graph :=
  g.addRevision id parents (some insertion)

/-- Says which commit is checked out. Only commits added from now on are marked. -/
def setHead (g : Graph) (head : Option CommitId) : Graph := { g with head }

/-- Says that all commits have been added. -/
def complete (g : Graph) : Graph := { g with completed := true }

/-- Forgets all commits and rows. -/
def clear (g : Graph) : Graph := { g with history := {}, rows := none, completed := false }

/-! ## The highlighted branch -/

/-- Highlights a commit and its ancestors. -/
def highlight (g : Graph) (id : CommitId) : Graph :=
  { g with history := g.history.highlight id }

/-- Whether a commit belongs to the highlighted branch. -/
def isRelative (g : Graph) (id : CommitId) : Bool :=
  (g.history.find? id).any fun r => (g.history.revision r).relative

/-- Whether a row shows a commit of the highlighted branch. -/
def isRowRelative (g : Graph) (row : Nat) : Bool × Graph :=
  let (r, g) := g.atRow? row
  (r.any fun r => (g.history.revision r).relative, g)

/-! ## Checks -/

/-- Checks that every parent is ordered after its children. -/
def checkOrder (g : Graph) : Except Fault Unit := g.history.checkOrder

/-- Checks the rows that are published. -/
def checkLayout (g : Graph) : Except Fault Unit :=
  g.layout.check g.history (g.completed && g.layout.size = g.count)

end Graph

end CommitLanes
