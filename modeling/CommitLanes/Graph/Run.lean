import CommitLanes.Graph.Basic

/-! # Runs

A run is a list of calls to a graph. What holds of a graph after every run holds of all graphs
there are. -/

namespace CommitLanes

/-- What can be asked of a graph that may change it. -/
inductive Call where
  | add (id : CommitId) (parents : List CommitId)
  | insert (id : CommitId) (parents : List CommitId) (insertion : Insertion)
  | setHead (head : Option CommitId)
  | complete
  | clear
  /-- A question that needs the order through a row. -/
  | ordered (row : Nat)
  | rowOf (id : CommitId)
  | cache (current last : Nat)
  | highlight (id : CommitId)
  deriving DecidableEq

namespace Graph

/-- The graph after a call. -/
def perform (g : Graph) : Call → Graph
  | .add id parents => g.add id parents
  | .insert id parents insertion => g.insert id parents insertion
  | .setHead head => g.setHead head
  | .complete => g.complete
  | .clear => g.clear
  | .ordered row => (g.ordered row).2
  | .rowOf id => (g.rowOf? id).2
  | .cache current last => g.cache current last
  | .highlight id => g.highlight id

/-- The graph after a list of calls. -/
def run (g : Graph) (calls : List Call) : Graph := calls.foldl perform g

@[simp] theorem run_nil (g : Graph) : g.run [] = g := rfl

@[simp] theorem run_cons (g : Graph) (call : Call) (calls : List Call) :
    g.run (call :: calls) = (g.perform call).run calls := rfl

theorem run_append (g : Graph) (calls more : List Call) :
    g.run (calls ++ more) = (g.run calls).run more := List.foldl_append

end Graph

end CommitLanes
