/-! # Depth-first search

The one graph search of the library. It walks along a successor function and collects what it
meets, and it never enters a node twice, so a depth of one more than the number of nodes is
enough for all of them. -/

namespace CommitLanes

/-- Adds to `seen` what is reached from `node` in at most `depth` nodes without passing a node
seen before. -/
def reach (next : Nat → List Nat) : Nat → List Nat → Nat → List Nat
  | 0, seen, _ => seen
  | depth + 1, seen, node =>
    if node ∈ seen then seen
    else (next node).foldl (reach next depth) (node :: seen)

end CommitLanes
