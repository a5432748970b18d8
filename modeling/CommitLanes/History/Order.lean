import CommitLanes.History.Basic
import CommitLanes.Fault

/-! # The row order

Rows show the completed revisions by ascending score, and those of equal score in the order of
their numbers. -/

namespace CommitLanes.History

/-- Whether the row of `a` is not below the row of `b`. -/
def precedes (h : History) (a b : Rev) : Bool :=
  h.score a < h.score b || (h.score a = h.score b && a ≤ b)

/-- The completed revisions from the first row down. -/
def sorted (h : History) : List Rev := h.arrived.mergeSort h.precedes

/-- The row order computed anew. -/
def rerank (h : History) : History :=
  let order := h.sorted
  { h with ranking := { order, upTo := order.getLast?.map h.score, stale := false } }

/-- Makes sure that the order last computed holds through a row, as far as there are rows. -/
def rank (h : History) (row : Nat) : History :=
  if h.ranking.serves (min h.count (row + 1)) then h else h.rerank

/-! ## Checking the order -/

/-- What is wrong with the place of a revision: a parent that is not below it, or else a child
that is not above it. -/
def orderFaultAt (h : History) (r : Rev) : Option Fault :=
  match (h.parents r).find? fun parent => h.score parent ≤ h.score r with
  | some parent => some (.order (h.revision r).id (h.revision parent).id)
  | none =>
    match (h.revision r).children.find? fun child => h.score r ≤ h.score child with
    | some child => some (.order (h.revision child).id (h.revision r).id)
    | none => none

/-- The answers that the check may give. The completed revisions are shared out among workers, and the
check is over as soon as any of them comes upon a fault. -/
inductive OrderAnswer (h : History) : Except Fault Unit → Prop
  | pass (hnone : ∀ r ∈ h.arrived, h.orderFaultAt r = none) : OrderAnswer h (.ok ())
  | fail (r : Rev) (fault : Fault) (hr : r ∈ h.arrived) (hfault : h.orderFaultAt r = some fault) :
    OrderAnswer h (.error fault)

/-- The answer of a single worker, who takes the revisions in the order of their arrival. -/
def checkOrder (h : History) : Except Fault Unit :=
  match h.arrived.findSome? h.orderFaultAt with
  | some fault => .error fault
  | none => .ok ()

theorem orderAnswer_checkOrder (h : History) : h.OrderAnswer h.checkOrder := by
  unfold checkOrder
  split
  · next fault hfind =>
    obtain ⟨r, hr, hfault⟩ := List.exists_of_findSome?_eq_some hfind
    exact .fail r fault hr hfault
  · next hnone => exact .pass (List.findSome?_eq_none_iff.1 hnone)

end CommitLanes.History
