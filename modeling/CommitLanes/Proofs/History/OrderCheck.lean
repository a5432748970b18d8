import CommitLanes.History.Order
import CommitLanes.Proofs.History.Tables

/-! # What the check of the order finds

The check looks at the parents and the children of all revisions that are completed, and never at the
segments. It misses none of them: parents and children mirror the segments, and where a segment starts
is completed. That is so whatever is added, however far scores are moved and even where they wrap, and
whichever revisions the workers come to first. -/

namespace CommitLanes.History

variable {h : History} {r c p : Rev} {fault : Fault} {answer : Except Fault Unit}

/-! ## Links and segments -/

private theorem WellLinked.isParent_iff_exists_segment (hw : h.WellLinked) :
    h.IsParent c p ↔ ∃ s < h.segments.size, h.segment s = ⟨c, p⟩ := by
  constructor
  · intro hlink
    have hmem : (⟨c, p⟩ : Segment) ∈ (h.revision c).starts.map h.segment := by
      rw [hw.segment_starts]
      exact List.mem_map_of_mem hlink
    obtain ⟨s, hs, heq⟩ := List.mem_map.1 hmem
    exact ⟨s, hw.starts_lt c s hs, heq⟩
  · rintro ⟨s, hs, heq⟩
    have hlink := hw.isParent_segment hs
    rwa [heq] at hlink

private theorem WellLinked.ordered_iff_segments (hw : h.WellLinked) :
    h.Ordered ↔ ∀ s < h.segments.size,
      h.score (h.segment s).child < h.score (h.segment s).parent := by
  constructor
  · exact fun hord s hs => hord _ _ (hw.isParent_segment hs)
  · intro hlt c p hlink
    obtain ⟨s, hs, heq⟩ := hw.isParent_iff_exists_segment.1 hlink
    simpa [heq] using hlt s hs

private theorem Consistent.mem_children_iff (hc : h.Consistent) :
    c ∈ (h.revision p).children ↔ h.IsParent c p := by
  rw [IsParent, ← List.count_pos_iff, ← List.count_pos_iff, hc.children]

/-! ## One revision -/

/-- The parents of a revision are looked at first, and then its children. -/
private theorem orderFaultAt_eq (h : History) (r : Rev) :
    h.orderFaultAt r =
      (((h.parents r).find? fun parent => h.score parent ≤ h.score r).map fun parent =>
          .order (h.revision r).id (h.revision parent).id).or
        (((h.revision r).children.find? fun child => h.score r ≤ h.score child).map fun child =>
          .order (h.revision child).id (h.revision r).id) := by
  unfold orderFaultAt
  cases (h.parents r).find? fun parent => h.score parent ≤ h.score r with
  | some parent => rfl
  | none => cases (h.revision r).children.find? fun child => h.score r ≤ h.score child <;> rfl

theorem orderFaultAt_eq_none_iff : h.orderFaultAt r = none ↔
    (∀ p ∈ h.parents r, h.score r < h.score p) ∧
      ∀ c ∈ (h.revision r).children, h.score c < h.score r := by
  rw [orderFaultAt_eq, Option.or_eq_none_iff, Option.map_eq_none_iff, Option.map_eq_none_iff,
    List.find?_eq_none, List.find?_eq_none]
  simp

/-- A fault names the ends of a link of which the parent does not score above the child. -/
private theorem Consistent.of_orderFaultAt (hc : h.Consistent)
    (hfault : h.orderFaultAt r = some fault) :
    ∃ c p, h.IsParent c p ∧ h.score p ≤ h.score c ∧
      fault = .order (h.revision c).id (h.revision p).id := by
  rw [orderFaultAt_eq, Option.or_eq_some_iff] at hfault
  rcases hfault with hfault | ⟨-, hfault⟩
  · obtain ⟨p, hfind, rfl⟩ := Option.map_eq_some_iff.1 hfault
    have hle := List.find?_some hfind
    exact ⟨r, p, List.mem_of_find?_eq_some hfind, of_decide_eq_true hle, rfl⟩
  · obtain ⟨c, hfind, rfl⟩ := Option.map_eq_some_iff.1 hfault
    have hle := List.find?_some hfind
    exact ⟨c, r, hc.mem_children_iff.1 (List.mem_of_find?_eq_some hfind), of_decide_eq_true hle,
      rfl⟩

/-! ## All of them -/

/-- Whether there is a fault does not depend on who comes upon one first. -/
private theorem OrderAnswer.eq_ok_iff (given : h.OrderAnswer answer) :
    answer = .ok () ↔ ∀ r ∈ h.arrived, h.orderFaultAt r = none := by
  cases given with
  | pass hnone => exact iff_of_true rfl hnone
  | fail r fault hr hfault =>
    refine iff_of_false nofun fun hnone => ?_
    exact Option.some_ne_none fault (hfault.symm.trans (hnone r hr))

private theorem Consistent.orderFaultAt_eq_none_iff_ordered (hc : h.Consistent)
    (hsettled : ∀ c p, h.IsParent c p → (h.revision c).completed = true) :
    (∀ r ∈ h.arrived, h.orderFaultAt r = none) ↔ h.Ordered := by
  simp only [orderFaultAt_eq_none_iff, hc.mem_children_iff]
  constructor
  · -- Every link is looked at from its child.
    intro hall c p hlink
    exact (hall c ((hc.mem_arrived c).2 (hsettled c p hlink))).1 p hlink
  · intro hord r _
    exact ⟨fun p => hord r p, fun c => hord c r⟩

/-- Whatever is added, the check gives an answer, and every answer that it may give passes exactly if
along every segment the parent scores above the child, whether or not the parent is completed. A fault
that it reports names the ends of a segment along which the parent does not. -/
theorem checkOrder_addAll (arrivals : List Arrival) :
    let h := addAll {} arrivals
    h.OrderAnswer h.checkOrder ∧
    (∀ answer, h.OrderAnswer answer → (answer = .ok () ↔
      ∀ s < h.segments.size, h.score (h.segment s).child < h.score (h.segment s).parent)) ∧
    ∀ fault, h.OrderAnswer (.error fault) → ∃ s < h.segments.size,
      h.score (h.segment s).parent ≤ h.score (h.segment s).child ∧
        fault = .order (h.revision (h.segment s).child).id (h.revision (h.segment s).parent).id := by
  intro h
  have hc : h.Consistent := consistent_addAll arrivals
  have hsettled : ∀ c p, h.IsParent c p → (h.revision c).completed = true :=
    fun _ _ => completed_of_addAll arrivals
  refine ⟨orderAnswer_checkOrder h, fun answer given => ?_, fun fault given => ?_⟩
  · rw [given.eq_ok_iff, hc.orderFaultAt_eq_none_iff_ordered hsettled, hc.ordered_iff_segments]
  · cases given with
    | fail r _ _ hfault =>
      obtain ⟨c, p, hlink, hle, rfl⟩ := hc.of_orderFaultAt hfault
      obtain ⟨s, hs, heq⟩ := hc.isParent_iff_exists_segment.1 hlink
      exact ⟨s, hs, by rwa [heq], by rw [heq]⟩

/-- A commit with two parents, of which one is a placeholder. The second insertion moves the commit
below the lowest score there is, and it comes out above its parents. -/
def wrappedArrivals : List Arrival := [
  { id := .repeated 1, parents := [.repeated 2, .repeated 3] },
  { id := .repeated 3, parents := [] },
  { id := .workTree, parents := [], insertion := some ⟨5, 9223372036854775807⟩ },
  { id := .index, parents := [], insertion := some ⟨-9223372036854775802, 3⟩ }]

/-- The commit reports its first parent, and the other parent may report the commit before. -/
theorem checkOrder_addAll_wrappedArrivals :
    let h := addAll {} wrappedArrivals
    h.checkOrder = .error (.order (.repeated 1) (.repeated 2)) ∧
      h.OrderAnswer (.error (.order (.repeated 1) (.repeated 3))) ∧
      ∃ s < h.segments.size, h.score (h.segment s).parent ≤ h.score (h.segment s).child ∧
        Fault.order (.repeated 1) (.repeated 3) =
          .order (h.revision (h.segment s).child).id (h.revision (h.segment s).parent).id := by
  have hcheck : (addAll {} wrappedArrivals).checkOrder =
      .error (.order (.repeated 1) (.repeated 2)) := by decide +kernel
  have hanswer : (addAll {} wrappedArrivals).OrderAnswer
      (.error (.order (.repeated 1) (.repeated 3))) :=
    .fail 2 _ (by decide +kernel) (by decide +kernel)
  obtain ⟨-, -, hfault⟩ := checkOrder_addAll wrappedArrivals
  exact ⟨hcheck, hanswer, hfault _ hanswer⟩

end CommitLanes.History
