import CommitLanes.History.Add
import CommitLanes.Proofs.History.Raise

/-! # Links

The tables of a history say the same thing several times: names and numbers, segments and the
parents and starts of revisions, marks and the list of arrivals. They agree between any two steps
of adding a commit, and such a step only ever adds links to that commit. -/

namespace CommitLanes.History

variable {h h' h'' : History}

/-! ## Agreement of the tables -/

/-- Only numbers that are given out are filed. -/
def Filed (h : History) : Prop := ∀ id r, h.find? id = some r → r < h.revisions.size

/-- The tables of a history agree with one another. -/
structure WellLinked (h : History) : Prop where
  inRange : h.InRange
  /-- The numbers filed under names are those of the revisions with these names. -/
  find?_eq_some_iff : ∀ {id r}, h.find? id = some r ↔
    r < h.revisions.size ∧ (h.revision r).id = id
  parents_nodup : ∀ r, (h.parents r).Nodup
  starts_lt : ∀ r, ∀ s ∈ (h.revision r).starts, s < h.segments.size
  segment_starts : ∀ r, (h.revision r).starts.map h.segment = (h.parents r).map (Segment.mk r)
  started : ∀ s < h.segments.size, s ∈ (h.revision (h.segment s).child).starts
  arrived_nodup : h.arrived.Nodup
  mem_arrived : ∀ r, r ∈ h.arrived ↔ (h.revision r).completed = true

theorem wellLinked_empty : WellLinked {} where
  inRange c p hp := absurd hp.child_lt (Nat.not_lt_zero c)
  find?_eq_some_iff {_ r} := iff_of_false nofun fun ⟨hr, _⟩ => Nat.not_lt_zero r hr
  parents_nodup _ := List.nodup_nil
  starts_lt _ _ hs := absurd hs List.not_mem_nil
  segment_starts _ := rfl
  started s hs := absurd hs (Nat.not_lt_zero s)
  arrived_nodup := List.nodup_nil
  mem_arrived _ := by
    simp [revision]
    rfl

namespace WellLinked

theorem find?_id (hw : h.WellLinked) {r : Rev} (hr : r < h.revisions.size) :
    h.find? (h.revision r).id = some r := hw.find?_eq_some_iff.2 ⟨hr, rfl⟩

theorem filed (hw : h.WellLinked) : h.Filed := fun _ _ hfind => (hw.find?_eq_some_iff.1 hfind).1

theorem id_ne_of_find? (hw : h.WellLinked) {id : CommitId} (hfind : h.find? id = none) {r : Rev}
    (hr : r < h.revisions.size) : (h.revision r).id ≠ id := by
  rintro rfl
  exact Option.some_ne_none r ((hw.find?_id hr).symm.trans hfind)

/-- A name is filed once, so no two revisions share it. -/
theorem id_inj (hw : h.WellLinked) (r : Rev) (hr : r < h.revisions.size) (q : Rev)
    (hq : q < h.revisions.size) (hid : (h.revision r).id = (h.revision q).id) : r = q :=
  Option.some.inj ((hw.find?_id hr).symm.trans (hid ▸ hw.find?_id hq))

theorem completed_lt (hw : h.WellLinked) {r : Rev} (hr : r ∈ h.arrived) :
    r < h.revisions.size := by
  by_contra hge
  have hcompleted := (hw.mem_arrived r).1 hr
  rw [revision_of_le (Nat.le_of_not_lt hge)] at hcompleted
  exact absurd hcompleted (by decide)

theorem segment_of_mem_starts (hw : h.WellLinked) {r : Rev} {s : Seg}
    (hs : s ∈ (h.revision r).starts) :
    (h.segment s).child = r ∧ h.IsParent r (h.segment s).parent := by
  have hmem : h.segment s ∈ (h.parents r).map (Segment.mk r) := by
    rw [← hw.segment_starts]
    exact List.mem_map_of_mem hs
  obtain ⟨p, hp, heq⟩ := List.mem_map.1 hmem
  rw [← heq]
  exact ⟨rfl, hp⟩

theorem isParent_segment (hw : h.WellLinked) {s : Seg} (hs : s < h.segments.size) :
    h.IsParent (h.segment s).child (h.segment s).parent :=
  (hw.segment_of_mem_starts (hw.started s hs)).2

theorem starts_nodup (hw : h.WellLinked) (r : Rev) : (h.revision r).starts.Nodup := by
  apply List.Nodup.of_map h.segment
  rw [hw.segment_starts]
  exact (hw.parents_nodup r).map fun _ _ heq => congrArg Segment.parent heq

theorem of_sameLinks (hw : h.WellLinked) (same : SameLinks h h') : h'.WellLinked where
  inRange := same.inRange hw.inRange
  find?_eq_some_iff {_ r} := by
    rw [same.find?, same.size, same.id]
    exact hw.find?_eq_some_iff
  parents_nodup r := by rw [same.parents]; exact hw.parents_nodup r
  starts_lt r s hs := by
    rw [same.starts] at hs
    rw [same.segments]
    exact hw.starts_lt r s hs
  segment_starts r := by
    rw [same.starts, same.parents, ← hw.segment_starts]
    exact List.map_congr_left fun s _ => same.segment s
  started s hs := by
    rw [same.segment, same.starts]
    exact hw.started s (same.segments ▸ hs)
  arrived_nodup := same.arrived ▸ hw.arrived_nodup
  mem_arrived r := by rw [same.arrived, same.completed]; exact hw.mem_arrived r

end WellLinked

/-! ## Growth -/

/-- The second history comes from the first by making revisions known, none of them completed, and
by linking parents to `child`. -/
structure Grown (child : Rev) (h h' : History) : Prop where
  size_le : h.revisions.size ≤ h'.revisions.size
  find? : ∀ id r, h'.find? id = some r → h.find? id = some r ∨ r < h'.revisions.size
  id : ∀ r < h.revisions.size, (h'.revision r).id = (h.revision r).id
  completed_eq : ∀ r, (h'.revision r).completed = (h.revision r).completed
  arrived_eq : h'.arrived = h.arrived
  parents : ∀ r ≠ child, h'.parents r = h.parents r
  starts : ∀ r ≠ child, (h'.revision r).starts = (h.revision r).starts
  parents_subset : ∀ p, h.IsParent child p → h'.IsParent child p
  segments_le : h.segments.size ≤ h'.segments.size
  segment : ∀ s < h.segments.size, h'.segment s = h.segment s

namespace Grown

variable {child : Rev}

theorem trans (first : Grown child h h') (second : Grown child h' h'') : Grown child h h'' where
  size_le := first.size_le.trans second.size_le
  find? id r hfind := by
    rcases second.find? id r hfind with hmid | hlt
    · exact (first.find? id r hmid).imp_right fun hlt => hlt.trans_le second.size_le
    · exact .inr hlt
  id r hr := (second.id r (hr.trans_le first.size_le)).trans (first.id r hr)
  completed_eq r := (second.completed_eq r).trans (first.completed_eq r)
  arrived_eq := second.arrived_eq.trans first.arrived_eq
  parents r hr := (second.parents r hr).trans (first.parents r hr)
  starts r hr := (second.starts r hr).trans (first.starts r hr)
  parents_subset p hp := second.parents_subset p (first.parents_subset p hp)
  segments_le := first.segments_le.trans second.segments_le
  segment s hs := (second.segment s (hs.trans_le first.segments_le)).trans (first.segment s hs)

theorem of_sameLinks (same : SameLinks h h') : Grown child h h' where
  size_le := same.size.ge
  find? id _ hfind := .inl ((same.find? id).symm.trans hfind)
  id r _ := same.id r
  completed_eq := same.completed
  arrived_eq := same.arrived
  parents r _ := same.parents r
  starts r _ := same.starts r
  parents_subset _ hp := same.isParent.2 hp
  segments_le := (congrArg Array.size same.segments).ge
  segment s _ := same.segment s

theorem filed (grown : Grown child h h') (hfiled : h.Filed) : h'.Filed := by
  intro id r hfind
  rcases grown.find? id r hfind with hold | hlt
  · exact (hfiled id r hold).trans_le grown.size_le
  · exact hlt

theorem isParent (grown : Grown child h h') {c p : Rev} (hp : h.IsParent c p) :
    h'.IsParent c p := by
  rcases eq_or_ne c child with rfl | hc
  · exact grown.parents_subset p hp
  · rw [IsParent, grown.parents c hc]
    exact hp

theorem isAncestor (grown : Grown child h h') {c a : Rev} (ha : h.IsAncestor c a) :
    h'.IsAncestor c a := ha.mono fun _ _ => grown.isParent

theorem acyclic (grown : Grown child h h') (hac : h'.Acyclic) : h.Acyclic :=
  hac.anti fun _ _ => grown.isParent

end Grown

/-! ## A revision becomes known -/

theorem revision_push_of_ne {id : CommitId} {score : Score} {r : Rev}
    (hr : r ≠ h.revisions.size) : (h.push id score).revision r = h.revision r := by
  rw [revision_push, if_neg hr]

theorem revision_push_size (id : CommitId) (score : Score) :
    (h.push id score).revision h.revisions.size = { id, score } := by
  rw [revision_push, if_pos rfl]

/-- A revision that becomes known has no links and is not completed, like a number that is not given
out. -/
theorem push_frame (h : History) (id : CommitId) (score : Score) (r : Rev) :
    (h.push id score).parents r = h.parents r ∧
      ((h.push id score).revision r).starts = (h.revision r).starts ∧
      ((h.push id score).revision r).completed = (h.revision r).completed := by
  rcases eq_or_ne r h.revisions.size with rfl | hr
  · simp only [parents, revision_push_size, revision_of_le (le_refl h.revisions.size)]
    exact ⟨rfl, rfl, rfl⟩
  · simp only [parents, revision_push_of_ne hr, and_self]

theorem isParent_push (id : CommitId) (score : Score) {c p : Rev} :
    (h.push id score).IsParent c p ↔ h.IsParent c p := by
  simp only [IsParent, (push_frame h id score c).1]

theorem push_grown (h : History) (id : CommitId) (score : Score) (child : Rev) :
    Grown child h (h.push id score) where
  size_le := by simp
  find? name r hfind := by
    rw [find?_push] at hfind
    split at hfind
    · cases hfind
      exact .inr (by simp)
    · exact .inl hfind
  id r hr := by rw [revision_push_of_ne hr.ne]
  completed_eq r := (push_frame h id score r).2.2
  arrived_eq := rfl
  parents r _ := (push_frame h id score r).1
  starts r _ := (push_frame h id score r).2.1
  parents_subset _ hp := (isParent_push id score).2 hp
  segments_le := le_rfl
  segment _ _ := rfl

theorem push_wellLinked (hw : h.WellLinked) {id : CommitId} (score : Score)
    (hfresh : h.find? id = none) : (h.push id score).WellLinked where
  inRange c p hp := by
    rw [size_push]
    exact (hw.inRange c p ((isParent_push id score).1 hp)).trans (Nat.lt_succ_self _)
  find?_eq_some_iff {name r} := by
    -- The name is new, so no revision known before shares it with the new one.
    rw [find?_push, size_push, Nat.lt_succ_iff_lt_or_eq]
    rcases eq_or_ne r h.revisions.size with rfl | hr
    · rw [revision_push_size]
      split
      · next heq => simp [heq]
      · next hne => simp [Ne.symm hne, hw.find?_eq_some_iff]
    · rw [revision_push_of_ne hr]
      split
      · next heq =>
        have hold (hlt : r < h.revisions.size) : (h.revision r).id ≠ id :=
          hw.id_ne_of_find? hfresh hlt
        simp only [heq, Option.some.injEq, hr.symm, hr, or_false, false_iff, not_and]
        exact hold
      · simp only [hr, or_false]
        exact hw.find?_eq_some_iff
  parents_nodup r := by
    rw [(push_frame h id score r).1]
    exact hw.parents_nodup r
  starts_lt r s hs := by
    rw [(push_frame h id score r).2.1] at hs
    exact hw.starts_lt r s hs
  segment_starts r := by
    rw [(push_frame h id score r).2.1, (push_frame h id score r).1]
    exact hw.segment_starts r
  started s hs := by
    rw [(push_frame h id score _).2.1]
    exact hw.started s hs
  arrived_nodup := hw.arrived_nodup
  mem_arrived r := by
    rw [(push_frame h id score r).2.2]
    exact hw.mem_arrived r

/-! ## A parent is linked -/

/-- Enters a link into the tables, before anything else is done about it. -/
def tie (h : History) (child parent : Rev) : History :=
  let segment := h.segments.size
  let h := { h with segments := h.segments.push ⟨child, parent⟩ }
  let h := h.modify parent fun revision =>
    { revision with children := revision.children ++ [child] }
  h.modify child fun revision =>
    { revision with
      parents := revision.parents ++ [parent], starts := revision.starts ++ [segment] }

section Tie

variable {child parent : Rev} (hchild : child < h.revisions.size)

theorem revision_tie_of_ne (h : History) (parent : Rev) {r : Rev} (hr : r ≠ child) :
    ∃ children, (h.tie child parent).revision r = { h.revision r with children } := by
  simp only [tie, revision_modify, hr, false_and, if_false]
  split
  · next heq => exact ⟨_, by rw [heq.1]; rfl⟩
  · exact ⟨_, rfl⟩

include hchild in
theorem revision_tie_self (parent : Rev) :
    ∃ children, (h.tie child parent).revision child =
      { h.revision child with
        parents := h.parents child ++ [parent]
        starts := (h.revision child).starts ++ [h.segments.size]
        children } := by
  simp only [tie, revision_modify, size_modify, hchild, and_self, if_true]
  split
  · next heq => exact ⟨_, by rw [heq.1]; rfl⟩
  · exact ⟨_, rfl⟩

include hchild in
/-- What a link does not touch: everything but the links themselves. -/
theorem tie_frame (r : Rev) :
    ((h.tie child parent).revision r).id = (h.revision r).id ∧
      ((h.tie child parent).revision r).completed = (h.revision r).completed ∧
      (h.tie child parent).score r = h.score r := by
  rcases eq_or_ne r child with rfl | hr
  · obtain ⟨children, heq⟩ := revision_tie_self hchild parent
    simp only [score, heq, and_self]
  · -- It may be the parent, which gets a child and nothing else.
    obtain ⟨children, heq⟩ := revision_tie_of_ne h parent hr
    simp only [score, heq, and_self]

@[simp] theorem size_tie : (h.tie child parent).revisions.size = h.revisions.size := by
  simp [tie, modify]

theorem segments_tie : (h.tie child parent).segments = h.segments.push ⟨child, parent⟩ := rfl

private theorem segment_tie_of_lt {s : Seg} (hs : s < h.segments.size) :
    (h.tie child parent).segment s = h.segment s := by
  simp [segment, segments_tie, Array.getElem?_push, hs.ne]

private theorem segment_tie_size :
    (h.tie child parent).segment h.segments.size = ⟨child, parent⟩ := by
  simp [segment, segments_tie]

theorem parents_tie_of_ne {r : Rev} (hr : r ≠ child) :
    (h.tie child parent).parents r = h.parents r := by
  obtain ⟨children, heq⟩ := revision_tie_of_ne h parent hr
  simp only [parents, heq]

private theorem starts_tie_of_ne {r : Rev} (hr : r ≠ child) :
    ((h.tie child parent).revision r).starts = (h.revision r).starts := by
  obtain ⟨children, heq⟩ := revision_tie_of_ne h parent hr
  simp only [heq]

include hchild in
theorem parents_tie_self : (h.tie child parent).parents child = h.parents child ++ [parent] := by
  obtain ⟨children, heq⟩ := revision_tie_self hchild parent
  simp only [parents, heq]

include hchild in
private theorem starts_tie_self : ((h.tie child parent).revision child).starts =
    (h.revision child).starts ++ [h.segments.size] := by
  obtain ⟨children, heq⟩ := revision_tie_self hchild parent
  simp only [heq]

include hchild in
theorem isParent_tie {c p : Rev} :
    (h.tie child parent).IsParent c p ↔ h.IsParent c p ∨ c = child ∧ p = parent := by
  rcases eq_or_ne c child with rfl | hc
  · simp [IsParent, parents_tie_self hchild]
  · simp [IsParent, parents_tie_of_ne hc, hc]

include hchild in
theorem tie_grown : Grown child h (h.tie child parent) where
  size_le := size_tie.ge
  find? _ _ hfind := .inl hfind
  id r _ := (tie_frame hchild r).1
  completed_eq r := (tie_frame hchild r).2.1
  arrived_eq := rfl
  parents _ hr := parents_tie_of_ne hr
  starts _ hr := starts_tie_of_ne hr
  parents_subset _ hp := (isParent_tie hchild).2 (.inl hp)
  segments_le := by simp [segments_tie]
  segment _ hs := segment_tie_of_lt hs

include hchild in
theorem inRange_tie (hrange : h.InRange) (hparent : parent < h.revisions.size) :
    (h.tie child parent).InRange := by
  intro c p hp
  rw [size_tie]
  rcases (isParent_tie hchild).1 hp with hp | ⟨-, rfl⟩
  · exact hrange c p hp
  · exact hparent

include hchild in
theorem tie_wellLinked (hw : h.WellLinked) (hparent : parent < h.revisions.size)
    (hnew : ¬ h.IsParent child parent) : (h.tie child parent).WellLinked where
  inRange := inRange_tie hchild hw.inRange hparent
  find?_eq_some_iff {_ r} := by
    rw [size_tie, (tie_frame hchild r).1]
    exact hw.find?_eq_some_iff
  parents_nodup r := by
    rcases eq_or_ne r child with rfl | hr
    · rw [parents_tie_self hchild]
      simpa using (hw.parents_nodup r).concat hnew
    · rw [parents_tie_of_ne hr]
      exact hw.parents_nodup r
  starts_lt r s hs := by
    rw [segments_tie, Array.size_push]
    rcases eq_or_ne r child with rfl | hr
    · rw [starts_tie_self hchild, List.mem_append, List.mem_singleton] at hs
      rcases hs with hs | rfl
      · exact (hw.starts_lt r s hs).trans (Nat.lt_succ_self _)
      · exact Nat.lt_succ_self _
    · rw [starts_tie_of_ne hr] at hs
      exact (hw.starts_lt r s hs).trans (Nat.lt_succ_self _)
  segment_starts r := by
    -- The segments that there were before keep their ends.
    have hold : (h.revision r).starts.map (h.tie child parent).segment =
        (h.parents r).map (Segment.mk r) := by
      rw [← hw.segment_starts]
      exact List.map_congr_left fun s hs => segment_tie_of_lt (hw.starts_lt r s hs)
    rcases eq_or_ne r child with rfl | hr
    · rw [starts_tie_self hchild, parents_tie_self hchild, List.map_append, List.map_append, hold]
      simp [segment_tie_size]
    · rw [starts_tie_of_ne hr, parents_tie_of_ne hr, hold]
  started s hs := by
    rw [segments_tie, Array.size_push, Nat.lt_succ_iff_lt_or_eq] at hs
    rcases hs with hs | rfl
    · rw [segment_tie_of_lt hs]
      have hmem := hw.started s hs
      rcases eq_or_ne (h.segment s).child child with heq | hne
      · rw [heq, starts_tie_self hchild]
        exact List.mem_append_left _ (heq ▸ hmem)
      · rw [starts_tie_of_ne hne]
        exact hmem
    · rw [segment_tie_size, starts_tie_self hchild]
      exact List.mem_concat_self
  arrived_nodup := hw.arrived_nodup
  mem_arrived r := by
    rw [(tie_frame hchild r).2.1]
    exact hw.mem_arrived r

end Tie

theorem score_setRelatives (relatives : List Rev) (r : Rev) :
    (h.setRelatives relatives).score r = h.score r := by
  simp only [score, revision, setRelatives, Array.getD_eq_getD_getElem?, Array.getElem?_mapIdx]
  cases h.revisions[r]? <;> rfl

theorem raised_setRelatives (relatives : List Rev) : Raised h (h.setRelatives relatives) := by
  have hcore : (h.setRelatives relatives).revisions.map Revision.core =
      h.revisions.map Revision.core := by
    refine Array.ext (by simp [setRelatives]) fun i hi hi' => ?_
    simp [setRelatives, Revision.core]
  exact .of_score_eq ⟨hcore, rfl, rfl, rfl⟩ rfl (score_setRelatives relatives) le_rfl

/-- Makes a parent that is linked to a relative a relative as well. -/
def mark (h : History) (child parent : Rev) : History :=
  if (h.revision child).relative then h.addRelative parent else h

/-- A link is entered into the tables, the parent joins the relatives if the child is one of them,
and at last it is raised above the child. -/
theorem link_eq (h : History) (child parent : Rev) :
    h.link child parent =
      ((h.tie child parent).mark child parent).raise parent
        (((h.tie child parent).mark child parent).score child + 1) := rfl

theorem link_eq_raise (h : History) (child parent : Rev) :
    ∃ marked, Raised (h.tie child parent) marked ∧
      (∀ r, marked.score r = (h.tie child parent).score r) ∧ marked.diverged = h.diverged ∧
      h.link child parent = marked.raise parent (marked.score child + 1) := by
  refine ⟨(h.tie child parent).mark child parent, ?_, fun r => ?_, ?_, link_eq h child parent⟩
  · unfold mark
    split
    · exact raised_setRelatives _
    · exact .refl _
  · unfold mark
    split
    · exact score_setRelatives _ r
    · rfl
  · unfold mark
    split <;> rfl

/-- All that linking does to the tables is to enter the link. -/
theorem sameLinks_link (h : History) (child parent : Rev) :
    SameLinks (h.tie child parent) (h.link child parent) := by
  obtain ⟨marked, hmarked, -, -, hlink⟩ := link_eq_raise h child parent
  rw [hlink]
  exact hmarked.toSameLinks.trans (sameLinks_raise _ _)

end CommitLanes.History
