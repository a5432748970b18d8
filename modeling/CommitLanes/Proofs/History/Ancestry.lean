import CommitLanes.History.Score
import Mathlib.Data.Finset.Card
import Mathlib.Data.Finset.Range
import Mathlib.Logic.Relation

/-! # Ancestry

The links of a history taken as a graph: who is an ancestor of whom, and how high the ancestors of
a revision tower above it. Most changes to a history leave its links alone, and then they leave
all of this alone. -/

namespace CommitLanes

/-- What a revision is apart from its score and its marks. -/
def Revision.core (revision : Revision) : Revision :=
  { revision with score := 0, relative := false, checkedOut := false }

namespace History

variable {h h' h'' : History}

/-! ## Histories with the same links -/

/-- The second history differs from the first in scores, in marks and in what it remembers of the
row order at most. -/
structure SameLinks (h h' : History) : Prop where
  revisions : h'.revisions.map Revision.core = h.revisions.map Revision.core
  byId : h'.byId = h.byId
  segments : h'.segments = h.segments
  arrived : h'.arrived = h.arrived

namespace SameLinks

theorem refl (h : History) : SameLinks h h := ⟨rfl, rfl, rfl, rfl⟩

theorem trans (first : SameLinks h h') (second : SameLinks h' h'') : SameLinks h h'' :=
  ⟨second.revisions.trans first.revisions, second.byId.trans first.byId,
    second.segments.trans first.segments, second.arrived.trans first.arrived⟩

theorem symm (same : SameLinks h h') : SameLinks h' h :=
  ⟨same.revisions.symm, same.byId.symm, same.segments.symm, same.arrived.symm⟩

theorem size (same : SameLinks h h') : h'.revisions.size = h.revisions.size := by
  simpa using congrArg Array.size same.revisions

private theorem core (same : SameLinks h h') (r : Rev) :
    (h'.revision r).core = (h.revision r).core := by
  -- The tables agree entry by entry, and where one ends so does the other.
  have hget : (h'.revisions.map Revision.core)[r]? = (h.revisions.map Revision.core)[r]? := by
    rw [same.revisions]
  simp only [Array.getElem?_map] at hget
  simp only [revision, Array.getD_eq_getD_getElem?]
  cases hr : h.revisions[r]? <;> cases hr' : h'.revisions[r]? <;> simp_all

theorem id (same : SameLinks h h') (r : Rev) : (h'.revision r).id = (h.revision r).id :=
  congrArg (·.id) (same.core r)

theorem completed (same : SameLinks h h') (r : Rev) :
    (h'.revision r).completed = (h.revision r).completed :=
  congrArg (·.completed) (same.core r)

theorem parents (same : SameLinks h h') (r : Rev) : h'.parents r = h.parents r :=
  congrArg (·.parents) (same.core r)

theorem starts (same : SameLinks h h') (r : Rev) :
    (h'.revision r).starts = (h.revision r).starts :=
  congrArg (·.starts) (same.core r)

theorem children (same : SameLinks h h') (r : Rev) :
    (h'.revision r).children = (h.revision r).children :=
  congrArg (·.children) (same.core r)

theorem segment (same : SameLinks h h') (s : Seg) : h'.segment s = h.segment s := by
  simp only [History.segment, same.segments]

theorem find? (same : SameLinks h h') (id : CommitId) : h'.find? id = h.find? id := by
  rw [History.find?, History.find?, same.byId]

end SameLinks

theorem sameLinks_modify (r : Rev) {f : Revision → Revision}
    (hf : ∀ revision, (f revision).core = revision.core) : SameLinks h (h.modify r f) := by
  refine ⟨Array.ext (by simp [modify]) fun i hi hi' => ?_, rfl, rfl, rfl⟩
  simp only [modify, Array.getElem_map, Array.getElem_modify]
  split
  · exact hf _
  · rfl

theorem sameLinks_setScore (r : Rev) (score : Score) : SameLinks h (h.setScore r score) := by
  unfold setScore
  split
  · exact (⟨rfl, rfl, rfl, rfl⟩ : SameLinks h (h.disturb (h.score r))).trans
      (sameLinks_modify r fun _ => rfl)
  · exact sameLinks_modify r fun _ => rfl

/-! ## Parents and ancestors -/

/-- `p` is linked as a parent of `c`. -/
def IsParent (h : History) (c p : Rev) : Prop := p ∈ h.parents c

/-- A line of parents leads from `c` to `a`. -/
def IsAncestor (h : History) : Rev → Rev → Prop := Relation.TransGen h.IsParent

/-- No revision is its own ancestor. -/
def Acyclic (h : History) : Prop := ∀ r, ¬ h.IsAncestor r r

/-- All parents have numbers that are given out. -/
def InRange (h : History) : Prop := ∀ c p, h.IsParent c p → p < h.revisions.size

/-- Every parent scores above its child. -/
def Ordered (h : History) : Prop := ∀ c p, h.IsParent c p → h.score c < h.score p

theorem IsParent.isAncestor {c p : Rev} (hp : h.IsParent c p) : h.IsAncestor c p :=
  Relation.TransGen.single hp

theorem IsParent.child_lt {c p : Rev} (hp : h.IsParent c p) : c < h.revisions.size := by
  by_contra hc
  -- A number that is not given out stands for a revision without parents.
  simp [IsParent, parents, revision_of_le (Nat.le_of_not_lt hc)] at hp
  exact absurd hp List.not_mem_nil

theorem IsAncestor.mono (hmono : ∀ c p, h.IsParent c p → h'.IsParent c p) {c a : Rev}
    (ha : h.IsAncestor c a) : h'.IsAncestor c a :=
  Relation.TransGen.mono hmono _ _ ha

theorem Acyclic.anti (hmono : ∀ c p, h.IsParent c p → h'.IsParent c p) (hac : h'.Acyclic) :
    h.Acyclic := fun r hr => hac r (hr.mono hmono)

theorem Ordered.score_lt (hord : h.Ordered) {c a : Rev} (ha : h.IsAncestor c a) :
    h.score c < h.score a := by
  induction ha with
  | single hp => exact hord _ _ hp
  | tail _ hp ih => exact ih.trans (hord _ _ hp)

private theorem ordered_iff : h.Ordered ↔
    ∀ c < h.revisions.size, ∀ p ∈ h.parents c, h.score c < h.score p :=
  ⟨fun hord c _ p hp => hord c p hp, fun hall c p hp => hall c hp.child_lt p hp⟩

instance (h : History) : Decidable h.Ordered := decidable_of_iff' _ ordered_iff

/-- Scores that rise from children to parents leave no room for a cycle. -/
theorem Ordered.acyclic (hord : h.Ordered) : h.Acyclic :=
  fun _ hr => (hord.score_lt hr).false

namespace SameLinks

theorem isParent (same : SameLinks h h') {c p : Rev} : h'.IsParent c p ↔ h.IsParent c p := by
  simp only [IsParent, same.parents]

theorem isAncestor (same : SameLinks h h') {c a : Rev} :
    h'.IsAncestor c a ↔ h.IsAncestor c a :=
  ⟨fun ha => ha.mono fun _ _ => same.isParent.1, fun ha => ha.mono fun _ _ => same.isParent.2⟩

theorem acyclic (same : SameLinks h h') (hac : h.Acyclic) : h'.Acyclic :=
  hac.anti fun _ _ => same.isParent.1

theorem inRange (same : SameLinks h h') (hrange : h.InRange) : h'.InRange := by
  intro c p hp
  rw [same.size]
  exact hrange c p (same.isParent.1 hp)

end SameLinks

/-! ## Height -/

open Classical in
/-- The number of ancestors of a revision, which bounds the length of its lines of parents. -/
noncomputable def height (h : History) (r : Rev) : Nat :=
  ((Finset.range h.revisions.size).filter (h.IsAncestor r)).card

theorem height_lt_of_isParent (hac : h.Acyclic) (hrange : h.InRange) {c p : Rev}
    (hp : h.IsParent c p) : h.height p < h.height c := by
  apply Finset.card_lt_card
  rw [Finset.ssubset_iff_of_subset]
  · -- The parent is an ancestor of the child and none of itself.
    refine ⟨p, ?_, ?_⟩
    · simpa using ⟨hrange c p hp, hp.isAncestor⟩
    · simpa using fun _ => hac p
  · -- Ancestors of the parent are ancestors of the child.
    intro a ha
    simp only [Finset.mem_filter, Finset.mem_range] at ha ⊢
    exact ⟨ha.1, Relation.TransGen.head hp ha.2⟩

theorem height_lt_size (hac : h.Acyclic) {r : Rev} (hr : r < h.revisions.size) :
    h.height r < h.revisions.size := by
  classical
  have hlt : h.height r < (Finset.range h.revisions.size).card := by
    apply Finset.card_lt_card
    rw [Finset.filter_ssubset]
    -- The revision itself is not among its ancestors.
    exact ⟨r, by simpa using hr, hac r⟩
  simpa using hlt

theorem SameLinks.height (same : SameLinks h h') (r : Rev) : h'.height r = h.height r := by
  unfold History.height
  rw [same.size]
  congr 1
  ext a
  simp only [Finset.mem_filter, same.isAncestor]

end History

end CommitLanes
