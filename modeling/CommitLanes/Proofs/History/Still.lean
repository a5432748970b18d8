import CommitLanes.History.Order
import CommitLanes.Proofs.History.Links

/-! # Histories that differ in marks only

The marks of revisions and the row order that is remembered are there for those who ask. No commit
is added any differently because of them: what is done to histories that differ in nothing else
leads to histories that differ in nothing else. -/

namespace CommitLanes

/-- What a revision is apart from its marks. -/
def Revision.plain (revision : Revision) : Revision :=
  { revision with relative := false, checkedOut := false }

private theorem Revision.plain_eq_iff {a b : Revision} : a.plain = b.plain ↔
    a.id = b.id ∧ a.score = b.score ∧ a.completed = b.completed ∧ a.parents = b.parents ∧
      a.children = b.children ∧ a.starts = b.starts := by
  simp [plain]

namespace History

variable {h h' h'' k : History}

/-- The second history differs from the first in marks and in what it remembers of the row order at
most. -/
structure Still (h h' : History) : Prop where
  revisions : h'.revisions.map Revision.plain = h.revisions.map Revision.plain
  byId : h'.byId = h.byId
  segments : h'.segments = h.segments
  arrived : h'.arrived = h.arrived
  maxScore : h'.maxScore = h.maxScore
  diverged : h'.diverged = h.diverged

namespace Still

theorem refl (h : History) : Still h h := ⟨rfl, rfl, rfl, rfl, rfl, rfl⟩

theorem trans (first : Still h h') (second : Still h' h'') : Still h h'' :=
  ⟨second.revisions.trans first.revisions, second.byId.trans first.byId,
    second.segments.trans first.segments, second.arrived.trans first.arrived,
    second.maxScore.trans first.maxScore, second.diverged.trans first.diverged⟩

theorem symm (still : Still h h') : Still h' h :=
  ⟨still.revisions.symm, still.byId.symm, still.segments.symm, still.arrived.symm,
    still.maxScore.symm, still.diverged.symm⟩

theorem toSameLinks (still : Still h h') : SameLinks h h' := by
  refine ⟨?_, still.byId, still.segments, still.arrived⟩
  have hmap (revisions : Array Revision) :
      revisions.map Revision.core = (revisions.map Revision.plain).map Revision.core := by
    rw [Array.map_map]
    rfl
  rw [hmap, still.revisions, ← hmap]

private theorem plain (still : Still h h') (r : Rev) :
    (h'.revision r).plain = (h.revision r).plain := by
  have hget : (h'.revisions.map Revision.plain)[r]? = (h.revisions.map Revision.plain)[r]? := by
    rw [still.revisions]
  simp only [Array.getElem?_map] at hget
  simp only [revision, Array.getD_eq_getD_getElem?]
  cases hr : h.revisions[r]? <;> cases hr' : h'.revisions[r]? <;> simp_all

theorem score (still : Still h h') (r : Rev) : h'.score r = h.score r :=
  (Revision.plain_eq_iff.1 (still.plain r)).2.1

/-- A change that goes by what is the same makes changes that are the same. -/
theorem modify (still : Still h k) (r : Rev) {f : Revision → Revision}
    (hf : ∀ a b, a.plain = b.plain → (f a).plain = (f b).plain) :
    Still (h.modify r f) (k.modify r f) := by
  refine ⟨?_, still.byId, still.segments, still.arrived, still.maxScore, still.diverged⟩
  have hsize := still.toSameLinks.size
  refine Array.ext (by simpa [History.modify] using hsize) fun i hi hi' => ?_
  have hlt : i < k.revisions.size := by simpa [History.modify] using hi
  have hlt' : i < h.revisions.size := hsize ▸ hlt
  have hplain := still.plain i
  rw [revision_of_lt hlt, revision_of_lt hlt'] at hplain
  simp only [History.modify, Array.getElem_map, Array.getElem_modify]
  split
  · exact hf _ _ hplain
  · exact hplain

theorem push (still : Still h k) (id : CommitId) (score : Score) :
    Still (h.push id score) (k.push id score) := by
  refine ⟨?_, ?_, still.segments, still.arrived, still.maxScore, still.diverged⟩
  · simp only [History.push, Array.map_push, still.revisions]
  · simp only [History.push, still.toSameLinks.size, still.byId]

theorem disturb (still : Still h k) (score score' : Score) :
    Still (h.disturb score) (k.disturb score') :=
  ⟨still.revisions, still.byId, still.segments, still.arrived, still.maxScore, still.diverged⟩

theorem setScore (still : Still h k) (r : Rev) (score : Score) :
    Still (h.setScore r score) (k.setScore r score) := by
  -- Whether the order is disturbed depends on what is remembered of it, which may differ.
  have hset (g : History) : Still (g.modify r ({ · with score })) (g.setScore r score) := by
    unfold History.setScore
    split
    · exact ⟨rfl, rfl, rfl, rfl, rfl, rfl⟩
    · exact .refl _
  refine (hset h).symm.trans (.trans (still.modify r fun a b hab => ?_) (hset k))
  simp_all [Revision.plain_eq_iff]

theorem raiseMax (still : Still h k) (score : Score) : Still (h.raiseMax score) (k.raiseMax score) :=
  ⟨still.revisions, still.byId, still.segments, still.arrived,
    congrArg (max · score) still.maxScore, still.diverged⟩

theorem raiseWithin (still : Still h k) (depth : Nat) (r : Rev) (minimal : Score) :
    Still (raiseWithin depth r minimal h) (raiseWithin depth r minimal k) := by
  induction depth generalizing r minimal h k with
  | zero => exact ⟨still.revisions, still.byId, still.segments, still.arrived, still.maxScore, rfl⟩
  | succ depth ih =>
    unfold History.raiseWithin
    rw [still.score, still.toSameLinks.parents]
    split
    · exact still.raiseMax _
    · exact List.foldr_rel ((still.setScore r minimal).raiseMax minimal)
        fun p _ _ _ hrest => ih hrest p _

theorem raise (still : Still h k) (r : Rev) (minimal : Score) :
    Still (h.raise r minimal) (k.raise r minimal) := by
  unfold History.raise
  rw [still.toSameLinks.size]
  exact still.raiseWithin _ r minimal

theorem openGap (still : Still h k) (insertion : Insertion) :
    Still (h.openGap insertion) (k.openGap insertion) := by
  unfold History.openGap
  rw [still.toSameLinks.size]
  refine List.foldl_rel still fun r _ g l hgl => ?_
  unfold makeWay
  rw [hgl.score]
  split
  · exact hgl.setScore r _
  · exact hgl

end Still

theorem still_setRelatives (h : History) (relatives : List Rev) :
    Still h (h.setRelatives relatives) := by
  refine ⟨Array.ext (by simp [setRelatives]) fun i hi hi' => ?_, rfl, rfl, rfl, rfl, rfl⟩
  simp [setRelatives, Revision.plain]

theorem still_mark (h : History) (child parent : Rev) : Still h (h.mark child parent) := by
  unfold mark
  split
  · exact still_setRelatives _ _
  · exact .refl h

namespace Still

theorem tie (still : Still h k) (child parent : Rev) :
    Still (h.tie child parent) (k.tie child parent) := by
  have hsize : k.segments.size = h.segments.size := congrArg Array.size still.segments
  have hpush : Still { h with segments := h.segments.push ⟨child, parent⟩ }
      { k with segments := k.segments.push ⟨child, parent⟩ } := by
    refine ⟨still.revisions, still.byId, ?_, still.arrived, still.maxScore, still.diverged⟩
    simp only [still.segments]
  unfold History.tie
  rw [hsize]
  refine (hpush.modify parent fun a b hab => ?_).modify child fun a b hab => ?_
  · simp_all [Revision.plain_eq_iff]
  · simp_all [Revision.plain_eq_iff]

theorem link (still : Still h k) (child parent : Rev) :
    Still (h.link child parent) (k.link child parent) := by
  -- The marks that the link sets may differ, so the two histories meet only after them.
  have hmarked := ((still_mark _ child parent).symm.trans (still.tie child parent)).trans
    (still_mark _ child parent)
  rw [link_eq, link_eq, hmarked.score child]
  exact hmarked.raise parent _

theorem meetParent (still : Still h k) (inserted : Bool) (child : Rev) (position : Nat)
    (name : CommitId) :
    Still (h.meetParent inserted child position name).1
        (k.meetParent inserted child position name).1 ∧
      (k.meetParent inserted child position name).2 =
        (h.meetParent inserted child position name).2 := by
  unfold History.meetParent
  rw [still.toSameLinks.find?]
  cases h.find? name with
  | some parent => exact ⟨still, rfl⟩
  | none =>
    have hscore : k.placeholderScore inserted child position =
        h.placeholderScore inserted child position := by
      simp only [placeholderScore, still.score, still.maxScore]
    cases inserted with
    | true =>
      refine ⟨?_, still.toSameLinks.size⟩
      dsimp only
      rw [hscore]
      exact still.push name _
    | false =>
      refine ⟨?_, still.toSameLinks.size⟩
      dsimp only
      rw [hscore]
      generalize h.placeholderScore false child position = score
      have hset : Still { h with maxScore := score } { k with maxScore := score } :=
        ⟨still.revisions, still.byId, still.segments, still.arrived, rfl, still.diverged⟩
      exact hset.push name score

theorem linkParents (still : Still h k) (inserted onlyFirst : Bool) (id : CommitId) (child : Rev)
    (position : Nat) (names : List CommitId) :
    Still (linkParents inserted onlyFirst id child position names h)
      (linkParents inserted onlyFirst id child position names k) := by
  induction names generalizing h k position with
  | nil => exact still
  | cons name names ih =>
    unfold History.linkParents
    split
    · exact ih still _
    · obtain ⟨hmet, hparent⟩ := still.meetParent inserted child position name
      rcases hh : h.meetParent inserted child position name with ⟨met, parent⟩
      rcases hk : k.meetParent inserted child position name with ⟨met', parent'⟩
      rw [hh, hk] at hmet hparent
      cases hparent
      dsimp only at hmet ⊢
      rw [hmet.toSameLinks.parents]
      split
      · exact ih hmet _
      · split
        · exact hmet.link child _
        · exact ih (hmet.link child _) _

theorem complete (still : Still h k) (r : Rev) : Still (h.complete r) (k.complete r) := by
  have hmodify : Still (h.modify r ({ · with completed := true }))
      (k.modify r ({ · with completed := true })) := by
    apply still.modify
    intro a b hab
    simp_all [Revision.plain_eq_iff]
  refine ⟨hmodify.revisions, hmodify.byId, hmodify.segments, ?_, hmodify.maxScore,
    hmodify.diverged⟩
  unfold History.complete
  simp only [still.toSameLinks.completed, still.arrived]

/-- The number that a commit gets does not depend on marks either. -/
theorem enroll (still : Still h k) (id : CommitId) (insertion : Option Insertion) :
    Still (h.enroll id insertion).history (k.enroll id insertion).history ∧
      (k.enroll id insertion).revision = (h.enroll id insertion).revision ∧
      (k.enroll id insertion).linked = (h.enroll id insertion).linked := by
  have hbump : Still { h with maxScore := h.maxScore + 1 } { k with maxScore := k.maxScore + 1 } :=
    ⟨still.revisions, still.byId, still.segments, still.arrived,
      congrArg (· + 1) still.maxScore, still.diverged⟩
  have hsize := still.toSameLinks.size
  have hfind := hbump.toSameLinks.find? id
  unfold History.enroll
  dsimp only
  rw [hfind]
  cases History.find? { h with maxScore := h.maxScore + 1 } id with
  | none =>
    cases insertion with
    | none =>
      refine ⟨?_, hsize, rfl⟩
      dsimp only
      rw [still.maxScore]
      exact (still.maxScore ▸ hbump).push id _
    | some place => exact ⟨((hbump.openGap place).disturb _ _).push id _, hsize, rfl⟩
  | some r =>
    cases insertion with
    | none =>
      refine ⟨?_, rfl, rfl⟩
      dsimp only
      rw [still.maxScore]
      exact (still.maxScore ▸ hbump).raise r _
    | some place => exact ⟨hbump, rfl, rfl⟩

theorem add (still : Still h k) (id : CommitId) (parents : List CommitId)
    (insertion : Option Insertion) (onlyFirst : Bool) :
    Still (h.add id parents insertion onlyFirst).history
        (k.add id parents insertion onlyFirst).history ∧
      (k.add id parents insertion onlyFirst).revision =
        (h.add id parents insertion onlyFirst).revision ∧
      (k.add id parents insertion onlyFirst).linked =
        (h.add id parents insertion onlyFirst).linked := by
  obtain ⟨henroll, hrevision, hlinked⟩ := still.enroll id insertion
  refine ⟨?_, hrevision, hlinked⟩
  unfold History.add
  dsimp only
  rw [hrevision, hlinked]
  apply Still.complete
  split
  · exact henroll.linkParents _ _ _ _ _ _
  · exact henroll

end Still

/-- Rows are in the same order. -/
theorem Still.sorted (still : Still h k) : k.sorted = h.sorted := by
  have hprecedes : k.precedes = h.precedes := by
    funext a b
    simp only [precedes, still.score]
  unfold History.sorted
  rw [hprecedes, still.arrived]

theorem still_rerank (h : History) : Still h h.rerank := ⟨rfl, rfl, rfl, rfl, rfl, rfl⟩

theorem still_rank (h : History) (row : Nat) : Still h (h.rank row) := by
  unfold rank
  split
  · exact .refl h
  · exact still_rerank h

end History

end CommitLanes
