import CommitLanes.Proofs.History.Adding

/-! # Giving commits their numbers

A commit gets its number and its preliminary place in one of four ways, and then its links. Its
place lies after all that is ordered so far, or it is known to disturb the order. -/

namespace CommitLanes

/-- The insertion is placed in front of a revision that there is. -/
def Insertion.Lands (insertion : Insertion) (h : History) : Prop :=
  ∃ r < h.revisions.size, h.score r = insertion.score

instance (insertion : Insertion) (h : History) : Decidable (insertion.Lands h) :=
  inferInstanceAs (Decidable (∃ r, r < h.revisions.size ∧ h.score r = insertion.score))

namespace History

variable {h h' h'' : History} {child : Rev} {id : CommitId} {insertion : Option Insertion}

/-- An insertion of a commit not heard of yet opens a gap. -/
def Admits (h : History) (id : CommitId) (insertion : Option Insertion) : Prop :=
  ∀ place ∈ insertion, h.find? id = none → place.Opens h

instance (h : History) (id : CommitId) (insertion : Option Insertion) :
    Decidable (h.Admits id insertion) :=
  match insertion with
  | none => .isTrue (by simp [Admits])
  | some place => decidable_of_iff (h.find? id = none → place.Opens h) (by simp [Admits])

/-- An insertion of a commit not heard of yet is placed in front of a revision that there is. -/
def Lands (h : History) (id : CommitId) (insertion : Option Insertion) : Prop :=
  ∀ place ∈ insertion, h.find? id = none → place.Lands h

/-! ## Giving a commit its number -/

/-- The commit `name` has got the number `child` and perhaps links. If it is `placed` anew
then its place lies after all that is ordered, and if it `lands` then all scores are accounted
for. -/
structure Connecting (name : CommitId) (lands placed : Prop) (child : Rev) (h h' : History) : Prop
    extends Advance child h h' where
  child_lt : child < h'.revisions.size
  child_id : (h'.revision child).id = name
  bounded : lands → h.Bounded → h'.Bounded
  uncovered : placed → h.Bounded → h.Ranked → h'.ranking.stale = false →
    ¬ h'.ranking.covers (h'.score child)

/-- What scores above everything given out lies after all that is ordered. -/
private theorem Ranked.not_covers_of_lt (hr : h.Ranked) (hb : h.Bounded) (hw : h.WellLinked)
    (hs : h.ranking.stale = false) {score : Score} (hscore : h.maxScore < score) :
    ¬ h.ranking.covers score := by
  intro hcovers
  obtain ⟨last, hlast, hle, -⟩ := hr.exists_of_covers hs hcovers
  have hmax := hb last (hw.completed_lt hlast)
  lia

theorem Connecting.linking {lands placed : Prop}
    (first : Connecting id lands placed child h h') (second : Linking child h' h'') :
    Connecting id lands placed child h h'' where
  toAdvance := first.toAdvance.trans second.toAdvance
  child_lt := first.child_lt.trans_le second.size_le
  child_id := (second.id child first.child_lt).trans first.child_id
  bounded hlands hb := second.bounded (first.bounded hlands hb)
  uncovered hplaced hb hr hs := by
    rw [second.covers, second.score_child]
    exact first.uncovered hplaced hb hr (second.stale hs)

/-- The history with the highest score given out taken one step further. -/
def bump (h : History) : History := { h with maxScore := h.maxScore + 1 }

/-- The ways in which a commit gets its number and its preliminary score. -/
inductive Enrollment (h : History) (id : CommitId) : Option Insertion → Added → Prop
  | fresh (hfind : h.find? id = none) :
    Enrollment h id none ⟨h.bump.push id (h.maxScore + 1), h.revisions.size, true⟩
  | inserted {place : Insertion} (hfind : h.find? id = none) :
    Enrollment h id (some place)
      ⟨((h.bump.openGap place).disturb place.start).push id place.start, h.revisions.size, true⟩
  | moved {r : Rev} (hfind : h.find? id = some r) :
    Enrollment h id none ⟨h.bump.raise r (h.maxScore + 1), r, true⟩
  | kept {place : Insertion} {r : Rev} (hfind : h.find? id = some r) :
    Enrollment h id (some place) ⟨h.bump, r, false⟩

theorem enroll_enrollment (h : History) (id : CommitId) (insertion : Option Insertion) :
    Enrollment h id insertion (h.enroll id insertion) := by
  have hbump : History.find? { h with maxScore := h.maxScore + 1 } id = h.find? id := rfl
  cases hfind : h.find? id with
  | none =>
    cases insertion with
    | none =>
      simp only [enroll, hbump, hfind]
      exact .fresh hfind
    | some place =>
      simp only [enroll, hbump, hfind]
      exact .inserted hfind
  | some r =>
    cases insertion with
    | none =>
      simp only [enroll, hbump, hfind]
      exact .moved hfind
    | some place =>
      simp only [enroll, hbump, hfind]
      exact .kept hfind

theorem advance_bump (hw : h.WellLinked) : Advance child h h.bump := advance_maxScore hw _

theorem sameLinks_bump (h : History) : SameLinks h h.bump := ⟨rfl, rfl, rfl, rfl⟩

/-- Before an inserted row gets its number only scores move. -/
theorem sameLinks_gap (h : History) (place : Insertion) :
    SameLinks h ((h.bump.openGap place).disturb place.start) := by
  have hgap := (sameLinks_bump h).trans (sameLinks_openGap place h.bump)
  exact ⟨hgap.revisions, hgap.byId, hgap.segments, hgap.arrived⟩

/-- A commit that is known keeps its links when it is moved. -/
theorem sameLinks_bump_raise (h : History) (r : Rev) (minimal : Score) :
    SameLinks h (h.bump.raise r minimal) :=
  (sameLinks_bump h).trans (sameLinks_raise r minimal)

theorem Enrollment.grown {added : Added} (henroll : Enrollment h id insertion added) :
    Grown added.revision h added.history := by
  cases henroll with
  | fresh hfind => exact (Grown.of_sameLinks (sameLinks_bump h)).trans (push_grown _ _ _ _)
  | inserted hfind => exact (Grown.of_sameLinks (sameLinks_gap h _)).trans (push_grown _ _ _ _)
  | moved hfind => exact .of_sameLinks (sameLinks_bump_raise h _ _)
  | kept hfind => exact .of_sameLinks (sameLinks_bump h)

theorem Enrollment.lt {added : Added} (henroll : Enrollment h id insertion added)
    (hfiled : h.Filed) : added.revision < added.history.revisions.size := by
  cases henroll with
  | fresh hfind => simp [bump]
  | inserted hfind =>
    rw [size_push, (sameLinks_gap h _).size]
    exact Nat.lt_succ_self _
  | moved hfind =>
    rw [(sameLinks_bump_raise h _ _).size]
    exact hfiled _ _ hfind
  | kept hfind => exact hfiled _ _ hfind

theorem bounded_push (hb : h.Bounded) {score : Score} (hscore : score ≤ h.maxScore) :
    (h.push id score).Bounded := by
  intro r hr
  rw [size_push, Nat.lt_succ_iff_lt_or_eq] at hr
  rcases hr with hr | rfl
  · rw [score_push_of_lt hr]
    exact hb r hr
  · rw [score_push_size]
    exact hscore

private theorem Enrollment.bounded {added : Added} (henroll : Enrollment h id insertion added)
    (hw : h.WellLinked) (hac : h.Acyclic) (hadmits : h.Admits id insertion)
    (hlands : h.Lands id insertion) (hb : h.Bounded) : added.history.Bounded := by
  have hbump : h.bump.Bounded := fun r hr => (hb r hr).trans (Int.le_add_one le_rfl)
  cases henroll with
  | fresh hfind => exact bounded_push hbump le_rfl
  | @inserted place hfind =>
    have hopens : place.Opens h.bump := hadmits place rfl hfind
    have hgap := openGap_shifted hopens
    obtain ⟨front, hfront, hscore⟩ := hlands place rfl hfind
    have hgapped : (h.bump.openGap place).Bounded := by
      intro r hr
      rw [hgap.size] at hr
      rw [score_openGap hopens hr, hgap.maxScore]
      exact (Insertion.shift_le hopens.1 _).trans (hbump r hr)
    apply bounded_push (h := (h.bump.openGap place).disturb place.start) hgapped
    -- The new row is no further down than the one that it is placed in front of.
    have hmax : ((h.bump.openGap place).disturb place.start).maxScore = h.bump.maxScore :=
      hgap.maxScore
    have hrange := hopens.1
    have hle := hbump front hfront
    have hfrontscore : h.bump.score front = place.score := hscore
    rw [hmax, Insertion.start]
    lia
  | @moved r hfind =>
    have hknown := (hw.find?_eq_some_iff.1 hfind).1
    exact (raise_raisedTo (h := h.bump) _ hac hw.inRange hknown).toRaised.bounded hbump
  | kept hfind => exact hbump

theorem Enrollment.connecting {added : Added} (henroll : Enrollment h id insertion added)
    (hw : h.WellLinked) (hac : h.Acyclic) (hadmits : h.Admits id insertion) :
    Connecting id (h.Lands id insertion) (added.linked = true) added.revision h added.history := by
  have hwbump : h.bump.WellLinked := hw.of_sameLinks ⟨rfl, rfl, rfl, rfl⟩
  have hbounded := henroll.bounded hw hac hadmits
  have hlt := henroll.lt hw.filed
  cases henroll with
  | fresh hfind =>
    refine ⟨(advance_bump hw).trans (advance_push hwbump _ hfind), hlt, ?_, hbounded, ?_⟩
    · exact congrArg (·.id) (revision_push_size (h := h.bump) id _)
    · -- The place is after everything seen so far.
      intro _ hb hr hs
      have hscore : (h.bump.push id (h.maxScore + 1)).score h.revisions.size = h.maxScore + 1 :=
        score_push_size id _
      rw [hscore]
      exact hr.not_covers_of_lt hb hw hs (by lia)
  | @inserted place hfind =>
    have hopens : place.Opens h.bump := hadmits place rfl hfind
    have hgap : Advance h.revisions.size h.bump (h.bump.openGap place) :=
      advance_openGap hwbump hopens
    have hsame := (openGap_shifted hopens).toSameLinks
    have hdisturb := hgap.trans (advance_disturb hgap.wellLinked place.start)
    have hsize : ((h.bump.openGap place).disturb place.start).revisions.size = h.revisions.size :=
      hsame.size
    have hfresh : ((h.bump.openGap place).disturb place.start).find? id = none :=
      (hsame.find? id).trans hfind
    refine ⟨(advance_bump hw).trans (hdisturb.trans (advance_push hdisturb.wellLinked _ hfresh)),
      hlt, ?_, hbounded, fun _ _ _ hs hcovers => ?_⟩
    · rw [← hsize, revision_push_size]
    · rw [← hsize, score_push_size] at hcovers
      -- The place itself would have disturbed the order.
      have hstale : ((h.bump.openGap place).ranking.disturb place.start).stale = false := hs
      rw [Ranking.stale_disturb, Bool.or_eq_false_iff] at hstale
      have hcovers' : ((h.bump.openGap place).ranking.disturb place.start).covers place.start :=
        hcovers
      rw [Ranking.covers, Ranking.upTo_disturb] at hcovers'
      exact Bool.false_ne_true (hstale.2.symm.trans hcovers')
  | @moved r hfind =>
    obtain ⟨hknown, hid⟩ := hw.find?_eq_some_iff.1 hfind
    have hraise := raise_raisedTo (h := h.bump) (h.maxScore + 1) hac hw.inRange hknown
    refine ⟨(advance_bump hw).trans (advance_raise hwbump hac hknown _), hlt,
      (hraise.id r).trans hid, hbounded, fun _ hb hr hs => ?_⟩
    -- It has been raised above everything seen so far.
    have hfloor := hraise.floor r (List.mem_singleton_self r)
    rw [hraise.covers]
    exact hr.not_covers_of_lt hb hw (hraise.stale hs) (by lia)
  | kept hfind =>
    -- Its place was given out before, and nothing is promised of it.
    exact ⟨advance_bump hw, hlt, (hw.find?_eq_some_iff.1 hfind).2, hbounded,
      fun hplaced => absurd hplaced Bool.false_ne_true⟩

end History

end CommitLanes
