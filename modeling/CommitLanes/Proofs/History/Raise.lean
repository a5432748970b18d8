import CommitLanes.Proofs.History.Ancestry

/-! # Raising scores

What raising a revision does to a history. Scores only go up, and only those of the revision and of
its ancestors; on an acyclic history the search ends, and every parent that was above its child
still is. -/

namespace CommitLanes.History

variable {h h' h'' : History}

/-! ## Giving one revision a score -/

theorem score_setScore {r : Rev} (hr : r < h.revisions.size) (score : Score) (q : Rev) :
    (h.setScore r score).score q = if q = r then score else h.score q := by
  -- Whether the order is disturbed first does not matter to revisions.
  have hmodify (g : History) (hg : g.revisions = h.revisions) :
      (g.modify r ({ · with score })).score q = if q = r then score else h.score q := by
    have hsame : g.revision q = h.revision q := by rw [revision, hg, revision]
    rw [History.score, revision_modify, hsame, hg]
    by_cases hq : q = r
    · simp [hq, hr]
    · simp [hq, History.score]
  unfold setScore
  split
  · exact hmodify _ rfl
  · exact hmodify _ rfl

@[simp] theorem maxScore_setScore (r : Rev) (score : Score) :
    (h.setScore r score).maxScore = h.maxScore := by
  unfold setScore; split <;> rfl

@[simp] theorem diverged_setScore (r : Rev) (score : Score) :
    (h.setScore r score).diverged = h.diverged := by
  unfold setScore; split <;> rfl

theorem ranking_setScore (r : Rev) (score : Score) :
    (h.setScore r score).ranking =
      if (h.revision r).completed then h.ranking.disturb (h.score r) else h.ranking := by
  unfold setScore; split <;> rfl

@[simp] theorem score_raiseMax (score : Score) (q : Rev) :
    (h.raiseMax score).score q = h.score q := rfl

theorem sameLinks_raiseMax (score : Score) : SameLinks h (h.raiseMax score) := ⟨rfl, rfl, rfl, rfl⟩

/-! ## Moving scores about -/

/-- No revision completes on the way from the first history to the second, and the row order that is
remembered is the same. It is still trusted only if nothing that it covers has moved. -/
structure Rescored (h h' : History) : Prop where
  arrivals : h'.arrived = h.arrived
  completed : ∀ r, (h'.revision r).completed = (h.revision r).completed
  order : h'.ranking.order = h.ranking.order
  upTo : h'.ranking.upTo = h.ranking.upTo
  stale : h'.ranking.stale = false → h.ranking.stale = false
  unmoved : h'.ranking.stale = false → ∀ r, (h.revision r).completed →
    h.ranking.covers (h.score r) → h'.score r = h.score r

namespace Rescored

theorem covers (moved : Rescored h h') (score : Score) :
    h'.ranking.covers score = h.ranking.covers score := by
  simp only [Ranking.covers, moved.upTo]

theorem trans (first : Rescored h h') (second : Rescored h' h'') : Rescored h h'' where
  arrivals := second.arrivals.trans first.arrivals
  completed r := (second.completed r).trans (first.completed r)
  order := second.order.trans first.order
  upTo := second.upTo.trans first.upTo
  stale hs := first.stale (second.stale hs)
  unmoved hs r hr hcovers := by
    have hfirst := first.unmoved (second.stale hs) r hr hcovers
    rw [← hfirst]
    apply second.unmoved hs r
    · rwa [first.completed]
    · rwa [first.covers, hfirst]

/-- A change that keeps the scores of completed revisions disturbs nothing. -/
theorem of_score_eq (harrived : h'.arrived = h.arrived)
    (hcompleted : ∀ r, (h'.revision r).completed = (h.revision r).completed)
    (hranking : h'.ranking = h.ranking)
    (hscore : ∀ r, (h.revision r).completed → h'.score r = h.score r) : Rescored h h' :=
  ⟨harrived, hcompleted, congrArg (·.order) hranking, congrArg (·.upTo) hranking,
    fun hs => by rwa [← hranking], fun _ r hr _ => hscore r hr⟩

theorem refl (h : History) : Rescored h h := of_score_eq rfl (fun _ => rfl) rfl fun _ _ => rfl

end Rescored

theorem rescored_setScore {r : Rev} (hr : r < h.revisions.size) (score : Score) :
    Rescored h (h.setScore r score) where
  arrivals := (sameLinks_setScore r score).arrived
  completed := (sameLinks_setScore r score).completed
  order := by rw [ranking_setScore]; split <;> simp
  upTo := by rw [ranking_setScore]; split <;> simp
  stale hs := by
    rw [ranking_setScore] at hs
    split at hs
    · exact (by simpa using hs : _ ∧ _).1
    · exact hs
  unmoved hs q hq hcovers := by
    rw [score_setScore hr]
    split
    · -- The revision itself would have disturbed the order.
      next heq =>
        subst heq
        rw [ranking_setScore, if_pos hq] at hs
        simp [hcovers] at hs
    · rfl

/-- The second history comes from the first by giving revisions higher scores, which the highest
score given out keeps up with. -/
structure Raised (h h' : History) : Prop extends SameLinks h h', Rescored h h' where
  score_le : ∀ r, h.score r ≤ h'.score r
  maxScore_le : h.maxScore ≤ h'.maxScore
  score_le_max : ∀ r, h'.score r ≤ max (h.score r) h'.maxScore

namespace Raised

/-- What keeps all scores and remembers the same order may raise the highest score given out. -/
theorem of_score_eq (same : SameLinks h h') (hranking : h'.ranking = h.ranking)
    (hscore : ∀ r, h'.score r = h.score r) (hmax : h.maxScore ≤ h'.maxScore) : Raised h h' where
  toSameLinks := same
  toRescored := .of_score_eq same.arrived same.completed hranking fun r _ => hscore r
  score_le r := (hscore r).ge
  maxScore_le := hmax
  score_le_max r := (hscore r).le.trans (le_max_left _ _)

theorem refl (h : History) : Raised h h := of_score_eq (.refl h) rfl (fun _ => rfl) le_rfl

theorem trans (first : Raised h h') (second : Raised h' h'') : Raised h h'' where
  toSameLinks := first.toSameLinks.trans second.toSameLinks
  toRescored := first.toRescored.trans second.toRescored
  score_le r := (first.score_le r).trans (second.score_le r)
  maxScore_le := first.maxScore_le.trans second.maxScore_le
  score_le_max r := by
    have hfirst := first.score_le_max r
    have hsecond := second.score_le_max r
    have hmax := second.maxScore_le
    lia

end Raised

theorem raised_raiseMax (score : Score) : Raised h (h.raiseMax score) :=
  .of_score_eq (sameLinks_raiseMax score) rfl (fun _ => rfl) (le_max_left _ _)

theorem raised_setScore {r : Rev} (hr : r < h.revisions.size) {score : Score}
    (hscore : h.score r < score) : Raised h ((h.setScore r score).raiseMax score) where
  toSameLinks := (sameLinks_setScore r score).trans (sameLinks_raiseMax score)
  toRescored := (rescored_setScore hr score).trans (raised_raiseMax score).toRescored
  score_le q := by
    rw [score_raiseMax, score_setScore hr]
    split
    · next heq => rw [heq]; exact hscore.le
    · exact le_rfl
  maxScore_le := by simp [raiseMax]
  score_le_max q := by
    rw [score_raiseMax, score_setScore hr]
    split
    · exact (le_max_right _ _).trans (le_max_right _ _)
    · exact le_max_left _ _

/-! ## Raising revisions and their ancestors -/

/-- No revision scores above the highest score given out. -/
def Bounded (h : History) : Prop := ∀ r < h.revisions.size, h.score r ≤ h.maxScore

theorem Raised.bounded (raised : Raised h h') (hbounded : h.Bounded) : h'.Bounded := by
  intro r hr
  rw [raised.size] at hr
  have hle := raised.score_le_max r
  have hmax := (hbounded r hr).trans raised.maxScore_le
  lia

/-- The second history comes from the first by raising the targets to a score of at least `minimal`
and their ancestors above them: nothing else moves, and no parent is caught up with. -/
structure RaisedTo (targets : List Rev) (minimal : Score) (h h' : History) : Prop
    extends Raised h h' where
  frame : ∀ q, q ∉ targets → (∀ r ∈ targets, ¬ h.IsAncestor r q) → h'.score q = h.score q
  floor : ∀ r ∈ targets, minimal ≤ h'.score r
  bounded : ∀ r ∈ targets, h'.score r ≤ h'.maxScore
  keeps : ∀ c p, h.IsParent c p → h.score c < h.score p → h'.score c < h'.score p
  diverged : h'.diverged = h.diverged

namespace RaisedTo

theorem nil (minimal : Score) (h : History) : RaisedTo [] minimal h h where
  toRaised := .refl h
  frame _ _ _ := rfl
  floor _ hr := absurd hr List.not_mem_nil
  bounded _ hr := absurd hr List.not_mem_nil
  keeps _ _ _ hlt := hlt
  diverged := rfl

theorem cons {r : Rev} {targets : List Rev} {minimal : Score}
    (first : RaisedTo targets minimal h h') (second : RaisedTo [r] minimal h' h'') :
    RaisedTo (r :: targets) minimal h h'' where
  toRaised := first.toRaised.trans second.toRaised
  frame q hq hancestor := by
    obtain ⟨hr, htargets⟩ : q ≠ r ∧ q ∉ targets := by simpa using hq
    rw [second.frame q (by simpa using hr), first.frame q htargets]
    · exact fun t ht => hancestor t (List.mem_cons_of_mem _ ht)
    · -- Ancestry is the same in the history in between.
      intro t ht
      rw [List.mem_singleton.1 ht, first.isAncestor]
      exact hancestor r List.mem_cons_self
  floor t ht := by
    rcases List.mem_cons.1 ht with rfl | ht
    · exact second.floor t (List.mem_singleton_self t)
    · exact (first.floor t ht).trans (second.score_le t)
  bounded t ht := by
    rcases List.mem_cons.1 ht with rfl | ht
    · exact second.bounded t (List.mem_singleton_self t)
    · have hle := second.score_le_max t
      have hfirst := (first.bounded t ht).trans second.maxScore_le
      lia
  keeps c p hp hlt := second.keeps c p (first.isParent.2 hp) (first.keeps c p hp hlt)
  diverged := second.diverged.trans first.diverged

/-- What is raised already only raises the highest score given out. -/
private theorem low {r : Rev} {minimal : Score} (hlow : minimal ≤ h.score r) :
    RaisedTo [r] minimal h (h.raiseMax (h.score r)) where
  toRaised := raised_raiseMax _
  frame _ _ _ := rfl
  floor _ ht := by rw [List.mem_singleton.1 ht]; exact hlow
  bounded _ ht := by rw [List.mem_singleton.1 ht]; exact le_max_right _ _
  keeps _ _ _ hlt := hlt
  diverged := rfl

/-- A revision is raised by giving it the score and raising its parents above it. -/
private theorem high {r : Rev} {minimal : Score} (hac : h.Acyclic) (hr : r < h.revisions.size)
    (hhigh : h.score r < minimal)
    (hparents : RaisedTo (h.parents r) (minimal + 1)
      ((h.setScore r minimal).raiseMax minimal) h') : RaisedTo [r] minimal h h' := by
  have hset := raised_setScore hr hhigh
  have hscore (q : Rev) : ((h.setScore r minimal).raiseMax minimal).score q =
      if q = r then minimal else h.score q := score_setScore hr minimal q
  -- The revision keeps its score while its parents are raised, as it is no ancestor of theirs.
  have hself : h'.score r = minimal := by
    rw [hparents.frame r, hscore, if_pos rfl]
    · exact fun hmem => hac r (IsParent.isAncestor hmem)
    · exact fun p hp ha => hac r (.head hp (hset.isAncestor.1 ha))
  have hframe : ∀ q, q ∉ [r] → (∀ t ∈ [r], ¬ h.IsAncestor t q) → h'.score q = h.score q := by
    intro q hq hancestor
    rw [hparents.frame q, hscore, if_neg (by simpa using hq)]
    · exact fun hmem => hancestor r (List.mem_singleton_self r) (IsParent.isAncestor hmem)
    · exact fun p hp ha =>
        hancestor r (List.mem_singleton_self r) (.head hp (hset.isAncestor.1 ha))
  have hkeeps : ∀ c p, h.IsParent c p → h.score c < h.score p → h'.score c < h'.score p := by
    intro c p hp hlt
    by_cases hc : c = r
    · -- The parents of the revision are raised above it.
      subst hc
      have hfloor := hparents.floor p hp
      lia
    · apply hparents.keeps c p (hset.isParent.2 hp)
      have hle := hset.score_le p
      rw [hscore c, if_neg hc]
      lia
  exact {
    toRaised := hset.trans hparents.toRaised
    frame := hframe
    floor := fun t ht => by rw [List.mem_singleton.1 ht, hself]
    bounded := fun t ht => by
      rw [List.mem_singleton.1 ht, hself]
      exact (le_max_right _ _).trans hparents.maxScore_le
    keeps := hkeeps
    diverged := hparents.diverged.trans (diverged_setScore r minimal) }

end RaisedTo

/-- Links stay as they are whatever is raised, and be it along a cycle. -/
theorem sameLinks_raiseWithin (depth : Nat) (r : Rev) (minimal : Score) (h : History) :
    SameLinks h (raiseWithin depth r minimal h) := by
  induction depth generalizing r minimal h with
  | zero => exact ⟨rfl, rfl, rfl, rfl⟩
  | succ depth ih =>
    have hfold (g : History) (parents : List Rev) : SameLinks g
        (parents.foldr (fun parent => raiseWithin depth parent (minimal + 1)) g) := by
      induction parents with
      | nil => exact .refl g
      | cons p rest ihrest => exact ihrest.trans (ih p _ _)
    unfold raiseWithin
    split
    · exact sameLinks_raiseMax _
    · exact ((sameLinks_setScore r minimal).trans (sameLinks_raiseMax minimal)).trans (hfold _ _)

theorem sameLinks_raise (r : Rev) (minimal : Score) : SameLinks h (h.raise r minimal) :=
  sameLinks_raiseWithin _ _ _ _

/-- On an acyclic history a bound above the height of the revision is never reached. -/
private theorem raiseWithin_raisedTo {depth : Nat} {r : Rev} {minimal : Score} (hac : h.Acyclic)
    (hrange : h.InRange) (hr : r < h.revisions.size) (hdepth : h.height r < depth) :
    RaisedTo [r] minimal h (raiseWithin depth r minimal h) := by
  induction depth generalizing h r minimal with
  | zero => exact absurd hdepth (Nat.not_lt_zero _)
  | succ depth ih =>
    -- Raising one parent leaves links alone, so the heights of the others are still bounded.
    have hfold (g : History) (same : SameLinks h g) (minimal : Score) (parents : List Rev)
        (hparents : ∀ p ∈ parents, h.IsParent r p) :
        RaisedTo parents minimal g
          (parents.foldr (fun parent => raiseWithin depth parent minimal) g) := by
      induction parents with
      | nil => exact .nil _ _
      | cons p rest ihrest =>
        have hrest := ihrest fun q hq => hparents q (List.mem_cons_of_mem _ hq)
        have hp : h.IsParent r p := hparents p List.mem_cons_self
        have hsame := same.trans hrest.toSameLinks
        have hheight := height_lt_of_isParent hac hrange hp
        refine hrest.cons (ih (hsame.acyclic hac) (hsame.inRange hrange) ?_ ?_)
        · rw [hsame.size]
          exact hrange r p hp
        · rw [hsame.height]
          omega
    unfold raiseWithin
    split
    · next hlow => exact .low hlow
    · next hhigh =>
      apply RaisedTo.high hac hr (not_le.1 hhigh)
      apply hfold
      · exact (sameLinks_setScore r minimal).trans (sameLinks_raiseMax minimal)
      · exact fun p hp => hp

theorem raise_raisedTo {r : Rev} (minimal : Score) (hac : h.Acyclic) (hrange : h.InRange)
    (hr : r < h.revisions.size) : RaisedTo [r] minimal h (h.raise r minimal) :=
  raiseWithin_raisedTo hac hrange hr (height_lt_size hac hr)

end CommitLanes.History
