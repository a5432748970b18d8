import CommitLanes.Proofs.History.Raise
import Mathlib.Data.Int.ConditionallyCompleteOrder
import Mathlib.Order.ConditionallyCompleteLattice.Basic

/-! # Opening a gap

An insertion moves everything scored below it up by its range. All scores go through one strictly
monotone function, so no two revisions change their order. -/

namespace CommitLanes

namespace Insertion

/-- Where the insertion moves a score. -/
def shift (insertion : Insertion) (score : Score) : Score :=
  if score < insertion.score then score - insertion.range else score

theorem shift_le {insertion : Insertion} (hrange : 0 ≤ insertion.range) (score : Score) :
    insertion.shift score ≤ score := by
  unfold shift; split <;> lia

theorem shift_strictMono {insertion : Insertion} (hrange : 0 ≤ insertion.range) :
    StrictMono insertion.shift := by
  intro a b hab
  unfold shift
  split <;> split <;> lia

/-- The insertion makes room in front of a row and moves no score out of 64 bits. -/
def Opens (insertion : Insertion) (h : History) : Prop :=
  0 ≤ insertion.range ∧ ∀ r < h.revisions.size, h.score r < insertion.score →
    Fits (h.score r - insertion.range)

instance (insertion : Insertion) (h : History) : Decidable (insertion.Opens h) :=
  inferInstanceAs (Decidable (_ ∧ _))

end Insertion

namespace History

variable {h h' h'' : History} {insertion : Insertion}

/-- The second history comes from the first by moving the given revisions out of the way. -/
structure Shifted (insertion : Insertion) (rs : List Rev) (h h' : History) : Prop
    extends SameLinks h h', Rescored h h' where
  score : ∀ q, h'.score q = if q ∈ rs then insertion.shift (h.score q) else h.score q
  maxScore : h'.maxScore = h.maxScore
  diverged : h'.diverged = h.diverged

private theorem makeWay_shifted {r : Rev} (hr : r < h.revisions.size)
    (hfits : h.score r < insertion.score → Fits (h.score r - insertion.range)) :
    Shifted insertion [r] h (makeWay insertion h r) := by
  unfold makeWay
  split
  · next hlt =>
    refine ⟨sameLinks_setScore r _, rescored_setScore hr _, fun q => ?_, maxScore_setScore _ _,
      diverged_setScore _ _⟩
    rw [score_setScore hr, wrapInt_of_fits (hfits hlt)]
    by_cases hq : q = r
    · simp [hq, Insertion.shift, hlt]
    · simp [hq]
  · next hle =>
    refine ⟨.refl h, .refl h, fun q => ?_, rfl, rfl⟩
    by_cases hq : q = r
    · simp [hq, Insertion.shift, hle]
    · simp [hq]

private theorem foldl_makeWay_shifted {rs : List Rev} (hnodup : rs.Nodup)
    (hlt : ∀ r ∈ rs, r < h.revisions.size)
    (hfits : ∀ r ∈ rs, h.score r < insertion.score → Fits (h.score r - insertion.range)) :
    Shifted insertion rs h (rs.foldl (makeWay insertion) h) := by
  induction rs generalizing h with
  | nil => exact ⟨.refl h, .refl h, fun q => by simp, rfl, rfl⟩
  | cons r rest ih =>
    obtain ⟨hr, hrest⟩ := List.nodup_cons.1 hnodup
    have first := makeWay_shifted (hlt r List.mem_cons_self) (hfits r List.mem_cons_self)
    -- The revisions still to come have the scores that they had at first.
    have hscore : ∀ q ∈ rest, (makeWay insertion h r).score q = h.score q := by
      intro q hq
      rw [first.score, if_neg]
      exact fun hmem => hr (List.mem_singleton.1 hmem ▸ hq)
    have second : Shifted insertion rest (makeWay insertion h r)
        (rest.foldl (makeWay insertion) (makeWay insertion h r)) := by
      apply ih hrest
      · intro q hq
        rw [first.size]
        exact hlt q (List.mem_cons_of_mem _ hq)
      · intro q hq
        rw [hscore q hq]
        exact hfits q (List.mem_cons_of_mem _ hq)
    refine ⟨first.toSameLinks.trans second.toSameLinks, first.toRescored.trans second.toRescored,
      fun q => ?_, second.maxScore.trans first.maxScore, second.diverged.trans first.diverged⟩
    -- No revision is moved twice.
    rw [List.foldl_cons, second.score]
    by_cases hq : q ∈ rest
    · simp [hq, hscore q hq]
    · simp [hq, first.score]

theorem sameLinks_makeWay (insertion : Insertion) (h : History) (r : Rev) :
    SameLinks h (makeWay insertion h r) := by
  unfold makeWay
  split
  · exact sameLinks_setScore r _
  · exact .refl h

/-- Links stay, whatever becomes of the scores. -/
theorem sameLinks_openGap (insertion : Insertion) (h : History) :
    SameLinks h (h.openGap insertion) :=
  List.foldlRecOn _ _ (.refl h) fun _ same r _ => same.trans (sameLinks_makeWay insertion _ r)

theorem openGap_shifted (hopens : insertion.Opens h) :
    Shifted insertion (List.range h.revisions.size) h (h.openGap insertion) := by
  apply foldl_makeWay_shifted List.nodup_range
  · simp
  · simpa using hopens.2

theorem score_openGap (hopens : insertion.Opens h) {r : Rev} (hr : r < h.revisions.size) :
    (h.openGap insertion).score r = insertion.shift (h.score r) := by
  rw [(openGap_shifted hopens).score, if_pos (List.mem_range.2 hr)]

end History

end CommitLanes
