/-! # Row order, as last computed

Sorting is repeated only when it may give something new. A `Ranking` is the order found by the
last sort together with what tells whether it still holds: a score at or below the last one
ordered has changed since, or nothing was ever sorted. -/

namespace CommitLanes

/-- The number of a revision: revisions are counted as they become known. -/
abbrev Rev := Nat

/-- The sort key of a revision; a lower score is shown further up. -/
abbrev Score := Int

/-- The row order as last computed. -/
structure Ranking where
  /-- The revisions from the first row down. -/
  order : List Rev := []
  /-- The score of the last revision in `order` when it was computed. -/
  upTo : Option Score := none
  /-- Whether `order` may have changed since. -/
  stale : Bool := true
  deriving DecidableEq

namespace Ranking

instance : Inhabited Ranking := ⟨{}⟩

/-- Whether a revision of this score lies within what was ordered. -/
def covers (ranking : Ranking) (score : Score) : Bool := ranking.upTo.any (score ≤ ·)

/-- Takes note that a revision of this score moves. -/
def disturb (ranking : Ranking) (score : Score) : Ranking :=
  if ranking.covers score then { ranking with stale := true } else ranking

/-- Whether the order can be used by one who needs its first `needed` rows. -/
def serves (ranking : Ranking) (needed : Nat) : Bool :=
  !ranking.stale && needed ≤ ranking.order.length

@[simp] theorem order_disturb (ranking : Ranking) (score : Score) :
    (ranking.disturb score).order = ranking.order := by
  unfold disturb; split <;> rfl

@[simp] theorem upTo_disturb (ranking : Ranking) (score : Score) :
    (ranking.disturb score).upTo = ranking.upTo := by
  unfold disturb; split <;> rfl

@[simp] theorem stale_disturb (ranking : Ranking) (score : Score) :
    (ranking.disturb score).stale = (ranking.stale || ranking.covers score) := by
  unfold disturb; split <;> simp_all

end Ranking

end CommitLanes
