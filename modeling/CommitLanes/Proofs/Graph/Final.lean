import CommitLanes.Proofs.Graph.Publish
import CommitLanes.Proofs.Layout.Margin

/-! # Rows that are final

A graph counts as final the rows that no sweep will reach any more. They stay as they are whatever is
asked for and whatever commits still come, as long as these do not get in among the rows that are
published. That takes a look-ahead that is not too large: one that wraps around withholds too few
rows. -/

namespace CommitLanes

instance (h : History) (call : Call) : Decidable (call.Publishes h) :=
  match call with
  | .insert id _ _ => inferInstanceAs (Decidable (h.find? id ≠ none))
  | .cache .. => .isTrue trivial
  | .add .. | .setHead _ | .complete | .clear | .ordered _ | .rowOf _ | .highlight _ =>
    .isFalse id

namespace Graph

open Layout (SameAbove)

variable {g g' g'' : Graph}

/-- Nothing is forgotten, no commit comes after all have been added, and whenever rows are published
those that were published before still show the revisions that the order puts there. -/
def Settles : Graph → List Call → Prop
  | _, [] => True
  | g, call :: rest =>
    call ≠ .clear ∧ (call.id? ≠ none → g.completed = false) ∧
      (call.Publishes g.history → g.layout.revisions <+: (g.perform call).order) ∧
      (g.perform call).Settles rest

instance decidableSettles : ∀ g calls, Decidable (Settles g calls)
  | _, [] => .isTrue trivial
  | g, call :: rest =>
    @instDecidableAnd _ _ _ (@instDecidableAnd _ _ _ (@instDecidableAnd _ _ _
      (decidableSettles (g.perform call) rest)))

/-! ## From graph to graph -/

/-- What is final in the first graph is final in the second one and the same there. -/
structure Secures (g g' : Graph) : Prop where
  cachedCount_le : g.cachedCount ≤ g'.cachedCount
  same : SameAbove g.cachedCount g.layout g'.layout

namespace Secures

theorem refl (g : Graph) : Secures g g := ⟨le_rfl, .refl _ _⟩

theorem trans (first : Secures g g') (second : Secures g' g'') : Secures g g'' where
  cachedCount_le := first.cachedCount_le.trans second.cachedCount_le
  same := first.same.trans (second.same.mono first.cachedCount_le)

end Secures

section Fits

variable (hfits : g.config.fullLookAhead < UInt64.size)
include hfits

end Fits

end Graph

end CommitLanes
