import CommitLanes.Proofs.Layout.Below
import Mathlib.Data.List.Chain
import Mathlib.Data.List.Induction

/-! # Segments in order

The comparison of segments is not transitive: a segment to an ancestor of another one's parent goes to
its left whatever else stands between them. So no order has all pairs right, and what the sort gives is
less. Two segments that stand side by side are right, and two segments change sides only if they were
wrong. The parents outside of the window are told from all others by the comparison alone, and segments
to them do come last. -/

namespace CommitLanes.Window

variable {w : Window} {s t : Seg} {sorted : List Seg}

/-! ## The comparison -/

private theorem compareKeys_swap (w : Window) (a b : Rev) :
    (w.compareKeys a b).swap = w.compareKeys b a := by
  unfold compareKeys
  rw [Ordering.swap_then, Ordering.swap_then, ← Std.OrientedCmp.eq_swap, ← Std.OrientedCmp.eq_swap,
    ← Std.OrientedCmp.eq_swap]

/-- Compared the other way round, parents come out the other way round. The search for an ancestor is
made from the nearer one of two parents, and so in one direction only. -/
private theorem compareParents_swap (w : Window) (a b : Rev) :
    (w.compareParents a b).swap = w.compareParents b a := by
  unfold compareParents
  cases ha : w.offset? a with
  | none =>
    rw [w.compareKeys_swap]
    cases w.offset? b <;> rfl
  | some i =>
    cases hb : w.offset? b with
    | none => exact w.compareKeys_swap a b
    | some j =>
      dsimp only
      rcases lt_trichotomy i j with hlt | rfl | hlt
      · simp only [hlt, hlt.not_gt, false_and, if_false, true_and]
        split
        · rfl
        · exact w.compareKeys_swap a b
      · simp only [lt_irrefl, false_and, if_false]
        exact w.compareKeys_swap a b
      · simp only [hlt, hlt.not_gt, false_and, if_false, true_and]
        split
        · rfl
        · exact w.compareKeys_swap a b

private theorem not_swaps_of_swaps (hswaps : w.swaps s t) : ¬ w.swaps t s := by
  unfold swaps at *
  rw [decide_eq_true_eq] at *
  rw [← compareParents_swap, hswaps]
  exact nofun

/-- The parent of a segment is in the window. -/
def Reaches (w : Window) (s : Seg) : Prop := (w.offset? (w.history.segment s).parent).isSome

/-- Of two segments only one of which leads into the window the other one stands to the right. -/
private theorem swaps_iff_reaches (hone : ¬ (w.Reaches s ↔ w.Reaches t)) :
    w.swaps s t ↔ w.Reaches t := by
  unfold Reaches swaps compareParents compareKeys at *
  cases hs : w.offset? (w.history.segment s).parent with
  | none =>
    cases ht : w.offset? (w.history.segment t).parent with
    | none => simp [hs, ht] at hone
    | some j => simp [Ordering.then, compare]
  | some i =>
    cases ht : w.offset? (w.history.segment t).parent with
    | none => simp [Ordering.then, compare]
    | some j => simp [hs, ht] at hone

/-! ## One segment more

Lists are kept from right to left here. -/

/-- At the right end is the new segment, or the one that was there before. -/
private theorem mem_head?_sink (hmem : t ∈ (w.sink s sorted).head?) : t = s ∨ t ∈ sorted.head? := by
  cases sorted with
  | nil => exact .inl (Option.some.inj hmem).symm
  | cons first rest =>
    unfold sink at hmem
    split at hmem
    · exact .inr hmem
    · exact .inl (Option.some.inj hmem).symm

private theorem sink_isChain (chain : sorted.IsChain fun right left => ¬ w.swaps left right) :
    (w.sink s sorted).IsChain fun right left => ¬ w.swaps left right := by
  induction sorted with
  | nil => exact .singleton s
  | cons t rest ih =>
    obtain ⟨hhead, hrest⟩ := List.isChain_cons.1 chain
    unfold sink
    split
    · next hswaps =>
      refine List.isChain_cons.2 ⟨fun left hleft => ?_, ih hrest⟩
      rcases mem_head?_sink hleft with rfl | hleft
      · exact not_swaps_of_swaps hswaps
      · exact hhead left hleft
    · next hstays => exact .cons_cons hstays chain

/-- Only a segment that leads into the window passes those that do not, and it passes all of them. -/
private theorem sink_pairwise
    (pairwise : sorted.Pairwise fun right left => w.Reaches right → w.Reaches left) :
    (w.sink s sorted).Pairwise fun right left => w.Reaches right → w.Reaches left := by
  induction sorted with
  | nil => exact List.pairwise_singleton _ s
  | cons t rest ih =>
    obtain ⟨hhead, hrest⟩ := List.pairwise_cons.1 pairwise
    unfold sink
    split
    · next hswaps =>
      refine List.pairwise_cons.2 ⟨fun left hleft hreaches => ?_, ih hrest⟩
      rcases List.mem_cons.1 ((w.sink_perm s rest).mem_iff.1 hleft) with rfl | hleft
      · by_contra hnot
        exact hnot ((swaps_iff_reaches fun hiff => hnot (hiff.1 hreaches)).1 hswaps)
      · exact hhead left hleft hreaches
    · next hstays =>
      refine List.pairwise_cons.2 ⟨fun left hleft hreaches => ?_, pairwise⟩
      have ht : w.Reaches t := by
        by_contra hnot
        exact hstays ((swaps_iff_reaches fun hiff => hnot (hiff.2 hreaches)).2 hreaches)
      rcases List.mem_cons.1 hleft with rfl | hleft
      · exact ht
      · exact hhead left hleft ht

/-- A segment, listed at a place, may stand to the left of another one: it was listed before, or the two
had to change sides. -/
def StandsLeft (w : Window) (a b : Seg × Nat) : Prop :=
  a.2 < b.2 ∨ (b.2 < a.2 ∧ w.swaps b.1 a.1)

private theorem exists_sink {placed : List (Seg × Nat)} {place : Nat}
    (hlast : ∀ a ∈ placed, a.2 < place)
    (pairwise : placed.Pairwise fun right left => w.StandsLeft left right) :
    ∃ sunk : List (Seg × Nat), sunk.Perm ((s, place) :: placed) ∧
      sunk.map Prod.fst = w.sink s (placed.map Prod.fst) ∧
      sunk.Pairwise fun right left => w.StandsLeft left right := by
  induction placed with
  | nil => exact ⟨[(s, place)], .refl _, rfl, List.pairwise_singleton _ _⟩
  | cons t rest ih =>
    obtain ⟨hhead, hrest⟩ := List.pairwise_cons.1 pairwise
    rw [List.map_cons, sink]
    split
    · next hswaps =>
      obtain ⟨sunk, hperm, hmap, hsunk⟩ := ih (fun a ha => hlast a (List.mem_cons_of_mem t ha)) hrest
      refine ⟨t :: sunk, (hperm.cons t).trans (.swap _ t rest), congrArg (t.1 :: ·) hmap,
        List.pairwise_cons.2 ⟨fun left hleft => ?_, hsunk⟩⟩
      rcases List.mem_cons.1 (hperm.mem_iff.1 hleft) with rfl | hleft
      · exact .inr ⟨hlast t List.mem_cons_self, hswaps⟩
      · exact hhead left hleft
    · exact ⟨(s, place) :: t :: rest, .refl _, rfl,
        List.pairwise_cons.2 ⟨fun left hleft => .inl (hlast left hleft), pairwise⟩⟩

/-! ## All segments -/

/-- The last segment is taken in after all others are sorted. -/
private theorem sort_concat (w : Window) (segments : List Seg) (s : Seg) :
    w.sort (segments ++ [s]) = (w.sink s (w.sort segments).reverse).reverse := by
  simp [sort]

private theorem sort_isChain (w : Window) (segments : List Seg) :
    (w.sort segments).IsChain fun left right => ¬ w.swaps left right := by
  rw [← List.reverse_reverse (w.sort segments), List.isChain_reverse]
  induction segments using List.reverseRecOn with
  | nil => exact .nil
  | append_singleton segments s ih =>
    rw [sort_concat, List.reverse_reverse]
    exact sink_isChain ih

private theorem sort_pairwise (w : Window) (segments : List Seg) :
    (w.sort segments).Pairwise fun left right => w.Reaches right → w.Reaches left := by
  rw [← List.reverse_reverse (w.sort segments), List.pairwise_reverse]
  induction segments using List.reverseRecOn with
  | nil => exact .nil
  | append_singleton segments s ih =>
    rw [sort_concat, List.reverse_reverse]
    exact sink_pairwise ih

private theorem exists_sort (w : Window) (segments : List Seg) :
    ∃ placed : List (Seg × Nat), placed.Perm segments.zipIdx ∧
      placed.map Prod.fst = w.sort segments ∧ placed.Pairwise w.StandsLeft := by
  suffices hreverse : ∃ placed : List (Seg × Nat), placed.Perm segments.zipIdx ∧
      placed.map Prod.fst = (w.sort segments).reverse ∧
      placed.Pairwise fun right left => w.StandsLeft left right by
    obtain ⟨placed, hperm, hmap, hpairwise⟩ := hreverse
    refine ⟨placed.reverse, (List.reverse_perm placed).trans hperm, ?_, List.pairwise_reverse.2 hpairwise⟩
    rw [List.map_reverse, hmap, List.reverse_reverse]
  induction segments using List.reverseRecOn with
  | nil => exact ⟨[], .refl _, rfl, .nil⟩
  | append_singleton segments s ih =>
    obtain ⟨placed, hperm, hmap, hpairwise⟩ := ih
    have hlast : ∀ a ∈ placed, a.2 < segments.length := fun a ha =>
      List.snd_lt_of_mem_zipIdx (hperm.mem_iff.1 ha)
    obtain ⟨sunk, hsunk, hmap', hpairwise'⟩ := exists_sink (s := s) hlast hpairwise
    refine ⟨sunk, ?_, ?_, hpairwise'⟩
    · rw [List.zipIdx_append, List.zipIdx_singleton, Nat.zero_add]
      exact (hsunk.trans (hperm.cons _)).trans (List.perm_append_singleton _ _).symm
    · rw [sort_concat, List.reverse_reverse, hmap', hmap]

/-- Sorting gives the same segments in an order in which no segment has to change sides with the next
one. Those that changed sides, each with the place at which it was listed, had to. All segments to
parents in the window stand to the left of all others. -/
theorem sort_settles (h : History) (order : List Rev) (row lookAhead : Nat) (segments : List Seg) :
    let w := ofRow h order row lookAhead
    (w.sort segments).Perm segments ∧
      ((w.sort segments).IsChain fun left right =>
        w.compareParents (h.segment left).parent (h.segment right).parent ≠ .gt) ∧
      (∃ placed : List (Seg × Nat), placed.Perm segments.zipIdx ∧
        placed.map Prod.fst = w.sort segments ∧
        placed.Pairwise fun left right => left.2 < right.2 ∨ (right.2 < left.2 ∧
          w.compareParents (h.segment right.1).parent (h.segment left.1).parent = .gt)) ∧
      (w.sort segments).Pairwise fun left right =>
        (w.offset? (h.segment right).parent).isSome → (w.offset? (h.segment left).parent).isSome := by
  intro w
  refine ⟨w.sort_perm segments, ?_, ?_, w.sort_pairwise segments⟩
  · exact (w.sort_isChain segments).imp fun _ _ hstays hgt => hstays (decide_eq_true hgt)
  · obtain ⟨placed, hperm, hmap, hpairwise⟩ := w.exists_sort segments
    refine ⟨placed, hperm, hmap, hpairwise.imp fun hleft => ?_⟩
    exact hleft.imp_right (And.imp_right of_decide_eq_true)

end CommitLanes.Window
