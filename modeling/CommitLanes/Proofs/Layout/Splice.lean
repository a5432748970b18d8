import CommitLanes.Proofs.Layout.Colors
import Mathlib.Data.List.MinMax

/-! # Lines that are put in

New strands stand side by side in a row, next to the leftmost line that arrives or else at the right
end. Next to a line that arrives the first of them continues the line that starts furthest up, and the
others are told apart from the one they stand next to. At the right end all are told apart from the
strand to their left. -/

namespace CommitLanes

/-- The oldest line is that of a strand whose line starts furthest up, of equal ones the leftmost. -/
private theorem exists_mem_argmin_oldestLine (h : History) (trunk : Strand) (others : List Strand) :
    ∃ oldest ∈ (trunk :: others).argmin fun strand => strand.line.startScore h,
      oldestLine h trunk.line (others.map (·.line)) = oldest.line := by
  induction others using List.reverseRecOn with
  | nil => exact ⟨trunk, rfl, rfl⟩
  | append_singleton others strand ih =>
    obtain ⟨oldest, holdest, hline⟩ := ih
    have hstep : oldestLine h trunk.line ((others ++ [strand]).map (·.line)) =
        if strand.line.startScore h < oldest.line.startScore h then strand.line
        else oldest.line := by
      rw [List.map_append, ← hline]
      exact List.foldl_append
    rw [← List.cons_append, List.argmin_concat, Option.mem_def.1 holdest, hstep]
    dsimp only
    split
    · exact ⟨strand, rfl, rfl⟩
    · exact ⟨oldest, rfl, rfl⟩

/-- A row holds the strands that go on below the row above, as they were and in order, and one block of
new strands, which show the segments that start at its revision in order. Where lines arrive the block
stands right of the leftmost of them: its first strand has the line that starts furthest up of those
that arrive, of equal ones the leftmost, and the others differ in color from the line they stand next
to. Where none arrives the block stands at the right end, and each of its strands differs in color from
the strand to its left. -/
theorem splice_strandsBelow (h : History) {palette : Nat} (hpalette : 3 ≤ palette)
    (above : Option Row) (r : Rev) (starts : List Seg) :
    let carried := carriedFrom above
    let strands := strandsBelow h palette above r starts
    (∀ before trunk after, carried = before ++ trunk :: after →
      (∀ strand ∈ before, strand.parent ≠ r) → trunk.parent = r →
      ∃ fresh, ShowsAll h starts fresh ∧ strands = before ++ trunk :: fresh ++ after ∧
        ∀ first rest, fresh = first :: rest →
          (∃ oldest ∈ (carried.filter (·.parent = r)).argmin fun strand => strand.line.startScore h,
            first.line = oldest.line) ∧
          ∀ branch ∈ rest, branch.line.color ≠ trunk.line.color) ∧
    ((∀ strand ∈ carried, strand.parent ≠ r) →
      ∃ fresh, ShowsAll h starts fresh ∧ strands = carried ++ fresh ∧
        (colors (carried.getLast?.toList ++ fresh)).IsChain (· ≠ ·)) := by
  intro carried strands
  constructor
  · intro before trunk after hcarried hbefore htrunk
    have harriving : carried.filter (·.parent = r) = trunk :: after.filter (·.parent = r) := by
      rw [hcarried, List.filter_append, List.filter_cons_of_pos (by simpa),
        List.filter_eq_nil_iff.2 (by simpa using hbefore), List.nil_append]
    refine ⟨_, continueLines_showsAll palette trunk.line
      ((after.filter (·.parent = r)).map (·.line)) starts,
      strandsBelow_of_arrives hcarried hbefore htrunk h palette starts, fun first rest hfresh => ?_⟩
    cases starts with
    | nil => cases hfresh
    | cons s starts =>
      obtain ⟨rfl, rfl⟩ := List.cons.inj hfresh
      rw [harriving]
      refine ⟨exists_mem_argmin_oldestLine h trunk _, fun branch hmem heq => ?_⟩
      have hfree := color_notMem_branchLines (h := h) hpalette trunk.line trunk.line starts
      exact hfree (heq ▸ List.mem_map_of_mem hmem)
  · intro hnone
    refine ⟨_, openLines_showsAll palette (carried.getLast?.map (·.line)) starts,
      strandsBelow_of_forall_ne hnone h palette starts, ?_⟩
    cases carried.getLast? with
    | none => exact isChain_colors_openLines hpalette none starts
    | some last => exact isChain_openLines hpalette last.line starts

/-- Two lines lead to a merge of two parents, and the one that starts further up was named later. -/
def convergingArrivals : List History.Arrival := [
  { id := .repeated 1, parents := [.repeated 2] },
  { id := .repeated 2, parents := [.repeated 3, .repeated 4] },
  { id := .repeated 5, parents := [.repeated 4] },
  { id := .repeated 4, parents := [.repeated 6, .repeated 9] }]

/-- The row above the merge: a line passes it, and the two others arrive below it. -/
def convergingRow : Row where
  revision := 4
  drawn := [⟨⟨1, 1, 2, ⟨3, 0⟩⟩, 0, .primary⟩, ⟨⟨2, 1, 3, ⟨4, 3⟩⟩, 1, .primary⟩,
    ⟨⟨3, 4, 3, ⟨1, 4⟩⟩, 2, .primary⟩]
  revisionLane := 2

theorem splice_strandsBelow_convergingRow :
    3 ≤ 8 ∧ ∃ passing left right first second,
      carriedFrom (some convergingRow) = [passing, left, right] ∧
      strandsBelow (History.addAll {} convergingArrivals) 8 (some convergingRow) 3 [4, 5] =
        [passing, left, first, second, right] ∧
      first.line = right.line ∧ second.line.color ≠ left.line.color := by
  have hpalette : 3 ≤ 8 := by decide
  obtain ⟨harrives, -⟩ := splice_strandsBelow (History.addAll {} convergingArrivals) hpalette
    (some convergingRow) 3 [4, 5]
  obtain ⟨fresh, hshows, heq, hfirst⟩ := harrives [_] _ [_] rfl (by decide) rfl
  have hlength : fresh.length = 2 := by simpa using congrArg List.length hshows.segments
  obtain ⟨first, second, rfl⟩ := List.length_eq_two.1 hlength
  obtain ⟨⟨oldest, holdest, hline⟩, hbranch⟩ := hfirst first [second] rfl
  -- Of the two lines that arrive the right one starts further up.
  have hright : oldest = ⟨3, 4, 3, ⟨1, 4⟩⟩ := by
    refine Option.some.inj (holdest.symm.trans ?_)
    decide +kernel
  exact ⟨hpalette, _, _, _, first, second, rfl, heq, hline.trans (congrArg _ hright),
    hbranch second List.mem_cons_self⟩

end CommitLanes
