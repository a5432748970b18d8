import CommitLanes.Proofs.Layout.Contents
import Mathlib.Data.List.TakeDrop
import Mathlib.Data.List.TakeWhile

/-! # The strands of the next row

A row holds the strands that the row above carries and one new strand for each segment that starts
at its revision. The new strands go where a line arrives, but nothing is lost or held twice. -/

namespace CommitLanes

variable {h : History} (palette : Nat)

/-- The strand shows its segment from end to end. -/
def Strand.Shows (h : History) (strand : Strand) : Prop :=
  strand.child = (h.segment strand.segment).child ∧
    strand.parent = (h.segment strand.segment).parent

/-- The strands show the segments, one each. -/
structure ShowsAll (h : History) (starts : List Seg) (strands : List Strand) : Prop where
  segments : strands.map (·.segment) = starts
  shows : ∀ strand ∈ strands, strand.Shows h

namespace ShowsAll

theorem nil : ShowsAll h [] [] := ⟨rfl, fun _ hmem => absurd hmem List.not_mem_nil⟩

theorem cons {starts : List Seg} {strands : List Strand} (rest : ShowsAll h starts strands) (s : Seg)
    (line : Line) : ShowsAll h (s :: starts) (h.strand s line :: strands) where
  segments := congrArg (s :: ·) rest.segments
  shows strand hmem := by
    rcases List.mem_cons.1 hmem with rfl | hmem
    · exact ⟨rfl, rfl⟩
    · exact rest.shows strand hmem

end ShowsAll

theorem openLines_showsAll (left : Option Line) (starts : List Seg) :
    ShowsAll h starts (openLines h palette left starts) := by
  induction starts generalizing left with
  | nil => exact .nil
  | cons s rest ih => exact (ih _).cons s _

private theorem branchLines_showsAll (trunk left : Line) (starts : List Seg) :
    ShowsAll h starts (branchLines h palette trunk left starts) := by
  induction starts generalizing left with
  | nil => exact .nil
  | cons s rest ih => exact (ih _).cons s _

theorem continueLines_showsAll (first : Line) (others : List Line) (starts : List Seg) :
    ShowsAll h starts (continueLines h palette first others starts) := by
  cases starts with
  | nil => exact .nil
  | cons s rest => exact (branchLines_showsAll _ _ _ _).cons s _

/-- The strands that a row gets from the one above. -/
def carriedFrom (above : Option Row) : List Strand := above.elim [] Row.carried

/-- Where lines arrive the new strands stand right of the leftmost of them. -/
theorem strandsBelow_of_arrives {above : Option Row} {r : Rev} {before after : List Strand}
    {trunk : Strand} (hcarried : carriedFrom above = before ++ trunk :: after)
    (hbefore : ∀ strand ∈ before, strand.parent ≠ r) (htrunk : trunk.parent = r) (h : History)
    (palette : Nat) (starts : List Seg) :
    strandsBelow h palette above r starts =
      before ++ trunk ::
        continueLines h palette trunk.line ((after.filter (·.parent = r)).map (·.line)) starts ++
          after := by
  cases above with
  | none => exact absurd hcarried.symm (List.append_ne_nil_of_right_ne_nil _ (List.cons_ne_nil _ _))
  | some row =>
    have hrow : row.carried = before ++ trunk :: after := hcarried
    have hspan : row.carried.span (·.parent ≠ r) = (before, trunk :: after) := by
      rw [hrow, List.span_eq_takeWhile_dropWhile,
        List.takeWhile_append_of_pos (by simpa using hbefore),
        List.dropWhile_append_of_pos (by simpa using hbefore)]
      simp [htrunk]
    simp only [strandsBelow, hspan]

/-- Where no line arrives the new strands open lines at the right end. -/
theorem strandsBelow_of_forall_ne {above : Option Row} {r : Rev}
    (hnone : ∀ strand ∈ carriedFrom above, strand.parent ≠ r) (h : History) (palette : Nat)
    (starts : List Seg) :
    strandsBelow h palette above r starts =
      carriedFrom above ++
        openLines h palette ((carriedFrom above).getLast?.map (·.line)) starts := by
  cases above with
  | none => rfl
  | some row =>
    have hspan : row.carried.span (·.parent ≠ r) = (row.carried, []) := by
      rw [List.span_eq_takeWhile_dropWhile, Prod.mk.injEq, List.takeWhile_eq_self_iff,
        List.dropWhile_eq_nil_iff]
      simpa [carriedFrom] using hnone
    simp only [strandsBelow, hspan]
    rfl

/-- Either some line arrives at the revision, and then the new strands stand right of the leftmost of
those that do, or none does, and they open lines at the right end. -/
theorem strandsBelow_cases (row : Row) (r : Rev) :
    (∃ before first after, row.carried = before ++ first :: after ∧
      (∀ strand ∈ before, strand.parent ≠ r) ∧ first.parent = r ∧
        ∀ (h : History) (palette : Nat) (starts : List Seg),
          strandsBelow h palette (some row) r starts =
            before ++ first ::
              continueLines h palette first.line ((after.filter (·.parent = r)).map (·.line)) starts ++
                after) ∨
      (∀ strand ∈ row.carried, strand.parent ≠ r) ∧
        ∀ (h : History) (palette : Nat) (starts : List Seg),
          strandsBelow h palette (some row) r starts =
            row.carried ++ openLines h palette (row.carried.getLast?.map (·.line)) starts := by
  cases hfind : row.carried.find? (·.parent = r) with
  | none =>
    have hnone : ∀ strand ∈ carriedFrom (some row), strand.parent ≠ r := by
      simpa [carriedFrom] using List.find?_eq_none.1 hfind
    exact .inr ⟨hnone, strandsBelow_of_forall_ne hnone⟩
  | some first =>
    obtain ⟨hfirst, before, after, hsplit, hbefore⟩ := List.find?_eq_some_iff_append.1 hfind
    have harrives := of_decide_eq_true hfirst
    have hnone : ∀ strand ∈ before, strand.parent ≠ r := by simpa using hbefore
    have hcarried : carriedFrom (some row) = before ++ first :: after := hsplit
    exact .inl ⟨before, first, after, hsplit, hnone, harrives,
      strandsBelow_of_arrives hcarried hnone harrives⟩

/-- What the row above carries stays in order, and the new strands stand side by side. -/
theorem strandsBelow_split (h : History) (palette : Nat) (above : Option Row) (r : Rev)
    (starts : List Seg) :
    ∃ before fresh after, ShowsAll h starts fresh ∧ carriedFrom above = before ++ after ∧
      strandsBelow h palette above r starts = before ++ fresh ++ after := by
  cases above with
  | none =>
    refine ⟨[], _, [], openLines_showsAll palette none starts, rfl, ?_⟩
    rw [List.append_nil]
    rfl
  | some row =>
    dsimp only [carriedFrom, Option.elim]
    rcases strandsBelow_cases row r with ⟨before, first, after, hcarried, -, -, heq⟩ | ⟨-, heq⟩
    · refine ⟨before ++ [first], _, after, continueLines_showsAll palette first.line
        ((after.filter (·.parent = r)).map (·.line)) starts, ?_, ?_⟩
      · rw [hcarried, List.append_assoc, List.singleton_append]
      · rw [heq, List.append_assoc before [first], List.singleton_append]
    · refine ⟨row.carried, _, [], openLines_showsAll palette (row.carried.getLast?.map (·.line))
        starts, ?_, ?_⟩
      · rw [List.append_nil]
      · rw [heq, List.append_nil]

theorem strandsBelow_perm (h : History) (palette : Nat) (above : Option Row) (r : Rev)
    (starts : List Seg) :
    ∃ fresh, ShowsAll h starts fresh ∧
      (strandsBelow h palette above r starts).Perm (carriedFrom above ++ fresh) := by
  obtain ⟨before, fresh, after, hfresh, hcarried, heq⟩ := strandsBelow_split h palette above r starts
  refine ⟨fresh, hfresh, ?_⟩
  rw [heq, hcarried, List.append_assoc, List.append_assoc]
  exact List.perm_append_comm.append_left before

namespace Window

theorem sink_perm (w : Window) (s : Seg) (sorted : List Seg) :
    (w.sink s sorted).Perm (s :: sorted) := by
  induction sorted with
  | nil => exact .refl _
  | cons t rest ih =>
    unfold sink
    split
    · exact (ih.cons t).trans (.swap s t rest)
    · exact .refl _

theorem sort_perm (w : Window) (segments : List Seg) : (w.sort segments).Perm segments := by
  -- Segments sink into the list one by one; the comparison has no part in which ones there are.
  have hfold (sorted : List Seg) :
      (segments.foldl (fun sorted s => w.sink s sorted) sorted).Perm (segments ++ sorted) := by
    induction segments generalizing sorted with
    | nil => exact .refl _
    | cons s rest ih =>
      refine (ih _).trans ?_
      exact ((w.sink_perm s sorted).append_left rest).trans List.perm_middle
  refine (List.reverse_perm _).trans ?_
  simpa using hfold []

end Window

theorem Layout.startsAt_perm (h : History) (config : Config) (order : List Rev) (row : Nat)
    (r : Rev) : (startsAt h config order row r).Perm (h.revision r).starts := by
  unfold startsAt
  dsimp only
  split
  · exact Window.sort_perm _ _
  · exact .refl _

end CommitLanes
