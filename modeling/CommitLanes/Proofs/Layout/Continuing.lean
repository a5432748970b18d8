import CommitLanes.Proofs.Layout.Alike
import CommitLanes.Proofs.Layout.Inherit

/-! # Lines that go on

Where lines arrive at a revision one of them goes on below it, as the leftmost of the segments that
start there, and the other segments start lines at their far ends. It makes no difference which parent
the leftmost one leads to. -/

namespace CommitLanes

variable {h : History} {contents : List (Rev × List Strand)} {shown : List Rev} {r : Rev}
  {strands : List Strand}

/-- In the row of `r` below the rows of the revisions `shown` a line that arrives goes on as the
leftmost strand that starts there. -/
structure ContinuesRow (shown : List Rev) (r : Rev) (strands : List Strand) : Prop where
  rooted : Rooted (shown ++ [r]) strands
  leftmost : ∀ first rest, (strands.filter fun strand => strand.child = r) = first :: rest →
    (∃ a ∈ strands, a.parent = r) → ∃ a ∈ strands, a.parent = r ∧ a.line = first.line
  others : ∀ first rest, (strands.filter fun strand => strand.child = r) = first :: rest →
    (∃ a ∈ strands, a.parent = r) → ∀ b ∈ rest, b.line.start = b.parent

/-- What starts where lines arrive goes on with one of them or starts a line at its far end. -/
private theorem continueLines_cons {palette : Nat} {trunk : Line} {arriving : List Line}
    {starts : List Seg} {first : Strand} {rest : List Strand}
    (heq : continueLines h palette trunk arriving starts = first :: rest) :
    first.line ∈ trunk :: arriving ∧ ∀ b ∈ rest, b.line.start = b.parent := by
  cases starts with
  | nil => cases heq
  | cons s starts =>
    obtain ⟨rfl, rfl⟩ := List.cons.inj heq
    refine ⟨oldestLine_mem h trunk arriving, fun b hb => ?_⟩
    have hrooted := rooted_branchLines h [] palette trunk trunk starts b hb
    simpa using hrooted

/-- If no strand arrives there is no line to go on with. -/
private theorem ContinuesRow.of_forall_ne (hrooted : Rooted (shown ++ [r]) strands)
    (hnone : ∀ strand ∈ strands, strand.parent ≠ r) : ContinuesRow shown r strands where
  rooted := hrooted
  leftmost _ _ _ := fun ⟨a, ha, harrives⟩ => absurd harrives (hnone a ha)
  others _ _ _ := fun ⟨a, ha, harrives⟩ => absurd harrives (hnone a ha)

/-- Either lines arrive in the row that is drawn, and what starts there goes on with one of them, or
none does, and what starts there opens lines. -/
theorem filter_strandsBelow (hs : h.Sound) {above : Option Row} {starts : List Seg}
    (passes : Passes h shown (carriedFrom above)) (hnew : r ∉ shown)
    (hstarts : starts.Perm (h.revision r).starts) (palette : Nat) :
    (∃ trunk others,
      ((strandsBelow h palette above r starts).filter fun strand => strand.parent = r) =
        trunk :: others ∧
      ((strandsBelow h palette above r starts).filter fun strand => strand.child = r) =
        continueLines h palette trunk.line (others.map (·.line)) starts) ∨
    (∀ strand ∈ strandsBelow h palette above r starts, strand.parent ≠ r) ∧
      ∃ left, ((strandsBelow h palette above r starts).filter fun strand => strand.child = r) =
        openLines h palette left starts := by
  -- A segment that starts at the revision does not end there.
  have hfresh {fresh : List Strand} (hshows : ShowsAll h starts fresh) :
      ∀ strand ∈ fresh, strand.parent ≠ r := by
    intro strand hmem
    have hruns := hshows.runs hs hstarts hmem
    exact hruns.2.1 ▸ hruns.1.parent_ne
  have hends {part : List Strand} (hpart : ∀ strand ∈ part, strand.parent ≠ r) :
      (part.filter fun strand => strand.parent = r) = [] :=
    List.filter_eq_nil_iff.2 (by simpa using hpart)
  cases above with
  | none =>
    have hshows := openLines_showsAll (h := h) palette none starts
    have hpasses : Passes h shown ([] ++ []) := passes
    obtain ⟨-, hchild⟩ := hpasses.filter_child hs hnew hshows hstarts
    rw [List.append_nil, List.nil_append] at hchild
    exact .inr ⟨hfresh hshows, none, hchild⟩
  | some row =>
    rcases strandsBelow_cases row r with
      ⟨before, trunk, after, hcarried, hbefore, htrunk, heq⟩ | ⟨hnone, heq⟩
    · have hshows := continueLines_showsAll (h := h) palette trunk.line
        ((after.filter (·.parent = r)).map (·.line)) starts
      have hpasses : Passes h shown ((before ++ [trunk]) ++ after) := by
        have hcarries := passes
        simp only [carriedFrom, Option.elim, hcarried] at hcarries
        simpa using hcarries
      obtain ⟨-, hchild⟩ := hpasses.filter_child hs hnew hshows hstarts
      refine .inl ⟨trunk, after.filter (·.parent = r), ?_, ?_⟩
      · rw [heq, List.filter_append, List.filter_append, List.filter_cons_of_pos (by simpa),
          hends hbefore, hends (hfresh hshows), List.nil_append, List.singleton_append]
      · refine Eq.trans ?_ hchild
        rw [heq, List.append_assoc before [trunk], List.singleton_append]
    · have hshows := openLines_showsAll (h := h) palette (row.carried.getLast?.map (·.line)) starts
      have hpasses : Passes h shown (row.carried ++ []) := by
        rw [List.append_nil]
        exact passes
      obtain ⟨-, hchild⟩ := hpasses.filter_child hs hnew hshows hstarts
      rw [List.append_nil, ← heq] at hchild
      refine .inr ⟨?_, _, hchild⟩
      rw [heq]
      intro strand hmem
      rcases List.mem_append.1 hmem with hmem | hmem
      · exact hnone strand hmem
      · exact hfresh hshows strand hmem

theorem continuesRow_strandsBelow (hs : h.Sound) {above : Option Row} {starts : List Seg}
    (passes : Passes h shown (carriedFrom above)) (hrooted : Rooted shown (carriedFrom above))
    (hnew : r ∉ shown) (hstarts : starts.Perm (h.revision r).starts) (palette : Nat) :
    ContinuesRow shown r (strandsBelow h palette above r starts) := by
  have hchild : ∀ s ∈ starts, (h.segment s).child = r := fun s hmem =>
    (hs.wellLinked.segment_of_mem_starts (hstarts.mem_iff.1 hmem)).1
  have hbelow := rooted_strandsBelow hrooted hchild palette
  rcases filter_strandsBelow hs passes hnew hstarts palette with
    ⟨trunk, others, harriving, hstarting⟩ | ⟨hnone, -⟩
  · refine ⟨hbelow, fun first rest hfirst _ => ?_, fun first rest hfirst _ => ?_⟩
    · rw [hstarting] at hfirst
      have hline : first.line ∈ (trunk :: others).map (·.line) := (continueLines_cons hfirst).1
      rw [← harriving] at hline
      obtain ⟨a, ha, hline⟩ := List.mem_map.1 hline
      obtain ⟨hmem, harrives⟩ := List.mem_filter.1 ha
      exact ⟨a, hmem, of_decide_eq_true harrives, hline⟩
    · rw [hstarting] at hfirst
      exact (continueLines_cons hfirst).2
  · exact .of_forall_ne hbelow hnone

/-- The leftmost strand is the only one that goes on with a line that arrives: lines that arrive start
no further down than here, and those of the other strands do. -/
theorem ContinuesRow.exists_line_iff {carried : List Strand} (row : ContinuesRow shown r strands)
    (threads : ThreadsRow h shown carried r strands) (harrives : ∃ a ∈ strands, a.parent = r)
    {b : Strand} (hb : b ∈ strands) (hchild : b.child = r) :
    (∃ a ∈ strands, a.parent = r ∧ a.line = b.line) ↔
      (strands.filter fun strand => strand.child = r).head? = some b := by
  have hmem : b ∈ strands.filter fun strand => strand.child = r :=
    List.mem_filter.2 ⟨hb, decide_eq_true hchild⟩
  cases hstarts : strands.filter fun strand => strand.child = r with
  | nil => simp [hstarts] at hmem
  | cons first rest =>
    rw [List.head?_cons, Option.some.injEq]
    constructor
    · rintro ⟨a, ha, hparent, hline⟩
      rcases List.mem_cons.1 (hstarts ▸ hmem) with heq | hrest
      · exact heq.symm
      · have hstart : a.line.start = b.parent :=
          (congrArg (·.start) hline).trans (row.others first rest hstarts harrives b hrest)
        have hnotMem := threads.parent_notMem b hb
        have hne : b.parent ≠ r := hchild ▸ (threads.runs b hb).parent_ne
        rcases row.rooted a ha with hshown | hend
        · rw [hstart] at hshown
          simp [hnotMem, hne] at hshown
        · exact absurd (hstart.symm.trans (hend.trans hparent)) hne
    · rintro rfl
      exact row.leftmost first rest hstarts harrives

/-! ## From row to row -/

/-- All rows go on with lines that arrive. -/
def Continues (contents : List (Rev × List Strand)) : Prop :=
  Each (fun above x => ContinuesRow (above.map Prod.fst) x.1 x.2) contents

/-- The lines that are passed on start in the rows. -/
private theorem Continues.rooted (continues : Continues contents) :
    Rooted (contents.map Prod.fst) (carriedBelow contents) := by
  rcases List.eq_nil_or_concat contents with rfl | ⟨above, ⟨r, strands⟩, rfl⟩
  · exact fun _ hmem => absurd hmem List.not_mem_nil
  · rw [List.concat_eq_append] at continues ⊢
    have hrow := (continues above (r, strands) [] rfl).rooted
    intro strand hmem
    have hmem' : strand ∈ strands := by
      simp only [carriedBelow, List.getLast?_append, List.getLast?_singleton] at hmem
      exact (List.mem_filter.1 hmem).1
    simpa using hrow strand hmem'

namespace Layout

theorem continues_drawRow {config : Config} {order : List Rev} {rows : Layout} (hs : h.Sound)
    (threads : Threads h rows.contents) (hnew : r ∉ rows.revisions)
    (continues : Continues rows.contents) :
    Continues (rows.drawRow h config order r).contents := by
  have hpasses := threads.passes
  have hrooted := continues.rooted
  rw [← carriedFrom_back?] at hpasses hrooted
  rw [← fst_contents] at hnew
  rw [contents_drawRow]
  apply continues.concat
  exact continuesRow_strandsBelow hs hpasses hrooted hnew (startsAt_perm _ _ _ _ _) _

end Layout

end CommitLanes
