import CommitLanes.Proofs.Layout.Continuing
import CommitLanes.Proofs.Line

/-! # Colors side by side

The segments that start in a row are kept apart by their colors, each from the one to its left. Where
lines arrive all but the leftmost are kept apart from the leftmost line that arrives, whichever line it
is that goes on. -/

namespace CommitLanes

variable {h : History} {palette : Nat}

/-- The colors of strands from left to right. -/
def colors (strands : List Strand) : List Nat := strands.map fun strand => strand.line.color

theorem colors_cons (strand : Strand) (rest : List Strand) :
    colors (strand :: rest) = strand.line.color :: colors rest := rfl

section Palette

variable (hpalette : 3 ≤ palette)
include hpalette

theorem isChain_openLines (left : Line) (starts : List Seg) :
    (left.color :: colors (openLines h palette (some left) starts)).IsChain (· ≠ ·) := by
  induction starts generalizing left with
  | nil => exact .singleton _
  | cons s rest ih =>
    exact List.isChain_cons_cons.2 ⟨(Line.color_opening_ne hpalette _ left).symm, ih _⟩

theorem isChain_colors_openLines (left : Option Line) (starts : List Seg) :
    (colors (openLines h palette left starts)).IsChain (· ≠ ·) := by
  cases starts with
  | nil => exact .nil
  | cons s rest => exact isChain_openLines hpalette _ rest

theorem isChain_branchLines (trunk left : Line) (starts : List Seg) :
    (left.color :: colors (branchLines h palette trunk left starts)).IsChain (· ≠ ·) := by
  induction starts generalizing left with
  | nil => exact .singleton _
  | cons s rest ih =>
    have hnew := Line.color_branching_ne (h := h) hpalette (h.segment s) trunk left
    exact List.isChain_cons_cons.2 ⟨hnew.2.symm, ih _⟩

theorem color_notMem_branchLines (trunk left : Line) (starts : List Seg) :
    trunk.color ∉ colors (branchLines h palette trunk left starts) := by
  induction starts generalizing left with
  | nil => exact List.not_mem_nil
  | cons s rest ih =>
    have hnew := Line.color_branching_ne (h := h) hpalette (h.segment s) trunk left
    exact List.not_mem_cons_of_ne_of_not_mem hnew.1.symm (ih _)

end Palette

/-! ## In a row -/

/-- The strands of a row that end at its revision. -/
def Row.arriving (row : Row) : List Strand :=
  row.strands.filter fun strand => strand.parent = row.revision

/-- The strands of a row that start at its revision. -/
def Row.starting (row : Row) : List Strand :=
  row.strands.filter fun strand => strand.child = row.revision

/-- The colors of the strands that start at `r`: each differs from the one to its left, but where lines
arrive the leftmost of these stands in for the leftmost strand. -/
structure ColorsRow (r : Rev) (strands : List Strand) : Prop where
  opens : (∀ strand ∈ strands, strand.parent ≠ r) →
    (colors (strands.filter fun strand => strand.child = r)).IsChain (· ≠ ·)
  branches : ∀ trunk others first rest,
    (strands.filter fun strand => strand.parent = r) = trunk :: others →
    (strands.filter fun strand => strand.child = r) = first :: rest →
    (trunk.line.color :: colors rest).IsChain (· ≠ ·) ∧ trunk.line.color ∉ colors rest

theorem colorsRow_strandsBelow (hpalette : 3 ≤ palette) (hs : h.Sound) {above : Option Row} {r : Rev}
    {shown : List Rev} {starts : List Seg} (passes : Passes h shown (carriedFrom above))
    (hnew : r ∉ shown) (hstarts : starts.Perm (h.revision r).starts) :
    ColorsRow r (strandsBelow h palette above r starts) := by
  rcases filter_strandsBelow hs passes hnew hstarts palette with
    ⟨trunk, others, harriving, hstarting⟩ | ⟨hnone, left, hstarting⟩
  · have hmem := List.mem_filter.1 (harriving ▸ List.mem_cons_self : trunk ∈ _)
    refine ⟨fun hall => absurd (of_decide_eq_true hmem.2) (hall trunk hmem.1), ?_⟩
    rintro trunk' others' first rest harriving' hstarting'
    obtain ⟨rfl, rfl⟩ := List.cons.inj (harriving.symm.trans harriving')
    rw [hstarting] at hstarting'
    cases starts with
    | nil => cases hstarting'
    | cons s starts =>
      obtain ⟨-, rfl⟩ := List.cons.inj hstarting'
      exact ⟨isChain_branchLines hpalette trunk.line trunk.line starts,
        color_notMem_branchLines hpalette trunk.line trunk.line starts⟩
  · refine ⟨fun _ => hstarting ▸ isChain_colors_openLines hpalette left starts, ?_⟩
    intro trunk others first rest harriving
    have hmem := List.mem_filter.1 (harriving ▸ List.mem_cons_self : trunk ∈ _)
    exact absurd (of_decide_eq_true hmem.2) (hnone trunk hmem.1)

namespace Layout

theorem colorsRow_drawRow {config : Config} {order : List Rev} {rows : Layout} {r : Rev}
    (hpalette : 3 ≤ config.palette) (hs : h.Sound) (threads : Threads h rows.contents)
    (hnew : r ∉ rows.revisions) (hcolors : ∀ x ∈ rows.contents, ColorsRow x.1 x.2) :
    ∀ x ∈ (rows.drawRow h config order r).contents, ColorsRow x.1 x.2 := by
  have hpasses := threads.passes
  rw [← carriedFrom_back?] at hpasses
  rw [← fst_contents] at hnew
  rw [contents_drawRow]
  intro x hx
  rcases List.mem_append.1 hx with hx | hx
  · exact hcolors x hx
  · rw [List.mem_singleton.1 hx]
    exact colorsRow_strandsBelow hpalette hs hpasses hnew (startsAt_perm _ _ _ _ _)

end Layout

end CommitLanes
