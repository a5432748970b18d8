import CommitLanes.Proofs.Layout.Span

/-! # Rows that look alike

Rows that were drawn by an earlier history still look right where they show all children of the
revisions in them. A commit that has come since is not among these children, and so neither a score
that it raised nor a segment that it brought can make a difference to them. -/

namespace CommitLanes

open History (Still)

variable {h h' : History} {rs shown : List Rev} {r : Rev} {config : Config} {rows : Layout}

/-! ## Histories by which rows look alike -/

/-- A segment is drawn alike by both histories. -/
structure SameSegment (h h' : History) (s : Seg) : Prop where
  segment : h'.segment s = h.segment s
  child : (h'.revision (h.segment s).child).id = (h.revision (h.segment s).child).id
  parent : (h'.revision (h.segment s).parent).id = (h.revision (h.segment s).parent).id

/-- Rows of these revisions are drawn alike by both histories. -/
structure Alike (h h' : History) (rs : List Rev) : Prop where
  starts : ∀ r ∈ rs, (h'.revision r).starts = (h.revision r).starts
  segments : ∀ r ∈ rs, ∀ s ∈ (h.revision r).starts, SameSegment h h' s
  score_lt : ∀ a ∈ rs, ∀ b ∈ rs, h'.score a < h'.score b ↔ h.score a < h.score b

/-- With a revision its children are listed. -/
def ChildClosed (h : History) (rs : List Rev) : Prop := ∀ c p, h.IsParent c p → p ∈ rs → c ∈ rs

private theorem ChildClosed.mem_of_isAncestor (hclosed : ChildClosed h rs) {c a : Rev}
    (hancestor : h.IsAncestor c a) (ha : a ∈ rs) : c ∈ rs := by
  induction hancestor with
  | single hp => exact hclosed _ _ hp ha
  | tail _ hp ih => exact ih (hclosed _ _ hp ha)

/-- A part of the row order from the top. -/
theorem History.Sound.childClosed (hs : h.Sound) (hpart : rs <+: h.sorted) : ChildClosed h rs := by
  intro c p hp hmem
  obtain ⟨more, hmore⟩ := hpart
  have hc : c ∈ h.sorted := by
    rw [History.mem_sorted, hs.wellLinked.mem_arrived]
    exact hs.settled c p hp
  rw [← hmore] at hc
  rcases List.mem_append.1 hc with hc | hbelow
  · exact hc
  · have hpairwise := History.sorted_pairwise hs.wellLinked.arrived_nodup
    rw [← hmore] at hpairwise
    have hle := ((List.pairwise_append.1 hpairwise).2.2 p hmem c hbelow).score_le
    exact absurd (hs.ordered c p hp) (not_lt.2 hle)

/-- A part of the rows from the top. -/
private theorem Alike.of_append {more : List Rev} (alike : Alike h h' (rs ++ more)) :
    Alike h h' rs where
  starts r hr := alike.starts r (List.mem_append_left more hr)
  segments r hr := alike.segments r (List.mem_append_left more hr)
  score_lt a ha b hb :=
    alike.score_lt a (List.mem_append_left more ha) b (List.mem_append_left more hb)

theorem Alike.of_still (still : Still h h') (rs : List Rev) : Alike h h' rs where
  starts r _ := still.toSameLinks.starts r
  segments r _ s _ :=
    ⟨still.toSameLinks.segment s, still.toSameLinks.id _, still.toSameLinks.id _⟩
  score_lt a _ b _ := by rw [still.score, still.score]

/-- A commit that comes makes no difference to rows of other commits that show all of their
children: it can only have raised scores of its own ancestors out of line, and these are all
further down. -/
theorem Alike.of_arrived {name : CommitId} {child : Rev} (hs : h.Sound)
    (harrived : History.Arrived name child h h') (hnew : (h.revision child).completed = false)
    (hrs : ∀ r ∈ rs, (h.revision r).completed = true) (hclosed : ChildClosed h' rs) :
    Alike h h' rs := by
  have hw := hs.wellLinked
  have hne : ∀ r ∈ rs, r ≠ child := fun r hr => History.ne_of_completed (hrs r hr) hnew
  have hlt : ∀ r ∈ rs, r < h.revisions.size :=
    fun r hr => hw.completed_lt ((hw.mem_arrived r).2 (hrs r hr))
  -- None of them is an ancestor of the commit, which would then be listed as well.
  obtain ⟨f, hf, hmoved⟩ := harrived.moved
  have hscore : ∀ r ∈ rs, h'.score r = f (h.score r) := by
    intro r hr
    apply hmoved r (hlt r hr) (hne r hr)
    intro hancestor
    exact hne child (hclosed.mem_of_isAncestor hancestor hr) rfl
  refine ⟨fun r hr => harrived.starts r (hne r hr), fun r hr s hmem => ?_, fun a ha b hb => ?_⟩
  · obtain ⟨heq, hparent⟩ := hw.segment_of_mem_starts hmem
    refine ⟨harrived.segment s (hw.starts_lt r s hmem), ?_,
      harrived.id _ (hw.inRange _ _ hparent)⟩
    rw [heq]
    exact harrived.id r (hlt r hr)
  · rw [hscore a ha, hscore b hb]
    exact hf.lt_iff_lt

/-! ## Strands -/

namespace SameSegment

variable {s : Seg} (same : SameSegment h h' s) (palette : Nat)
include same

private theorem strand (line : Line) : h'.strand s line = h.strand s line := by
  simp only [History.strand, same.segment]

private theorem opening (left : Option Line) :
    Line.opening h' palette (h'.segment s) left = Line.opening h palette (h.segment s) left := by
  simp only [Line.opening, same.segment, same.child, same.parent]

private theorem branching (trunk : Line) (left : Option Line) :
    Line.branching h' palette (h'.segment s) trunk left =
      Line.branching h palette (h.segment s) trunk left := by
  simp only [Line.branching, same.segment, same.parent]

end SameSegment

section Congruence

variable {starts : List Seg} (same : ∀ s ∈ starts, SameSegment h h' s) (palette : Nat)
include same

private theorem openLines_congr (left : Option Line) :
    openLines h' palette left starts = openLines h palette left starts := by
  induction starts generalizing left with
  | nil => rfl
  | cons s rest ih =>
    obtain ⟨hs, hrest⟩ := List.forall_mem_cons.1 same
    unfold openLines
    dsimp only
    rw [hs.opening, hs.strand, ih hrest]

private theorem branchLines_congr (trunk left : Line) :
    branchLines h' palette trunk left starts = branchLines h palette trunk left starts := by
  induction starts generalizing left with
  | nil => rfl
  | cons s rest ih =>
    obtain ⟨hs, hrest⟩ := List.forall_mem_cons.1 same
    unfold branchLines
    dsimp only
    rw [hs.branching, hs.strand, ih hrest]

private theorem continueLines_congr (first : Line) (others : List Line)
    (holdest : oldestLine h' first others = oldestLine h first others) :
    continueLines h' palette first others starts = continueLines h palette first others starts := by
  cases starts with
  | nil => rfl
  | cons s rest =>
    obtain ⟨hs, hrest⟩ := List.forall_mem_cons.1 same
    unfold continueLines
    dsimp only
    rw [holdest, hs.strand, branchLines_congr hrest]

end Congruence

theorem oldestLine_mem (h : History) (first : Line) (others : List Line) :
    oldestLine h first others ∈ first :: others := by
  unfold oldestLine
  induction others generalizing first with
  | nil => exact List.mem_singleton_self first
  | cons line rest ih =>
    rw [List.foldl_cons]
    split
    · exact List.mem_cons_of_mem first (ih line)
    · rcases List.mem_cons.1 (ih first) with heq | hrest
      · rw [heq]
        exact List.mem_cons_self
      · exact List.mem_cons_of_mem first (List.mem_cons_of_mem line hrest)

/-- Which line is oldest is a matter of how the scores at their starts compare. -/
private theorem oldestLine_congr {first : Line} {others : List Line}
    (hlt : ∀ a ∈ first :: others, ∀ b ∈ first :: others,
      h'.score a.start < h'.score b.start ↔ h.score a.start < h.score b.start) :
    oldestLine h' first others = oldestLine h first others := by
  unfold oldestLine
  induction others generalizing first with
  | nil => rfl
  | cons line rest ih =>
    have hstep : line.startScore h' < first.startScore h' ↔ line.startScore h < first.startScore h :=
      hlt line (by simp) first (by simp)
    rw [List.foldl_cons, List.foldl_cons, if_congr hstep rfl rfl]
    -- The older one of the two is one of the lines again.
    split
    · exact ih fun a ha b hb =>
        hlt a (List.mem_cons_of_mem first ha) b (List.mem_cons_of_mem first hb)
    · have hsub : ∀ a ∈ first :: rest, a ∈ first :: line :: rest := by
        intro a ha
        rcases List.mem_cons.1 ha with rfl | ha
        · exact List.mem_cons_self
        · exact List.mem_cons_of_mem first (List.mem_cons_of_mem line ha)
      exact ih fun a ha b hb => hlt a (hsub a ha) b (hsub b hb)

/-! ## Where lines start -/

/-- Every line starts at one of the revisions or at the far end of its strand. -/
def Rooted (rs : List Rev) (strands : List Strand) : Prop :=
  ∀ strand ∈ strands, strand.line.start ∈ rs ∨ strand.line.start = strand.parent

theorem Rooted.mono {strands : List Strand} (hrooted : Rooted shown strands)
    (hsub : ∀ q ∈ shown, q ∈ rs) : Rooted rs strands := by
  intro strand hmem
  exact (hrooted strand hmem).imp_left (hsub _)

theorem Rooted.append {strands more : List Strand} (hrooted : Rooted rs strands)
    (hmore : Rooted rs more) : Rooted rs (strands ++ more) := by
  intro strand hmem
  rcases List.mem_append.1 hmem with hmem | hmem
  · exact hrooted strand hmem
  · exact hmore strand hmem

theorem rooted_openLines {starts : List Seg} (hstarts : ∀ s ∈ starts, (h.segment s).child ∈ rs)
    (palette : Nat) (left : Option Line) : Rooted rs (openLines h palette left starts) := by
  induction starts generalizing left with
  | nil => exact fun _ hmem => absurd hmem List.not_mem_nil
  | cons s rest ih =>
    obtain ⟨hs, hrest⟩ := List.forall_mem_cons.1 hstarts
    intro strand hmem
    rcases List.mem_cons.1 hmem with rfl | hmem
    · exact .inl hs
    · exact ih hrest _ strand hmem

theorem rooted_branchLines (h : History) (rs : List Rev) (palette : Nat) (trunk left : Line)
    (starts : List Seg) : Rooted rs (branchLines h palette trunk left starts) := by
  induction starts generalizing left with
  | nil => exact fun _ hmem => absurd hmem List.not_mem_nil
  | cons s rest ih =>
    intro strand hmem
    rcases List.mem_cons.1 hmem with rfl | hmem
    · exact .inr rfl
    · exact ih _ strand hmem

theorem rooted_continueLines {first : Line} {others : List Line}
    (hlines : ∀ line ∈ first :: others, line.start ∈ rs) (h : History) (palette : Nat)
    (starts : List Seg) : Rooted rs (continueLines h palette first others starts) := by
  cases starts with
  | nil => exact fun _ hmem => absurd hmem List.not_mem_nil
  | cons s rest =>
    intro strand hmem
    rcases List.mem_cons.1 hmem with rfl | hmem
    · exact .inl (hlines _ (oldestLine_mem h first others))
    · exact rooted_branchLines h rs palette first first rest strand hmem

/-- The lines that arrive at a revision start there or further up. -/
private theorem Rooted.start_mem {row : Row} {before after : List Strand} {first : Strand}
    (hrooted : Rooted shown row.carried) (hcarried : row.carried = before ++ first :: after)
    (hfirst : first.parent = r) :
    ∀ line ∈ first.line :: (after.filter (·.parent = r)).map (·.line),
      line.start ∈ shown ++ [r] := by
  have harriving : ∀ strand ∈ row.carried, strand.parent = r →
      strand.line.start ∈ shown ++ [r] := by
    intro strand hmem hends
    rcases hrooted strand hmem with hstart | hstart
    · exact List.mem_append_left _ hstart
    · rw [hstart, hends]
      exact List.mem_concat_self
  rw [hcarried] at harriving
  intro line hline
  rcases List.mem_cons.1 hline with rfl | hline
  · exact harriving first (by simp) hfirst
  · obtain ⟨strand, hmem, rfl⟩ := List.mem_map.1 hline
    obtain ⟨hin, hends⟩ := List.mem_filter.1 hmem
    exact harriving strand (by simp [hin]) (of_decide_eq_true hends)

/-! ## From row to row -/

variable {above : Option Row} {palette : Nat}

theorem rooted_strandsBelow (hrooted : Rooted shown (carriedFrom above)) {starts : List Seg}
    (hstarts : ∀ s ∈ starts, (h.segment s).child = r) (palette : Nat) :
    Rooted (shown ++ [r]) (strandsBelow h palette above r starts) := by
  have hopen : ∀ s ∈ starts, (h.segment s).child ∈ shown ++ [r] := by
    intro s hs
    rw [hstarts s hs]
    exact List.mem_concat_self
  have hsub : ∀ q ∈ shown, q ∈ shown ++ [r] := fun q hq => List.mem_append_left _ hq
  cases above with
  | none => exact rooted_openLines hopen palette none
  | some row =>
    rcases strandsBelow_cases row r with ⟨before, first, after, hcarried, -, hfirst, heq⟩ | ⟨-, heq⟩
    · have hlines := hrooted.start_mem hcarried hfirst
      have hkept := hrooted.mono hsub
      have hfresh := rooted_continueLines hlines h palette starts
      dsimp only [carriedFrom, Option.elim] at hkept
      rw [hcarried] at hkept
      -- The new strands stand among those from above.
      rw [heq]
      intro strand hmem
      simp only [List.mem_append, List.mem_cons] at hmem
      rcases hmem with (hmem | rfl | hmem) | hmem
      · exact hkept strand (List.mem_append_left _ hmem)
      · exact hkept strand (List.mem_append_right _ List.mem_cons_self)
      · exact hfresh strand hmem
      · exact hkept strand (List.mem_append_right _ (List.mem_cons_of_mem first hmem))
    · rw [heq]
      exact (hrooted.mono hsub).append (rooted_openLines hopen palette _)

private theorem strandsBelow_congr (hrooted : Rooted shown (carriedFrom above)) {starts : List Seg}
    (same : ∀ s ∈ starts, SameSegment h h' s)
    (hlt : ∀ a ∈ shown ++ [r], ∀ b ∈ shown ++ [r], h'.score a < h'.score b ↔ h.score a < h.score b) :
    strandsBelow h' palette above r starts = strandsBelow h palette above r starts := by
  cases above with
  | none => exact openLines_congr same palette none
  | some row =>
    rcases strandsBelow_cases row r with ⟨before, first, after, hcarried, -, hfirst, heq⟩ | ⟨-, heq⟩
    · have hlines := hrooted.start_mem hcarried hfirst
      rw [heq, heq, continueLines_congr same]
      exact oldestLine_congr fun a ha b hb => hlt _ (hlines a ha) _ (hlines b hb)
    · rw [heq, heq, openLines_congr same]

namespace Layout

theorem startsAt_eq (hreduce : config.reduceCrossings = false) (h : History) (order : List Rev)
    (row : Nat) (r : Rev) : startsAt h config order row r = (h.revision r).starts := by
  simp [startsAt, hreduce]

theorem rooted_drawRow (hw : h.WellLinked) (hrooted : Rooted shown (carriedFrom rows.back?))
    (order : List Rev) (r : Rev) :
    Rooted (shown ++ [r]) (carriedFrom (rows.drawRow h config order r).back?) := by
  have hstarts : ∀ s ∈ startsAt h config order rows.size r, (h.segment s).child = r := by
    intro s hs
    rw [(startsAt_perm h config order rows.size r).mem_iff] at hs
    exact (hw.segment_of_mem_starts hs).1
  have hdrawn := rooted_strandsBelow hrooted hstarts config.palette
  unfold drawRow
  rw [Array.back?_push]
  dsimp only [carriedFrom, Option.elim]
  rw [Row.carried_eq, Row.strands_draw]
  exact fun strand hmem => hdrawn strand (List.mem_filter.1 hmem).1

private theorem drawRow_congr (hreduce : config.reduceCrossings = false)
    (hrooted : Rooted shown (carriedFrom rows.back?)) (alike : Alike h h' (shown ++ [r]))
    (order order' : List Rev) : rows.drawRow h' config order' r = rows.drawRow h config order r := by
  have hr : r ∈ shown ++ [r] := List.mem_concat_self
  unfold drawRow
  dsimp only
  rw [startsAt_eq hreduce, startsAt_eq hreduce, alike.starts r hr,
    strandsBelow_congr hrooted (alike.segments r hr) alike.score_lt]

/-- A list of revisions is drawn row by row, and after each row all lines are rooted again. -/
theorem drawAll_congr (hreduce : config.reduceCrossings = false) (hw : h.WellLinked)
    (hrooted : Rooted shown (carriedFrom rows.back?)) (alike : Alike h h' (shown ++ rs))
    (order order' : List Rev) :
    drawAll h' config order' rs rows = drawAll h config order rs rows := by
  induction rs generalizing rows shown with
  | nil => simp only [drawAll, List.foldl_nil]
  | cons r rest ih =>
    rw [List.append_cons] at alike
    have hrow := drawRow_congr hreduce hrooted alike.of_append order order'
    have hnext : Rooted (shown ++ [r]) (carriedFrom (rows.drawRow h config order r).back?) :=
      rooted_drawRow hw hrooted order r
    have hrest := ih hnext alike
    unfold drawAll at hrest ⊢
    rw [List.foldl_cons, List.foldl_cons, hrow, hrest]

end Layout

end CommitLanes
