import CommitLanes.Proofs.Layout.Span

/-! # Lines from row to row

Rows may be out of date: a commit that has been added again has links which no row shows. But what a
row passes on is in the next row, and nothing is passed on that ends further up. This stays true of
the rows that are there whatever becomes of the history. -/

namespace CommitLanes

/-! ## What rows pass on -/

variable {h h' : History} {contents : List (Rev × List Strand)} {shown : List Rev} {r : Rev}
  {strands carried fresh : List Strand} {strand : Strand}

/-- The strand of a segment of the history that runs between two revisions. -/
structure Strand.Runs (h : History) (strand : Strand) : Prop where
  lt_size : strand.segment < h.segments.size
  shows : strand.Shows h
  parent_ne : strand.parent ≠ strand.child

/-- The strands of the row of `r` that comes after the rows of the revisions `shown`, of which the
last passes on the strands `carried`. -/
structure ThreadsRow (h : History) (shown : List Rev) (carried : List Strand) (r : Rev)
    (strands : List Strand) : Prop where
  goes_on : ∀ strand ∈ carried, strand ∈ strands
  runs : ∀ strand ∈ strands, strand.Runs h
  child_mem : ∀ strand ∈ strands, strand.child ∈ shown ++ [r]
  parent_notMem : ∀ strand ∈ strands, strand.parent ∉ shown
  nodup : (strands.map (·.segment)).Nodup

/-- The rows show different revisions that have arrived, and each passes its strands on. -/
structure Threads (h : History) (contents : List (Rev × List Strand)) : Prop where
  nodup : (contents.map Prod.fst).Nodup
  arrived : ∀ r ∈ contents.map Prod.fst, (h.revision r).completed = true
  row : Each (fun above x =>
    ThreadsRow h (above.map Prod.fst) (carriedBelow above) x.1 x.2) contents

theorem threads_nil : Threads h [] where
  nodup := List.nodup_nil
  arrived _ hr := absurd hr List.not_mem_nil
  row := .nil

theorem Threads.of_append {more : List (Rev × List Strand)}
    (threads : Threads h (contents ++ more)) : Threads h contents where
  nodup := (List.nodup_append.1 (List.map_append ▸ threads.nodup)).1
  arrived r hr := threads.arrived r (by rw [List.map_append]; exact List.mem_append_left _ hr)
  row := threads.row.of_append

/-- The strands that go on below the rows of the revisions `shown`. -/
structure Passes (h : History) (shown : List Rev) (carried : List Strand) : Prop where
  runs : ∀ strand ∈ carried, strand.Runs h
  child_mem : ∀ strand ∈ carried, strand.child ∈ shown
  parent_notMem : ∀ strand ∈ carried, strand.parent ∉ shown
  nodup : (carried.map (·.segment)).Nodup

private theorem ThreadsRow.passes (row : ThreadsRow h shown carried r strands) :
    Passes h (shown ++ [r]) (strands.filter fun strand => strand.parent ≠ r) where
  runs strand hmem := row.runs strand (List.mem_filter.1 hmem).1
  child_mem strand hmem := row.child_mem strand (List.mem_filter.1 hmem).1
  parent_notMem strand hmem := by
    obtain ⟨hin, hgoes⟩ := List.mem_filter.1 hmem
    rw [List.mem_append, List.mem_singleton, not_or]
    exact ⟨row.parent_notMem strand hin, of_decide_eq_true hgoes⟩
  nodup := row.nodup.sublist (List.filter_sublist.map _)

theorem Threads.passes (threads : Threads h contents) :
    Passes h (contents.map Prod.fst) (carriedBelow contents) := by
  rcases List.eq_nil_or_concat contents with rfl | ⟨above, ⟨r, strands⟩, rfl⟩
  · exact ⟨fun _ hmem => absurd hmem List.not_mem_nil, fun _ hmem => absurd hmem List.not_mem_nil,
      fun _ hmem => absurd hmem List.not_mem_nil, List.nodup_nil⟩
  · rw [List.concat_eq_append] at *
    simpa [carriedBelow] using (threads.row above (r, strands) [] rfl).passes

/-- The strands of the segments that start at a revision lead to its parents. -/
theorem ShowsAll.runs {starts : List Seg} (hfresh : ShowsAll h starts fresh) (hs : h.Sound)
    (hstarts : starts.Perm (h.revision r).starts) (hmem : strand ∈ fresh) :
    strand.Runs h ∧ strand.child = r ∧ h.IsParent r strand.parent := by
  have hw := hs.wellLinked
  have hstart : strand.segment ∈ (h.revision r).starts :=
    hstarts.mem_iff.1 (hfresh.segments ▸ List.mem_map_of_mem hmem)
  obtain ⟨hchild, hparent⟩ := hw.segment_of_mem_starts hstart
  have hshows := hfresh.shows strand hmem
  rw [← hshows.1] at hchild
  rw [← hshows.2] at hparent
  refine ⟨⟨hw.starts_lt r _ hstart, hshows, fun heq => ?_⟩, hchild, hparent⟩
  -- A parent has a higher score than its child.
  rw [heq, hchild] at hparent
  exact (hs.ordered r r hparent).false

/-- A row that holds what is passed on and the segments that start at its revision, none of which
ends above. -/
private theorem Passes.threadsRow {starts : List Seg} (passes : Passes h shown carried)
    (hs : h.Sound) (hnew : r ∉ shown) (hparents : ∀ p, h.IsParent r p → p ∉ shown)
    (hfresh : ShowsAll h starts fresh) (hstarts : starts.Perm (h.revision r).starts)
    (hperm : strands.Perm (carried ++ fresh)) : ThreadsRow h shown carried r strands := by
  have hmem : ∀ strand ∈ strands, strand ∈ carried ∨ strand ∈ fresh :=
    fun strand hstrand => List.mem_append.1 (hperm.mem_iff.1 hstrand)
  have hruns {strand : Strand} (hstrand : strand ∈ fresh) := hfresh.runs hs hstarts hstrand
  refine ⟨fun strand hin => hperm.mem_iff.2 (List.mem_append_left _ hin), fun strand hin => ?_,
    fun strand hin => ?_, fun strand hin => ?_, ?_⟩
  · exact (hmem strand hin).elim (passes.runs strand) fun hfreshly => (hruns hfreshly).1
  · rcases hmem strand hin with hcarried | hfreshly
    · exact List.mem_append_left _ (passes.child_mem strand hcarried)
    · rw [(hruns hfreshly).2.1]
      exact List.mem_concat_self
  · exact (hmem strand hin).elim (passes.parent_notMem strand)
      fun hfreshly => hparents _ (hruns hfreshly).2.2
  · rw [(hperm.map _).nodup_iff, List.map_append, List.nodup_append, hfresh.segments]
    have hw := hs.wellLinked
    refine ⟨passes.nodup, hstarts.nodup_iff.2 (hw.starts_nodup r), fun s hs t ht heq => ?_⟩
    -- What is passed on starts above, and so at another revision.
    subst heq
    obtain ⟨strand, hcarried, rfl⟩ := List.mem_map.1 hs
    have hchild := passes.child_mem strand hcarried
    rw [(passes.runs strand hcarried).shows.1,
      (hw.segment_of_mem_starts (hstarts.mem_iff.1 ht)).1] at hchild
    exact hnew hchild

private theorem Threads.concat {starts : List Seg} (threads : Threads h contents) (hs : h.Sound)
    (hr : (h.revision r).completed = true) (hnew : r ∉ contents.map Prod.fst)
    (hparents : ∀ p, h.IsParent r p → p ∉ contents.map Prod.fst) (hfresh : ShowsAll h starts fresh)
    (hstarts : starts.Perm (h.revision r).starts)
    (hperm : strands.Perm (carriedBelow contents ++ fresh)) :
    Threads h (contents ++ [(r, strands)]) where
  nodup := by simpa using threads.nodup.concat hnew
  arrived q hq := by
    rw [List.map_append, List.mem_append] at hq
    rcases hq with hq | hq
    · exact threads.arrived q hq
    · rw [List.mem_singleton.1 hq]
      exact hr
  row := threads.row.concat (threads.passes.threadsRow hs hnew hparents hfresh hstarts hperm)

/-- It is enough that nothing is taken back. -/
private theorem Threads.of_grown (threads : Threads h contents)
    (hcompleted : ∀ r, (h.revision r).completed = true → (h'.revision r).completed = true)
    (hsize : h.segments.size ≤ h'.segments.size)
    (hsegment : ∀ s < h.segments.size, h'.segment s = h.segment s) : Threads h' contents where
  nodup := threads.nodup
  arrived r hr := hcompleted r (threads.arrived r hr)
  row := threads.row.imp fun above x row => {
    goes_on := row.goes_on
    runs := fun strand hmem => by
      obtain ⟨hlt, hshows, hne⟩ := row.runs strand hmem
      refine ⟨hlt.trans_le hsize, ?_, hne⟩
      rw [Strand.Shows, hsegment _ hlt]
      exact hshows
    child_mem := row.child_mem
    parent_notMem := row.parent_notMem
    nodup := row.nodup }

theorem Threads.of_still (threads : Threads h contents) (still : History.Still h h') :
    Threads h' contents :=
  threads.of_grown (fun r hr => (still.toSameLinks.completed r).trans hr)
    (congrArg Array.size still.segments).ge fun s _ => still.toSameLinks.segment s

/-- The commit may have been there before. -/
theorem Threads.of_arrived {name : CommitId} {child : Rev} (threads : Threads h contents)
    (harrived : History.Arrived name child h h') : Threads h' contents :=
  threads.of_grown (fun r hr => (harrived.completed r).2 (.inr hr)) harrived.segments_le
    harrived.segment

/-! ## From layout to layout -/

namespace Layout

theorem threads_drawRow {config : Config} {order : List Rev} {rows : Layout} (hs : h.Sound)
    (threads : Threads h rows.contents) (htop : Topological h (rows.revisions ++ [r])) :
    Threads h (rows.drawRow h config order r).contents := by
  obtain ⟨starts, fresh, strands, heq, hfresh, hstarts, hperm⟩ :=
    exists_contents_drawRow h config order rows r
  rw [← fst_contents] at htop
  obtain ⟨hr, hnew, hparents⟩ := htop.of_concat
  rw [heq]
  exact threads.concat hs hr hnew hparents hfresh hstarts hperm

section Redrawn

variable {config : Config} {order : List Rev} {keep stop : Nat} {old rows : Layout}
  (redrawn : Redrawn h config order keep stop old rows) (hs : h.Sound) (htop : Topological h order)
  (passing : Threads h old.contents)
include redrawn hs htop passing

/-- Each row is drawn for a revision that is not shown yet, below rows that pass their strands on. -/
theorem Redrawn.induction_of_threads {P : Layout → Prop} (top : ∀ n, P (old.take n))
    (draw : ∀ rows r, Threads h rows.contents → r ∉ rows.revisions → P rows →
      P (rows.drawRow h config order r))
    (shift : ∀ rows move, P rows → P (rows.shift move)) : Threads h rows.contents ∧ P rows := by
  refine redrawn.induction (P := fun rows => Threads h rows.contents ∧ P rows) (fun n => ⟨?_, top n⟩)
    (fun rows r hpart holds => ?_) (fun rows move holds => ⟨?_, shift rows move holds.2⟩)
  · rw [contents_take]
    rw [← List.take_append_drop n old.contents] at passing
    exact passing.of_append
  · obtain ⟨more, rfl⟩ := hpart
    have hnew := htop.of_append.of_concat.2.1
    exact ⟨threads_drawRow hs holds.1 htop.of_append, draw rows r holds.1 hnew holds.2⟩
  · rw [contents_shift]
    exact holds.1

theorem Redrawn.threads : Threads h rows.contents :=
  (redrawn.induction_of_threads hs htop passing (P := fun _ => True) (fun _ => trivial)
    (fun _ _ _ _ _ => trivial) fun _ _ _ => trivial).1

end Redrawn

/-- What is known of a row of a layout. -/
theorem threadsRow_of_getElem? {rows : Layout} {k : Nat} {row : Row}
    (threads : Threads h rows.contents) (hrow : rows[k]? = some row) :
    ThreadsRow h (rows.revisions.take k) (carriedBelow (rows.contents.take k)) row.revision
      row.strands := by
  have hrow := threads.row.get (content_of_getElem? hrow)
  rwa [List.map_take, fst_contents] at hrow

end Layout

end CommitLanes
