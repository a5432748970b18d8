import CommitLanes.Proofs.Layout.Threads

/-! # Lines side by side

What a row passes on stays in order in the next row, and the segments that start there are put in
side by side, in the order in which they are listed. So the strands that two rows have in common
stand in the same order in both, however far apart the rows are. -/

namespace CommitLanes

variable {h : History} {contents : List (Rev × List Strand)} {shown : List Rev} {r : Rev}
  {carried before fresh after : List Strand}

/-! ## What starts in a row and what comes from above -/

/-- The segments that start at the revision of a row, from the left. -/
def Row.starts (row : Row) : List Seg :=
  (row.strands.filter fun strand => strand.child = row.revision).map (·.segment)

/-- Apart from the strands that start there, each row holds what the row above passes on, in the
order in which it stands there. -/
def Inherits (contents : List (Rev × List Strand)) : Prop :=
  Each (fun above x => (x.2.filter fun strand => strand.child ≠ x.1) = carriedBelow above) contents

/-- What is passed on starts above, and the new strands do not. -/
theorem Passes.filter_child {starts : List Seg} (passes : Passes h shown (before ++ after))
    (hs : h.Sound) (hnew : r ∉ shown) (hfresh : ShowsAll h starts fresh)
    (hstarts : starts.Perm (h.revision r).starts) :
    ((before ++ fresh ++ after).filter fun strand => strand.child ≠ r) = before ++ after ∧
      ((before ++ fresh ++ after).filter fun strand => strand.child = r) = fresh := by
  have hold (part : List Strand) (hpart : part ⊆ before ++ after) :
      (part.filter fun strand => strand.child ≠ r) = part ∧
        (part.filter fun strand => strand.child = r) = [] := by
    have hchild : ∀ strand ∈ part, strand.child ≠ r :=
      fun strand hmem heq => hnew (heq ▸ passes.child_mem strand (hpart hmem))
    exact ⟨List.filter_eq_self.2 (by simpa using hchild),
      List.filter_eq_nil_iff.2 (by simpa using hchild)⟩
  have hchild : ∀ strand ∈ fresh, strand.child = r :=
    fun strand hmem => (hfresh.runs hs hstarts hmem).2.1
  have hnone : (fresh.filter fun strand => strand.child ≠ r) = [] :=
    List.filter_eq_nil_iff.2 (by simpa using hchild)
  have hall : (fresh.filter fun strand => strand.child = r) = fresh :=
    List.filter_eq_self.2 (by simpa using hchild)
  obtain ⟨hbefore, hbefore'⟩ := hold before (List.subset_append_left _ _)
  obtain ⟨hafter, hafter'⟩ := hold after (List.subset_append_right _ _)
  constructor
  · rw [List.filter_append, List.filter_append, hbefore, hnone, hafter, List.append_nil]
  · rw [List.filter_append, List.filter_append, hbefore', hall, hafter', List.nil_append,
      List.append_nil]

/-- Of the strands of a row, those that were there in a row further up come from there in order. -/
private theorem Inherits.sublist (inherits : Inherits contents)
    (hnodup : (contents.map Prod.fst).Nodup)
    {i j : Nat} (hij : i ≤ j) {x y : Rev × List Strand} (hx : contents[i]? = some x)
    (hy : contents[j]? = some y) :
    (y.2.filter fun strand => strand.child ∈ (contents.map Prod.fst).take (i + 1)).Sublist x.2 := by
  induction j, hij using Nat.le_induction generalizing y with
  | base =>
    cases hx.symm.trans hy
    exact List.filter_sublist
  | succ j hij ih =>
    obtain ⟨z, hz⟩ : ∃ z, contents[j]? = some z := by
      have hlt := (List.getElem?_eq_some_iff.1 hy).1
      exact ⟨_, List.getElem?_eq_getElem (Nat.lt_of_succ_lt hlt)⟩
    -- None of them starts in the row itself, whose revision is shown in no row above.
    have habove : y.1 ∉ (contents.map Prod.fst).take (i + 1) := by
      intro hmem
      obtain ⟨k, hk, heq⟩ := List.mem_take_iff_getElem.1 hmem
      have hrow : (contents.map Prod.fst)[j + 1]? = some y.1 := by
        rw [List.getElem?_map, hy]
        rfl
      have hsame := (List.getElem_inj hnodup).1 (heq.trans (List.getElem?_eq_some_iff.1 hrow).2.symm)
      omega
    have hold : (y.2.filter fun strand => strand.child ∈ (contents.map Prod.fst).take (i + 1)) =
        (y.2.filter fun strand => strand.child ≠ y.1).filter
          fun strand => strand.child ∈ (contents.map Prod.fst).take (i + 1) := by
      rw [List.filter_filter]
      refine List.filter_congr fun strand _ => ?_
      by_cases hmem : strand.child ∈ (contents.map Prod.fst).take (i + 1)
      · have hne : strand.child ≠ y.1 := fun heq => habove (heq ▸ hmem)
        simp [hmem, hne]
      · simp [hmem]
    rw [hold, inherits.get hy, carriedBelow_take hz]
    exact (List.filter_sublist.filter _).trans (ih hz)

/-! ## From layout to layout -/

namespace Layout

theorem inherits_take {rows : Layout} (inherits : Inherits rows.contents) (n : Nat) :
    Inherits (Layout.contents (rows.take n)) := by
  rw [← List.take_append_drop n rows.contents] at inherits
  rw [contents_take]
  exact Each.of_append inherits

/-- A row that is drawn holds what is passed on to it and the segments that start there, both in the
order in which they were before. -/
theorem exists_strands_drawRow {config : Config} {order : List Rev} {rows : Layout} (hs : h.Sound)
    (threads : Threads h rows.contents) (hnew : r ∉ rows.revisions) :
    ∃ strands, (rows.drawRow h config order r).contents = rows.contents ++ [(r, strands)] ∧
      (strands.filter fun strand => strand.child ≠ r) = carriedBelow rows.contents ∧
      (strands.filter fun strand => strand.child = r).map (·.segment) =
        startsAt h config order rows.size r := by
  obtain ⟨before, fresh, after, heq, hfresh, hcarried⟩ :=
    contents_drawRow_split h config order rows r
  have hpasses := threads.passes
  rw [hcarried, fst_contents] at hpasses
  obtain ⟨hold, hstart⟩ := hpasses.filter_child hs hnew hfresh (startsAt_perm _ _ _ _ _)
  exact ⟨_, heq, hold.trans hcarried.symm, (congrArg _ hstart).trans hfresh.segments⟩

theorem inherits_drawRow {config : Config} {order : List Rev} {rows : Layout} (hs : h.Sound)
    (threads : Threads h rows.contents) (hnew : r ∉ rows.revisions)
    (inherits : Inherits rows.contents) : Inherits (rows.drawRow h config order r).contents := by
  obtain ⟨strands, heq, hold, -⟩ := exists_strands_drawRow hs threads hnew
  rw [heq]
  exact Each.concat inherits hold

/-- The rows that are drawn anew list the segments that start there in the order that crossing
reduction gives them. -/
theorem Extension.starts_eq {config : Config} {order : List Rev} {last : Nat} {completed : Bool}
    {old rows : Layout} (extension : Extension h config order last completed old rows)
    (hs : h.Sound) (htop : Topological h order) (threads : Threads h old.contents) {k : Nat} {row : Row}
    (hk : (old.keep config order).size ≤ k) (hrow : rows[k]? = some row) :
    row.starts = startsAt h config order k row.revision := by
  have hdrawn := extension.induction (P := fun rows => Threads h rows.contents ∧
    Each (fun above x => (old.keep config order).size ≤ above.length →
      (x.2.filter fun strand => strand.child = x.1).map (·.segment) =
        startsAt h config order above.length x.1) rows.contents)
    ⟨?_, ?_⟩ (fun rows r hpart holds => ?_) (fun rows move holds => ?_)
  · have hcontent := content_of_getElem? hrow
    have hlength : (rows.contents.take k).length = k :=
      List.length_take_of_le (List.getElem?_eq_some_iff.1 hcontent).1.le
    have hlisted := hdrawn.2.get hcontent
    rw [hlength] at hlisted
    exact hlisted hk
  · obtain ⟨more, hmore⟩ := contents_keep_isPrefix config order old
    rw [← hmore] at threads
    exact threads.of_append
  · -- All rows that are kept come before.
    intro above x below heq hge
    have hlength := congrArg List.length heq
    rw [length_contents, List.length_append, List.length_cons] at hlength
    omega
  · obtain ⟨more, rfl⟩ := hpart
    have hnew := htop.of_append.of_concat.2.1
    obtain ⟨strands, heq, -, hstarts⟩ := exists_strands_drawRow hs holds.1 hnew
    refine ⟨threads_drawRow hs holds.1 htop.of_append, ?_⟩
    rw [heq]
    refine holds.2.concat fun _ => ?_
    rw [length_contents]
    exact hstarts
  · rw [contents_shift]
    exact holds

end Layout

/-! ## Positions -/

/-- What a list has in common with a part of it stands in the same order in both. -/
private theorem idxOf_lt_idxOf_iff_of_sublist {part whole : List Seg} (hpart : part.Sublist whole)
    (hnodup : whole.Nodup) {s t : Seg} (hs : s ∈ part) (ht : t ∈ part) :
    part.idxOf s < part.idxOf t ↔ whole.idxOf s < whole.idxOf t := by
  have hwhole : whole.Pairwise fun s t => whole.idxOf s < whole.idxOf t := by
    refine List.pairwise_iff_getElem.2 fun i j hi hj hij => ?_
    rwa [hnodup.idxOf_getElem i hi, hnodup.idxOf_getElem j hj]
  have hmono {s t : Seg} (hs : s ∈ part) (ht : t ∈ part) (hlt : part.idxOf s < part.idxOf t) :
      whole.idxOf s < whole.idxOf t := by
    have hget := List.pairwise_iff_getElem.1 (hwhole.sublist hpart) _ _
      (List.idxOf_lt_length_of_mem hs) (List.idxOf_lt_length_of_mem ht) hlt
    rwa [List.getElem_idxOf, List.getElem_idxOf] at hget
  refine ⟨hmono hs ht, fun hlt => ?_⟩
  rcases lt_trichotomy (part.idxOf s) (part.idxOf t) with hst | heq | hts
  · exact hst
  · rw [(List.idxOf_inj hs).1 heq] at hlt
    exact absurd hlt (lt_irrefl _)
  · exact absurd (hmono ht hs hts) hlt.not_gt

/-- Two segments that are in both of two rows stand in the same order in both. -/
theorem Layout.idxOf_lt_idxOf_iff {rows : Layout} (inherits : Inherits rows.contents)
    (threads : Threads h rows.contents) {i j : Nat} (hij : i ≤ j) {upper lower : Row}
    (hupper : rows[i]? = some upper) (hlower : rows[j]? = some lower) {s t : Seg}
    (hs : s ∈ upper.segments) (ht : t ∈ upper.segments) (hs' : s ∈ lower.segments)
    (ht' : t ∈ lower.segments) :
    upper.segments.idxOf s < upper.segments.idxOf t ↔
      lower.segments.idxOf s < lower.segments.idxOf t := by
  have hrow := threadsRow_of_getElem? threads hupper
  have hrow' := threadsRow_of_getElem? threads hlower
  rw [Row.segments_eq] at hs ht hs' ht' ⊢
  rw [Row.segments_eq]
  -- Both lists have the strands of the lower row in common that start no further down than the
  -- upper one.
  let common := (lower.strands.filter fun strand => strand.child ∈ rows.revisions.take (i + 1)).map
    (·.segment)
  have habove : common.Sublist (upper.strands.map (·.segment)) := by
    have hsublist := inherits.sublist threads.nodup hij (content_of_getElem? hupper)
      (content_of_getElem? hlower)
    rw [fst_contents] at hsublist
    exact hsublist.map _
  have hbelow : common.Sublist (lower.strands.map (·.segment)) := List.filter_sublist.map _
  have hmem {s : Seg} (hs : s ∈ upper.strands.map (·.segment))
      (hs' : s ∈ lower.strands.map (·.segment)) : s ∈ common := by
    obtain ⟨a, ha, rfl⟩ := List.mem_map.1 hs
    obtain ⟨b, hb, heq⟩ := List.mem_map.1 hs'
    have hsame : b.child = a.child := by
      rw [(hrow'.runs b hb).shows.1, heq, (hrow.runs a ha).shows.1]
    refine List.mem_map.2 ⟨b, List.mem_filter.2 ⟨hb, decide_eq_true ?_⟩, heq⟩
    rw [hsame, revisions_take_succ hupper]
    exact hrow.child_mem a ha
  have hcs := hmem hs hs'
  have hct := hmem ht ht'
  rw [← idxOf_lt_idxOf_iff_of_sublist habove hrow.nodup hcs hct,
    idxOf_lt_idxOf_iff_of_sublist hbelow hrow'.nodup hcs hct]

end CommitLanes
