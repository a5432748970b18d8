import CommitLanes.Proofs.History.Arrivals
import CommitLanes.Proofs.Layout.Below

/-! # Where lines are

A segment is in the rows from that of its child down to that of its parent, and in no others. Each
row has it once, and it looks the same in all of them. -/

namespace CommitLanes

/-! ## Lists in which each element fits those before it -/

/-- Each element of the list fits the part in front of it. -/
def Each {α : Type} (P : List α → α → Prop) (l : List α) : Prop :=
  ∀ before x after, l = before ++ x :: after → P before x

namespace Each

variable {α : Type} {P : List α → α → Prop} {l more : List α} {x : α}

theorem nil : Each P [] := fun before x after heq => absurd heq.symm (by simp)

theorem of_append (each : Each P (l ++ more)) : Each P l :=
  fun before x after heq => each before x (after ++ more) (by simp [heq])

theorem concat (each : Each P l) (hx : P l x) : Each P (l ++ [x]) := by
  intro before y after heq
  rcases List.eq_nil_or_concat after with rfl | ⟨rest, z, rfl⟩
  · -- It is the last element.
    obtain ⟨rfl, hlast⟩ := List.append_inj' heq rfl
    cases hlast
    exact hx
  · rw [List.concat_eq_append, ← List.cons_append, ← List.append_assoc] at heq
    exact each before y rest (List.append_inj' heq rfl).1

theorem get (each : Each P l) {k : Nat} (hx : l[k]? = some x) : P (l.take k) x := by
  obtain ⟨hlt, hget⟩ := List.getElem?_eq_some_iff.1 hx
  have hsplit := (List.take_append_drop k l).symm
  rw [List.drop_eq_getElem_cons hlt, hget] at hsplit
  exact each _ x _ hsplit

theorem pairwise {R : α → α → Prop} (each : Each P l)
    (hrel : ∀ before x, P before x → ∀ y ∈ before, R y x) : l.Pairwise R := by
  induction l using List.reverseRecOn with
  | nil => exact .nil
  | append_singleton l x ih =>
    refine List.pairwise_append.2 ⟨ih each.of_append, List.pairwise_singleton R x, ?_⟩
    intro y hy z hz
    rw [List.mem_singleton.1 hz]
    exact hrel l x (each l x [] rfl) y hy

theorem imp {Q : List α → α → Prop} (each : Each P l) (himp : ∀ before x, P before x → Q before x) :
    Each Q l := fun before x after heq => himp before x (each before x after heq)

private theorem iff_getElem : Each P l ↔ ∀ k (hk : k < l.length), P (l.take k) l[k] := by
  constructor
  · intro each k hk
    exact each.get (List.getElem?_eq_getElem hk)
  · rintro hget before x after rfl
    simpa using hget before.length (by simp)

instance [∀ before x, Decidable (P before x)] : Decidable (Each P l) :=
  decidable_of_iff' _ iff_getElem

end Each

/-! ## Rows that hold what belongs there -/

variable {h h' : History} {contents : List (Rev × List Strand)} {shown : List Rev} {r : Rev}
  {strands : List Strand}

/-- The strands of the row of `r` that comes after the rows of the revisions `shown` are those of the
segments that started there or start here and have not ended yet. -/
structure SpansRow (h : History) (shown : List Rev) (r : Rev) (strands : List Strand) : Prop where
  mem_iff : ∀ s, s ∈ strands.map (·.segment) ↔ s < h.segments.size ∧
    (h.segment s).child ∈ shown ++ [r] ∧ (h.segment s).parent ∉ shown
  nodup : (strands.map (·.segment)).Nodup
  shows : ∀ strand ∈ strands, strand.Shows h

/-- The strands that go on below the rows of the revisions `shown`. -/
structure Carries (h : History) (shown : List Rev) (carried : List Strand) : Prop where
  mem_iff : ∀ s, s ∈ carried.map (·.segment) ↔ s < h.segments.size ∧
    (h.segment s).child ∈ shown ∧ (h.segment s).parent ∉ shown
  nodup : (carried.map (·.segment)).Nodup
  shows : ∀ strand ∈ carried, strand.Shows h

/-- The rows show different revisions that have arrived, each with the strands that belong there. -/
structure Spans (h : History) (contents : List (Rev × List Strand)) : Prop where
  nodup : (contents.map Prod.fst).Nodup
  arrived : ∀ r ∈ contents.map Prod.fst, (h.revision r).completed = true
  row : ∀ above r strands below, contents = above ++ (r, strands) :: below →
    SpansRow h (above.map Prod.fst) r strands
  same : ∀ x ∈ contents, ∀ y ∈ contents, ∀ a ∈ x.2, ∀ b ∈ y.2, a.segment = b.segment → a = b

theorem spans_nil : Spans h [] where
  nodup := List.nodup_nil
  arrived _ hr := absurd hr List.not_mem_nil
  row above r strands below heq := absurd heq.symm (by simp)
  same _ hx := absurd hx List.not_mem_nil

/-- A part of the rows from the top. -/
private theorem Spans.of_append {more : List (Rev × List Strand)}
    (spans : Spans h (contents ++ more)) : Spans h contents where
  nodup := (List.nodup_append.1 (List.map_append ▸ spans.nodup)).1
  arrived r hr := spans.arrived r (by rw [List.map_append]; exact List.mem_append_left _ hr)
  row above r strands below heq := spans.row above r strands (below ++ more) (by simp [heq])
  same x hx y hy := spans.same x (List.mem_append_left _ hx) y (List.mem_append_left _ hy)

theorem Spans.each (spans : Spans h contents) :
    Each (fun above x => SpansRow h (above.map Prod.fst) x.1 x.2) contents :=
  fun above x below heq => spans.row above x.1 x.2 below heq

/-! ## From row to row -/

/-- What ends at the row is not carried on. -/
private theorem SpansRow.carries (row : SpansRow h shown r strands) :
    Carries h (shown ++ [r]) (strands.filter fun strand => strand.parent ≠ r) where
  mem_iff s := by
    constructor
    · intro hmem
      obtain ⟨strand, hstrand, rfl⟩ := List.mem_map.1 hmem
      obtain ⟨hin, hgoes⟩ := List.mem_filter.1 hstrand
      obtain ⟨hlt, hchild, hparent⟩ := (row.mem_iff strand.segment).1 (List.mem_map_of_mem hin)
      refine ⟨hlt, hchild, fun hends => ?_⟩
      rcases List.mem_append.1 hends with habove | hhere
      · exact hparent habove
      · rw [← (row.shows strand hin).2, List.mem_singleton] at hhere
        exact of_decide_eq_true hgoes hhere
    · rintro ⟨hlt, hchild, hparent⟩
      rw [List.mem_append, List.mem_singleton, not_or] at hparent
      obtain ⟨strand, hin, rfl⟩ := List.mem_map.1 ((row.mem_iff s).2 ⟨hlt, hchild, hparent.1⟩)
      refine List.mem_map_of_mem (List.mem_filter.2 ⟨hin, decide_eq_true ?_⟩)
      rw [(row.shows strand hin).2]
      exact hparent.2
  nodup := row.nodup.sublist (List.filter_sublist.map _)
  shows strand hmem := row.shows strand (List.mem_filter.1 hmem).1

/-- The strands that go on below a list of rows. -/
def carriedBelow (contents : List (Rev × List Strand)) : List Strand :=
  match contents.getLast? with
  | some (r, strands) => strands.filter fun strand => strand.parent ≠ r
  | none => []

theorem carriedBelow_take {k : Nat} {x : Rev × List Strand} (hx : contents[k]? = some x) :
    carriedBelow (contents.take (k + 1)) = x.2.filter fun strand => strand.parent ≠ x.1 := by
  unfold carriedBelow
  rw [List.getLast?_take, if_neg (Nat.succ_ne_zero k), Nat.add_sub_cancel, hx]
  rfl

private theorem Spans.carries (spans : Spans h contents) :
    Carries h (contents.map Prod.fst) (carriedBelow contents) := by
  rcases List.eq_nil_or_concat contents with rfl | ⟨above, ⟨r, strands⟩, rfl⟩
  · exact ⟨fun s => by simp [carriedBelow], List.nodup_nil,
      fun _ hmem => absurd hmem List.not_mem_nil⟩
  · rw [List.concat_eq_append] at *
    have hrow := spans.row above r strands [] rfl
    simpa [carriedBelow] using hrow.carries

private theorem exists_row_of_mem_carriedBelow {strand : Strand}
    (hmem : strand ∈ carriedBelow contents) : ∃ x ∈ contents, strand ∈ x.2 := by
  unfold carriedBelow at hmem
  split at hmem
  · next r strands hlast =>
    exact ⟨(r, strands), List.mem_of_getLast? hlast, (List.mem_filter.1 hmem).1⟩
  · exact absurd hmem List.not_mem_nil

/-- A strand of a row starts at a revision that is shown. -/
private theorem Spans.child_mem (spans : Spans h contents) {x : Rev × List Strand}
    (hx : x ∈ contents) {strand : Strand} (hmem : strand ∈ x.2) :
    (h.segment strand.segment).child ∈ contents.map Prod.fst := by
  obtain ⟨above, below, heq⟩ := List.append_of_mem hx
  have hrow := spans.row above x.1 x.2 below heq
  obtain ⟨-, hchild, -⟩ := (hrow.mem_iff strand.segment).1 (List.mem_map_of_mem hmem)
  rw [heq, List.map_append, List.map_cons, List.append_cons]
  exact List.mem_append_left _ hchild

/-- A row that holds what is carried and the segments that start at its revision, none of which ends
above. -/
private theorem Carries.spansRow {carried fresh : List Strand} {starts : List Seg}
    (carries : Carries h shown carried) (hw : h.WellLinked) (hnew : r ∉ shown)
    (hparents : ∀ p, h.IsParent r p → p ∉ shown) (hfresh : ShowsAll h starts fresh)
    (hstarts : starts.Perm (h.revision r).starts) (hperm : strands.Perm (carried ++ fresh)) :
    SpansRow h shown r strands := by
  have hsegments : (strands.map (·.segment)).Perm
      (carried.map (·.segment) ++ (h.revision r).starts) := by
    refine (hperm.map _).trans ?_
    rw [List.map_append, hfresh.segments]
    exact hstarts.append_left _
  refine ⟨fun s => ?_, ?_, fun strand hmem => ?_⟩
  · -- A segment starts at a row above and is carried, or it starts here.
    rw [hsegments.mem_iff, List.mem_append, carries.mem_iff, List.mem_append, List.mem_singleton]
    constructor
    · rintro (⟨hlt, hchild, hparent⟩ | hstart)
      · exact ⟨hlt, .inl hchild, hparent⟩
      · obtain ⟨hchild, hparent⟩ := hw.segment_of_mem_starts hstart
        exact ⟨hw.starts_lt r s hstart, .inr hchild, hparents _ hparent⟩
    · rintro ⟨hlt, hchild | hchild, hparent⟩
      · exact .inl ⟨hlt, hchild, hparent⟩
      · exact .inr (hchild ▸ hw.started s hlt)
  · rw [hsegments.nodup_iff, List.nodup_append]
    refine ⟨carries.nodup, hw.starts_nodup r, fun s hs t ht heq => ?_⟩
    -- What is carried starts above, and so at another revision.
    subst heq
    obtain ⟨-, hchild, -⟩ := (carries.mem_iff s).1 hs
    rw [(hw.segment_of_mem_starts ht).1] at hchild
    exact hnew hchild
  · rcases List.mem_append.1 (hperm.mem_iff.1 hmem) with hcarried | hfreshly
    · exact carries.shows strand hcarried
    · exact hfresh.shows strand hfreshly

/-- One more row keeps all of it. -/
private theorem Spans.snoc {fresh : List Strand} {starts : List Seg} (spans : Spans h contents)
    (hw : h.WellLinked) (hr : (h.revision r).completed = true) (hnew : r ∉ contents.map Prod.fst)
    (hparents : ∀ p, h.IsParent r p → p ∉ contents.map Prod.fst) (hfresh : ShowsAll h starts fresh)
    (hstarts : starts.Perm (h.revision r).starts)
    (hperm : strands.Perm (carriedBelow contents ++ fresh)) :
    Spans h (contents ++ [(r, strands)]) := by
  have hrow := spans.carries.spansRow hw hnew hparents hfresh hstarts hperm
  -- A strand of the new row that is in a row above looks the same there.
  have hsame : ∀ x ∈ contents, ∀ a ∈ x.2, ∀ b ∈ strands, a.segment = b.segment → a = b := by
    intro x hx a ha b hb heq
    rcases List.mem_append.1 (hperm.mem_iff.1 hb) with hcarried | hfreshly
    · obtain ⟨y, hy, hby⟩ := exists_row_of_mem_carriedBelow hcarried
      exact spans.same x hx y hy a ha b hby heq
    · have hstart : b.segment ∈ (h.revision r).starts := by
        rw [← hstarts.mem_iff, ← hfresh.segments]
        exact List.mem_map_of_mem hfreshly
      have hchild := spans.child_mem hx ha
      rw [heq, (hw.segment_of_mem_starts hstart).1] at hchild
      exact absurd hchild hnew
  have hself : ∀ a ∈ strands, ∀ b ∈ strands, a.segment = b.segment → a = b :=
    fun a ha b hb => List.inj_on_of_nodup_map hrow.nodup ha hb
  exact {
    nodup := by simpa using spans.nodup.concat hnew
    arrived := fun q hq => by
      rw [List.map_append, List.mem_append] at hq
      rcases hq with hq | hq
      · exact spans.arrived q hq
      · rw [List.mem_singleton.1 hq]
        exact hr
    row := fun above q strands' below heq => spans.each.concat hrow above (q, strands') below heq
    same := fun x hx y hy => by
      rw [List.mem_append, List.mem_singleton] at hx hy
      rcases hx with hx | rfl <;> rcases hy with hy | rfl
      · exact spans.same x hx y hy
      · exact hsame x hx
      · exact fun a ha b hb heq => (hsame y hy b hb a ha heq.symm).symm
      · exact hself }

/-! ## While commits arrive -/

theorem Spans.of_still (spans : Spans h contents) (still : History.Still h h') :
    Spans h' contents where
  nodup := spans.nodup
  arrived r hr := by
    rw [still.toSameLinks.completed]
    exact spans.arrived r hr
  row above r strands below heq := by
    have hrow := spans.row above r strands below heq
    have hsegment := still.toSameLinks.segment
    refine ⟨fun s => ?_, hrow.nodup, fun strand hmem => ?_⟩
    · rw [hsegment, still.segments]
      exact hrow.mem_iff s
    · rw [Strand.Shows, hsegment]
      exact hrow.shows strand hmem
  same := spans.same

/-- A commit that was not shown has no lines in any row. -/
private theorem SpansRow.of_arrived {name : CommitId} {child : Rev}
    (row : SpansRow h shown r strands)
    (harrived : History.Arrived name child h h') (hw : h.WellLinked) (hw' : h'.WellLinked)
    (hnew : child ∉ shown ++ [r]) : SpansRow h' shown r strands where
  mem_iff s := by
    by_cases hs : s < h.segments.size
    · rw [row.mem_iff, harrived.segment s hs]
      have hs' := hs.trans_le harrived.segments_le
      simp only [hs, hs', true_and]
    · -- The segment has come with the commit, and so it starts there.
      constructor
      · intro hmem
        exact absurd ((row.mem_iff s).1 hmem).1 hs
      · rintro ⟨hs', hchild, -⟩
        have hstart := hw'.started s hs'
        have hne : (h'.segment s).child ≠ child := fun heq => hnew (heq ▸ hchild)
        rw [harrived.starts _ hne] at hstart
        exact absurd (hw.starts_lt _ s hstart) hs
  nodup := row.nodup
  shows strand hmem := by
    obtain ⟨hs, -⟩ := (row.mem_iff strand.segment).1 (List.mem_map_of_mem hmem)
    rw [Strand.Shows, harrived.segment _ hs]
    exact row.shows strand hmem

theorem Spans.of_arrived {name : CommitId} {child : Rev} (spans : Spans h contents)
    (harrived : History.Arrived name child h h') (hw : h.WellLinked) (hw' : h'.WellLinked)
    (hnew : (h.revision child).completed = false) : Spans h' contents where
  nodup := spans.nodup
  arrived r hr := (harrived.completed r).2 (.inr (spans.arrived r hr))
  row above r strands below heq := by
    refine (spans.row above r strands below heq).of_arrived harrived hw hw' fun hmem => ?_
    have hshown : child ∈ contents.map Prod.fst := by
      rw [heq, List.map_append, List.map_cons, List.append_cons]
      exact List.mem_append_left _ hmem
    exact History.ne_of_completed (spans.arrived child hshown) hnew rfl
  same := spans.same

/-! ## From layout to layout -/

/-- Different revisions that have arrived, of which none is above a child of its own. -/
structure Topological (h : History) (order : List Rev) : Prop where
  nodup : order.Nodup
  arrived : ∀ r ∈ order, (h.revision r).completed = true
  descends : order.Pairwise fun a b => ¬ h.IsParent b a

theorem Topological.of_append {order more : List Rev} (htop : Topological h (order ++ more)) :
    Topological h order where
  nodup := (List.nodup_append.1 htop.nodup).1
  arrived r hr := htop.arrived r (List.mem_append_left _ hr)
  descends := (List.pairwise_append.1 htop.descends).1

theorem Topological.of_still {order : List Rev} (htop : Topological h order)
    (still : History.Still h h') : Topological h' order where
  nodup := htop.nodup
  arrived r hr := (still.toSameLinks.completed r).trans (htop.arrived r hr)
  descends := htop.descends.imp fun hab hparent => hab (still.toSameLinks.isParent.1 hparent)

/-- The last revision is a new one, and none of its parents comes before it. -/
theorem Topological.of_concat {order : List Rev} (htop : Topological h (order ++ [r])) :
    (h.revision r).completed = true ∧ r ∉ order ∧ ∀ p, h.IsParent r p → p ∉ order := by
  have hr : r ∈ [r] := List.mem_singleton_self r
  have hnodup := (List.nodup_append.1 htop.nodup).2.2
  have hdescends := (List.pairwise_append.1 htop.descends).2.2
  exact ⟨htop.arrived r List.mem_concat_self, fun hmem => hnodup r hmem r hr rfl,
    fun p hp hmem => hdescends p hmem r hr hp⟩

namespace Layout

theorem carriedFrom_back? (rows : Layout) : carriedFrom rows.back? = carriedBelow rows.contents := by
  have hlast : rows.contents.getLast? = rows.back?.map Row.content := by
    simp [contents]
  unfold carriedFrom carriedBelow
  rw [hlast]
  cases rows.back? with
  | none => rfl
  | some row => exact row.carried_eq

/-- What the next row holds, from the left. -/
theorem contents_drawRow_split (h : History) (config : Config) (order : List Rev) (rows : Layout)
    (r : Rev) : ∃ before fresh after, (rows.drawRow h config order r).contents =
      rows.contents ++ [(r, before ++ fresh ++ after)] ∧
        ShowsAll h (startsAt h config order rows.size r) fresh ∧
        carriedBelow rows.contents = before ++ after := by
  obtain ⟨before, fresh, after, hfresh, hcarried, heq⟩ := strandsBelow_split h config.palette
    rows.back? r (startsAt h config order rows.size r)
  rw [carriedFrom_back?] at hcarried
  exact ⟨before, fresh, after, heq ▸ contents_drawRow h config order rows r, hfresh, hcarried⟩

/-- What the next row holds. -/
theorem exists_contents_drawRow (h : History) (config : Config) (order : List Rev) (rows : Layout)
    (r : Rev) : ∃ starts fresh strands, (rows.drawRow h config order r).contents =
      rows.contents ++ [(r, strands)] ∧ ShowsAll h starts fresh ∧
        starts.Perm (h.revision r).starts ∧ strands.Perm (carriedBelow rows.contents ++ fresh) := by
  obtain ⟨before, fresh, after, heq, hfresh, hcarried⟩ := contents_drawRow_split h config order rows r
  refine ⟨_, fresh, _, heq, hfresh, startsAt_perm _ _ _ _ _, ?_⟩
  rw [hcarried, List.append_assoc, List.append_assoc]
  exact List.perm_append_comm.append_left before

theorem spans_drawRow {config : Config} {order : List Rev} {rows : Layout} (hw : h.WellLinked)
    (spans : Spans h rows.contents) (htop : Topological h (rows.revisions ++ [r])) :
    Spans h (rows.drawRow h config order r).contents := by
  obtain ⟨starts, fresh, strands, heq, hfresh, hstarts, hperm⟩ :=
    exists_contents_drawRow h config order rows r
  rw [← fst_contents] at htop
  obtain ⟨hr, hnew, hparents⟩ := htop.of_concat
  rw [heq]
  exact spans.snoc hw hr hnew hparents hfresh hstarts hperm

theorem Redrawn.revisions {config : Config} {order : List Rev} {keep stop : Nat}
    {old rows : Layout} (redrawn : Redrawn h config order keep stop old rows) :
    rows.revisions = order.take stop := by
  have hdrawn : (drawAll h config order ((order.drop keep).take (stop - keep))
      (old.take keep)).revisions = order.take stop := by
    rw [revisions_drawAll, redrawn.agrees, ← List.take_add, Nat.add_sub_cancel' redrawn.keep_le]
  rcases redrawn.eq with rfl | ⟨start, final, rfl⟩
  · exact hdrawn
  · rw [← fst_contents, contents_straighten, fst_contents]
    exact hdrawn

theorem Redrawn.spans {config : Config} {order : List Rev} {keep stop : Nat}
    {old rows : Layout} (redrawn : Redrawn h config order keep stop old rows) (hw : h.WellLinked)
    (htop : Topological h order) (spans : Spans h old.contents) : Spans h rows.contents := by
  refine redrawn.induction (P := fun rows => Spans h rows.contents) (fun n => ?_)
    (fun rows r hpart spans => ?_) (fun rows move spans => ?_)
  · rw [contents_take]
    rw [← List.take_append_drop n old.contents] at spans
    exact spans.of_append
  · obtain ⟨more, rfl⟩ := hpart
    exact spans_drawRow hw spans htop.of_append
  · rw [contents_shift]
    exact spans

end Layout

end CommitLanes
