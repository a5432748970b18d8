import CommitLanes.Layout.Check
import CommitLanes.Proofs.Layout.Sharing

/-! # What the check finds

The check of a layout passes exactly the coherent ones. Rows that pass their strands on and share
their lanes as they should are coherent. -/

namespace CommitLanes

variable {h : History} {rows : Layout}

/-! ## Coherent layouts -/

/-- No two primary strands of a row share a lane. -/
def Row.Separates (row : Row) : Prop :=
  row.drawn.Pairwise fun a b => a.sharing = .primary → b.sharing = .primary → a.lane ≠ b.lane

namespace Layout

/-- The lines of a layout begin in its rows, go on from row to row in lanes of their own and end
there, or at a commit that is not loaded. Where a layout of all rows ends can be told only once all
of them are there. -/
structure Coherent (rows : Layout) (h : History) (all : Bool) : Prop where
  first : ∀ row, rows[0]? = some row → ∀ strand ∈ row.drawn, strand.child = row.revision
  last : all → ∀ row, rows.back? = some row → ∀ strand ∈ row.drawn, ¬ strand.touches row.revision →
    (h.revision strand.parent).completed = false
  separates : ∀ (i : Nat) (row : Row), rows[i]? = some row → row.Separates
  goes_on : ∀ (i : Nat) (row below : Row), rows[i]? = some row → rows[i + 1]? = some below →
    ∀ strand ∈ row.drawn, strand.parent ≠ row.revision → (below.find? strand.segment).isSome

end Layout

namespace Row

theorem repeatedLane?_eq_none_iff {used : List Nat} {drawn : List Drawn} :
    repeatedLane? used drawn = none ↔
      (∀ a ∈ drawn, a.sharing = .primary → a.lane ∉ used) ∧
        drawn.Pairwise fun a b => a.sharing = .primary → b.sharing = .primary → a.lane ≠ b.lane := by
  induction drawn generalizing used with
  | nil => simp [repeatedLane?]
  | cons b rest ih =>
    rw [List.forall_mem_cons, List.pairwise_cons]
    unfold repeatedLane?
    split
    · next hprimary =>
      split
      · next hused => simp [hprimary, hused]
      · next hfree =>
        rw [ih]
        simp only [List.mem_cons, not_or, hprimary, hfree]
        grind
    · next hshares =>
      rw [ih]
      simp [hshares]

theorem laneFault?_eq_none_iff {row : Row} : row.laneFault? = none ↔ row.Separates := by
  unfold laneFault?
  rw [repeatedLane?_eq_none_iff]
  simp [Separates]

end Row

private theorem Row.Shares.separates {above : Option Row} {merge : Bool} {row : Row}
    (shares : row.Shares above merge) : row.Separates :=
  shares.each.pairwise fun _ _ hb a ha _ hprimary => hb.primary_iff.1 hprimary a ha

namespace Layout

/-- A search that reports what it finds reports nothing if there is nothing to find. -/
theorem find?_bind_eq_none_iff {α β : Type} {p : α → Bool} {f : α → β} {l : List α} :
    ((l.find? p).bind fun a => some (f a)) = none ↔ ∀ a ∈ l, ¬ p a := by
  cases hfind : l.find? p with
  | none => simpa using hfind
  | some a => simpa using ⟨a, List.mem_of_find?_eq_some hfind, List.find?_some hfind⟩

theorem firstFault?_eq_none_iff : rows.firstFault? = none ↔
    ∀ row, rows[0]? = some row → ∀ strand ∈ row.drawn, strand.child = row.revision := by
  unfold firstFault?
  cases rows[0]? with
  | none => simp
  | some row =>
    refine find?_bind_eq_none_iff.trans ?_
    simp

theorem lastFault?_eq_none_iff : rows.lastFault? h = none ↔
    ∀ row, rows.back? = some row → ∀ strand ∈ row.drawn, ¬ strand.touches row.revision →
      (h.revision strand.parent).completed = false := by
  unfold lastFault?
  cases rows.back? with
  | none => simp
  | some row =>
    refine find?_bind_eq_none_iff.trans ?_
    simp

theorem continuityFault?_eq_none_iff {i : Nat} : rows.continuityFault? i = none ↔
    ∀ row below, rows[i]? = some row → rows[i + 1]? = some below →
      ∀ strand ∈ row.drawn, strand.parent ≠ row.revision → (below.find? strand.segment).isSome := by
  unfold continuityFault?
  cases rows[i]? with
  | none => simp
  | some row =>
    cases rows[i + 1]? with
    | none => simp
    | some below =>
      refine find?_bind_eq_none_iff.trans ?_
      simp [Option.isSome_iff_ne_none]

theorem rowFault?_eq_none_iff {i : Nat} : rows.rowFault? i = none ↔
    (∀ row, rows[i]? = some row → row.Separates) ∧ rows.continuityFault? i = none := by
  unfold rowFault?
  rw [Option.or_eq_none_iff, Option.map_eq_none_iff]
  refine and_congr_left fun _ => ?_
  cases rows[i]? with
  | none => simp
  | some row => simp [Row.laneFault?_eq_none_iff]

/-- The check passes a layout exactly if it is coherent. -/
theorem check_eq_ok_iff {all : Bool} : rows.check h all = .ok () ↔ rows.Coherent h all := by
  have hcheck : rows.check h all = .ok () ↔ rows.fault? h all = none := by
    unfold check
    cases rows.fault? h all <;> simp
  have hall : (if all then rows.lastFault? h else none) = none ↔
      (all → rows.lastFault? h = none) := by
    cases all <;> simp
  have hrows : (List.range rows.size).findSome? rows.rowFault? = none ↔
      ∀ i, rows.rowFault? i = none := by
    rw [List.findSome?_eq_none_iff]
    refine ⟨fun hnone i => ?_, fun hnone i _ => hnone i⟩
    rcases Nat.lt_or_ge i rows.size with hlt | hge
    · exact hnone i (List.mem_range.2 hlt)
    · -- There is no such row.
      simp [rowFault?, continuityFault?, Array.getElem?_eq_none hge]
  rw [hcheck, fault?, Option.or_eq_none_iff, Option.or_eq_none_iff, hall, hrows,
    firstFault?_eq_none_iff, lastFault?_eq_none_iff]
  simp only [rowFault?_eq_none_iff, continuityFault?_eq_none_iff, forall_and]
  constructor
  · rintro ⟨hfirst, hlast, hseparates, hgoes⟩
    exact ⟨hfirst, hlast, hseparates, hgoes⟩
  · rintro ⟨hfirst, hlast, hseparates, hgoes⟩
    exact ⟨hfirst, hlast, hseparates, hgoes⟩

/-! ## Rows that pass their strands on -/

section Threads

variable (threads : Threads h rows.contents)
include threads

private theorem child_eq_of_threads {row : Row} (hrow : rows[0]? = some row) {strand : Drawn}
    (hmem : strand ∈ row.drawn) : strand.child = row.revision := by
  have hchild := (threadsRow_of_getElem? threads hrow).child_mem _ (List.mem_map_of_mem hmem)
  simpa using hchild

theorem exists_below_of_threads {i : Nat} {row below : Row} (hrow : rows[i]? = some row)
    (hbelow : rows[i + 1]? = some below) {strand : Drawn} (hmem : strand ∈ row.drawn)
    (hgoes : strand.parent ≠ row.revision) :
    ∃ next ∈ below.drawn, next.toStrand = strand.toStrand := by
  have hcarried : carriedBelow (rows.contents.take (i + 1)) =
      row.strands.filter fun strand => strand.parent ≠ row.revision :=
    carriedBelow_take (content_of_getElem? hrow)
  have hstrand : strand.toStrand ∈ below.strands := by
    refine (threadsRow_of_getElem? threads hbelow).goes_on _ ?_
    rw [hcarried]
    exact List.mem_filter.2 ⟨List.mem_map_of_mem hmem, decide_eq_true hgoes⟩
  exact List.mem_map.1 hstrand

/-- What goes on below the last row ends at none of the rows. -/
private theorem parent_notMem_of_threads {row : Row} (hrow : rows.back? = some row) {strand : Drawn}
    (hmem : strand ∈ row.drawn) (hgoes : strand.parent ≠ row.revision) :
    strand.parent ∉ rows.revisions := by
  rw [Array.back?_eq_getElem?] at hrow
  have hparent := (threadsRow_of_getElem? threads hrow).parent_notMem _ (List.mem_map_of_mem hmem)
  have hlt := (Array.getElem?_eq_some_iff.1 hrow).1
  have hall : rows.revisions = rows.revisions.take (rows.size - 1) ++ [row.revision] := by
    have htake := revisions_take_succ hrow
    rwa [Nat.sub_add_cancel (Nat.one_le_of_lt hlt),
      List.take_of_length_le (length_revisions rows).le] at htake
  rw [hall, List.mem_append, List.mem_singleton, not_or]
  exact ⟨hparent, hgoes⟩

variable (hw : h.WellLinked)
include hw

private theorem subperm_arrived_of_threads : rows.revisions.Subperm h.arrived := by
  rw [← fst_contents]
  exact threads.nodup.subperm fun r hr => (hw.mem_arrived r).2 (threads.arrived r hr)

theorem size_le_of_threads : rows.size ≤ h.arrived.length :=
  length_revisions rows ▸ (subperm_arrived_of_threads threads hw).length_le

/-- Rows that show as many revisions as have arrived show all of them. -/
private theorem mem_revisions_of_threads (hall : rows.size = h.arrived.length) {r : Rev}
    (hr : (h.revision r).completed = true) : r ∈ rows.revisions := by
  have hperm := (subperm_arrived_of_threads threads hw).perm_of_length_le
    (hall.symm.trans (length_revisions rows).symm).le
  exact hperm.mem_iff.2 ((hw.mem_arrived r).2 hr)

theorem completed_eq_false_of_threads (hall : rows.size = h.arrived.length) {row : Row}
    (hrow : rows.back? = some row) {strand : Drawn} (hmem : strand ∈ row.drawn)
    (hgoes : strand.parent ≠ row.revision) : (h.revision strand.parent).completed = false := by
  rw [Bool.eq_false_iff]
  exact fun hcompleted => parent_notMem_of_threads threads hrow hmem hgoes
    (mem_revisions_of_threads threads hw hall hcompleted)

theorem coherent_of_threads {merge all : Bool} (shares : Shares merge rows)
    (hall : all → rows.size = h.arrived.length) : rows.Coherent h all where
  first _ hrow _ hmem := child_eq_of_threads threads hrow hmem
  last hlast row hrow strand hmem htouches :=
    completed_eq_false_of_threads threads hw (hall hlast) hrow hmem fun hends =>
      htouches (Strand.touches_iff.2 (.inl hends))
  separates i row hrow := (shares i row hrow).separates
  goes_on i row below hrow hbelow strand hmem hgoes := by
    obtain ⟨next, hnext, heq⟩ := exists_below_of_threads threads hrow hbelow hmem hgoes
    rw [Row.find?, List.find?_isSome]
    exact ⟨next, hnext, by simp [heq]⟩

end Threads

end Layout

end CommitLanes
