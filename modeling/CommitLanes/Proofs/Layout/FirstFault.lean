import CommitLanes.Proofs.Layout.Check

/-! # The first fault

The check goes through the rows from the top, and in each row first through its lanes and then through
the strands that go on below it, both from the left. So what it reports of a layout whose ends are in
order is the first thing that is wrong. -/

namespace CommitLanes

variable {h : History} {rows : Layout}

/-! ## Searches that end at the first hit -/

/-- A list is split at its first element or in the rest. -/
private theorem exists_split_cons_iff {α : Type} {b : α} {rest : List α} {P : List α → α → Prop} :
    (∃ left x right, b :: rest = left ++ x :: right ∧ P left x) ↔
      P [] b ∨ ∃ left x right, rest = left ++ x :: right ∧ P (b :: left) x := by
  constructor
  · rintro ⟨left, x, right, heq, hx⟩
    rcases List.cons_eq_append_iff.1 heq with ⟨rfl, hcons⟩ | ⟨left, rfl, rfl⟩
    · cases hcons
      exact .inl hx
    · exact .inr ⟨left, x, right, rfl, hx⟩
  · rintro (hb | ⟨left, x, right, rfl, hx⟩)
    · exact ⟨[], b, rest, rfl, hb⟩
    · exact ⟨b :: left, x, right, rfl, hx⟩

/-- A search through the numbers below `n` ends at the first one that gives something. -/
private theorem findSome?_range_eq_some_iff {α : Type} {f : Nat → Option α} {n : Nat} {a : α} :
    (List.range n).findSome? f = some a ↔ ∃ i < n, f i = some a ∧ ∀ j < i, f j = none := by
  induction n with
  | zero => simp
  | succ n ih =>
    rw [List.range_succ, List.findSome?_append, Option.or_eq_some_iff, ih,
      List.findSome?_eq_none_iff, Nat.exists_lt_succ_right]
    simp [and_comm]

/-! ## In a row -/

namespace Row

/-- The strand is the leftmost primary one of the row whose lane has a primary strand to its left. -/
def FirstRepeat (row : Row) (strand : Drawn) : Prop :=
  ∃ left right, row.drawn = left ++ strand :: right ∧
    left.Pairwise (fun a b => a.sharing = .primary → b.sharing = .primary → a.lane ≠ b.lane) ∧
    strand.sharing = .primary ∧ ∃ a ∈ left, a.sharing = .primary ∧ a.lane = strand.lane

/-- The strand is the leftmost one of the row that goes on below it and is not in the next row. -/
def FirstLost (row below : Row) (strand : Drawn) : Prop :=
  ∃ left right, row.drawn = left ++ strand :: right ∧
    (∀ a ∈ left, a.parent ≠ row.revision → (below.find? a.segment).isSome) ∧
    strand.parent ≠ row.revision ∧ below.find? strand.segment = none

theorem repeatedLane?_eq_some_iff {used : List Nat} {drawn : List Drawn} {cause : RowFault} :
    repeatedLane? used drawn = some cause ↔
      ∃ left strand right, drawn = left ++ strand :: right ∧ repeatedLane? used left = none ∧
        strand.sharing = .primary ∧
        (strand.lane ∈ used ∨ ∃ a ∈ left, a.sharing = .primary ∧ a.lane = strand.lane) ∧
        cause = .laneInUse strand.segment strand.lane := by
  induction drawn generalizing used with
  | nil => simp [repeatedLane?]
  | cons b rest ih =>
    rw [exists_split_cons_iff]
    unfold repeatedLane?
    split
    · next hprimary =>
      split
      · next hused => simp [hprimary, hused, eq_comm]
      · next hfree =>
        rw [ih]
        simp [hprimary, hfree, or_assoc, eq_comm, or_left_comm]
    · next hshares =>
      rw [ih]
      simp [hshares]

theorem laneFault?_eq_some_iff {row : Row} {cause : RowFault} :
    row.laneFault? = some cause ↔
      ∃ strand, row.FirstRepeat strand ∧ cause = .laneInUse strand.segment strand.lane := by
  unfold laneFault?
  rw [repeatedLane?_eq_some_iff]
  simp only [repeatedLane?_eq_none_iff, List.not_mem_nil, false_or, not_false_eq_true,
    implies_true, true_and]
  constructor
  · rintro ⟨left, strand, right, hrow, hleft, hprimary, hrepeats, heq⟩
    exact ⟨strand, ⟨left, right, hrow, hleft, hprimary, hrepeats⟩, heq⟩
  · rintro ⟨strand, ⟨left, right, hrow, hleft, hprimary, hrepeats⟩, heq⟩
    exact ⟨left, strand, right, hrow, hleft, hprimary, hrepeats, heq⟩

private theorem firstLost_iff {row below : Row} {strand : Drawn} :
    row.FirstLost below strand ↔
      row.drawn.find? (fun strand =>
        strand.parent ≠ row.revision && (below.find? strand.segment).isNone) = some strand := by
  rw [List.find?_eq_some_iff_append]
  simp only [Bool.and_eq_true, decide_eq_true_eq, Option.isNone_iff_eq_none, Bool.not_eq_true',
    Bool.and_eq_false_imp, Option.isNone_eq_false_iff]
  constructor
  · rintro ⟨left, right, hrow, hleft, hlost⟩
    exact ⟨hlost, left, right, hrow, hleft⟩
  · rintro ⟨hlost, left, right, hrow, hleft⟩
    exact ⟨left, right, hrow, hleft, hlost⟩

end Row

namespace Layout

/-- The lanes of a row are kept apart, and what goes on below it is in the next row. -/
structure CoherentAt (rows : Layout) (i : Nat) : Prop where
  separates : ∀ row, rows[i]? = some row → row.Separates
  goes_on : ∀ row below, rows[i]? = some row → rows[i + 1]? = some below →
    ∀ strand ∈ row.drawn, strand.parent ≠ row.revision → (below.find? strand.segment).isSome

/-- What there is to report of a row: a lane that is in use, or else a strand that is lost below. -/
inductive FaultAt (rows : Layout) (i : Nat) : Fault → Prop
  | repeats {row : Row} {strand : Drawn} (hrow : rows[i]? = some row)
      (hfirst : row.FirstRepeat strand) :
    FaultAt rows i (.layout i (.laneInUse strand.segment strand.lane))
  | loses {row below : Row} {strand : Drawn} (hrow : rows[i]? = some row)
      (hbelow : rows[i + 1]? = some below) (hseparates : row.Separates)
      (hfirst : row.FirstLost below strand) :
    FaultAt rows i (.layout (i + 1) (.missing strand.segment i))

private theorem FaultAt.lt_size {i : Nat} {fault : Fault} (hfault : rows.FaultAt i fault) :
    i < rows.size := by
  cases hfault with
  | repeats hrow => exact (Array.getElem?_eq_some_iff.1 hrow).1
  | loses hrow => exact (Array.getElem?_eq_some_iff.1 hrow).1

private theorem rowFault?_eq_none_iff_coherentAt {i : Nat} :
    rows.rowFault? i = none ↔ rows.CoherentAt i := by
  rw [rowFault?_eq_none_iff, continuityFault?_eq_none_iff]
  exact ⟨fun hrow => ⟨hrow.1, hrow.2⟩, fun hrow => ⟨hrow.separates, hrow.goes_on⟩⟩

theorem continuityFault?_eq_some_iff {i : Nat} {fault : Fault} :
    rows.continuityFault? i = some fault ↔ ∃ row below strand, rows[i]? = some row ∧
      rows[i + 1]? = some below ∧ row.FirstLost below strand ∧
      .layout (i + 1) (.missing strand.segment i) = fault := by
  simp only [continuityFault?, Row.firstLost_iff]
  cases rows[i]? with
  | none => simp
  | some row =>
    cases rows[i + 1]? with
    | none => simp
    | some below => simp [Option.bind_eq_some_iff]

theorem rowFault?_eq_some_iff {i : Nat} {fault : Fault} :
    rows.rowFault? i = some fault ↔ rows.FaultAt i fault := by
  have hlane : (rows[i]?.bind Row.laneFault?).map (.layout i) = some fault ↔
      ∃ row strand, rows[i]? = some row ∧ row.FirstRepeat strand ∧
        .layout i (.laneInUse strand.segment strand.lane) = fault := by
    simp only [Option.map_eq_some_iff, Option.bind_eq_some_iff, Row.laneFault?_eq_some_iff]
    grind
  have hseparates : (rows[i]?.bind Row.laneFault?).map (Fault.layout i) = none ↔
      ∀ row, rows[i]? = some row → row.Separates := by
    rw [Option.map_eq_none_iff, Option.bind_eq_none_iff]
    simp only [Row.laneFault?_eq_none_iff]
  unfold rowFault?
  rw [Option.or_eq_some_iff, hlane, hseparates, continuityFault?_eq_some_iff]
  constructor
  · rintro (⟨row, strand, hrow, hfirst, rfl⟩ |
      ⟨hapart, row, below, strand, hrow, hbelow, hfirst, rfl⟩)
    · exact .repeats hrow hfirst
    · exact .loses hrow hbelow (hapart row hrow) hfirst
  · rintro (⟨hrow, hfirst⟩ | ⟨hrow, hbelow, hapart, hfirst⟩)
    · exact .inl ⟨_, _, hrow, hfirst, rfl⟩
    · refine .inr ⟨fun row hrow' => ?_, _, _, _, hrow, hbelow, hfirst, rfl⟩
      cases hrow.symm.trans hrow'
      exact hapart

/-! ## In a layout -/

/-- The check passes a layout exactly if it is coherent. If all strands of the first row start there and
none passes the last row of all to a commit that is loaded, the check reports what is wrong with the
topmost row of which something is: the leftmost strand in a lane that is in use, or else the leftmost
one that is lost below. -/
theorem check_reports_first (h : History) (rows : Layout) (all : Bool) :
    (rows.check h all = .ok () ↔ rows.Coherent h all) ∧
      ((∀ row, rows[0]? = some row → ∀ strand ∈ row.drawn, strand.child = row.revision) →
        (all → ∀ row, rows.back? = some row → ∀ strand ∈ row.drawn, ¬ strand.touches row.revision →
          (h.revision strand.parent).completed = false) →
        ∀ fault, rows.check h all = .error fault ↔
          ∃ i, rows.FaultAt i fault ∧ ∀ j < i, rows.CoherentAt j) := by
  refine ⟨check_eq_ok_iff, fun hfirst hlast fault => ?_⟩
  have hfirst := firstFault?_eq_none_iff.2 hfirst
  have hlast : (if all then rows.lastFault? h else none) = none := by
    split
    · next hall => exact lastFault?_eq_none_iff.2 (hlast hall)
    · rfl
  have hcheck : rows.check h all = .error fault ↔ rows.fault? h all = some fault := by
    unfold check
    cases rows.fault? h all <;> simp
  rw [hcheck, fault?, hfirst, hlast, Option.none_or, Option.none_or, findSome?_range_eq_some_iff]
  simp only [rowFault?_eq_some_iff, rowFault?_eq_none_iff_coherentAt]
  constructor
  · rintro ⟨i, -, hfault, habove⟩
    exact ⟨i, hfault, habove⟩
  · rintro ⟨i, hfault, habove⟩
    exact ⟨i, hfault.lt_size, hfault, habove⟩

/-- Two lines in one lane, of which none is in the row below. -/
def crowdedRows : Layout := #[
  { revision := 0
    drawn := [⟨⟨0, 0, 1, ⟨2, 0⟩⟩, 0, .primary⟩, ⟨⟨1, 0, 2, ⟨5, 0⟩⟩, 0, .primary⟩]
    revisionLane := 0 },
  { revision := 3, drawn := [], revisionLane := 0 }]

/-- The strand on the left is lost below, but what is wrong with the lanes comes first. -/
theorem check_reports_first_crowdedRows :
    (∀ row, crowdedRows[0]? = some row → ∀ strand ∈ row.drawn, strand.child = row.revision) ∧
      check {} crowdedRows false = .error (.layout 0 (.laneInUse 1 0)) ∧
      ∃ i, crowdedRows.FaultAt i (.layout 0 (.laneInUse 1 0)) ∧
        ∀ j < i, crowdedRows.CoherentAt j := by
  have hfirst : ∀ row, crowdedRows[0]? = some row →
      ∀ strand ∈ row.drawn, strand.child = row.revision := by
    intro row hrow
    cases hrow
    decide
  have hcheck : check {} crowdedRows false = .error (.layout 0 (.laneInUse 1 0)) := by decide
  obtain ⟨-, hreports⟩ := check_reports_first {} crowdedRows false
  exact ⟨hfirst, hcheck, (hreports hfirst nofun _).1 hcheck⟩

end Layout

end CommitLanes
