import CommitLanes.Proofs.Layout.Relabel
import CommitLanes.Proofs.Layout.Strict

/-! # Straightening

Both passes go down the rows one by one and back up after each shift. Here that walk is a relation
which holds only if the walk comes to an end and looks up no row that is not there. It always does,
with the layout that the sweep gives, and in that the lanes of each row are renumbered in order. -/

namespace CommitLanes

namespace Layout

/-- The two ways to straighten rows. -/
inductive Pass where
  | zigzags
  | diagonals
  deriving DecidableEq

namespace Pass

/-- What is to be shifted for a row. -/
def find? : Pass → Stretch → Layout → Nat → Option (List Shift)
  | .zigzags, stretch, rows, row =>
    (rows.findZigzag? row (stretch.horizonFrom row) stretch.maxLanes).map Zigzag.shifts
  | .diagonals, stretch, rows, row =>
    rows.findDiagonal? row (stretch.horizonFrom row) stretch.maxLanes

/-- The layout that is straightened. -/
def straighten : Pass → Stretch → Layout → Layout
  | .zigzags => straightenLanes
  | .diagonals => straightenDiagonals

/-- What is to be shifted for a row, looked for by looking rows up. -/
def search? : Pass → Stretch → Layout → Nat → Option (Option (List Shift))
  | .zigzags, stretch, rows, row =>
    (Strict.findZigzag? rows row (stretch.horizonFrom row) stretch.maxLanes).map
      (Option.map Zigzag.shifts)
  | .diagonals, stretch, rows, row =>
    Strict.findDiagonal? rows row (stretch.horizonFrom row) stretch.maxLanes

theorem straighten_eq_sweep (pass : Pass) (stretch : Stretch) (rows : Layout) :
    pass.straighten stretch rows = sweep pass.find? stretch rows := by
  cases pass <;> rfl

/-- The walk is at `row`, has made `made` times shifts and does not go back above `floor`. -/
inductive Walks (pass : Pass) (stretch : Stretch) : Nat → Nat → Nat → Layout → Layout → Prop
  | arrived {row floor made : Nat} {rows : Layout} (hrow : stretch.last < row) :
    Walks pass stretch row floor made rows rows
  | down {row floor made : Nat} {rows out : Layout} (hrow : row ≤ stretch.last)
    (hsearch : pass.search? stretch rows row = some none)
    (rest : Walks pass stretch (row + 1) (max floor (row - stretch.lookAhead)) made rows out) :
    Walks pass stretch row floor made rows out
  | spent {row floor made : Nat} {rows out : Layout} {moves : List Shift}
    (hrow : row ≤ stretch.last) (hsearch : pass.search? stretch rows row = some (some moves))
    (hshift : Strict.shiftAll rows moves = some out) (hmade : stretch.budget ≤ made + 1) :
    Walks pass stretch row floor made rows out
  | back {row floor made : Nat} {rows shifted out : Layout} {moves : List Shift}
    (hrow : row ≤ stretch.last) (hsearch : pass.search? stretch rows row = some (some moves))
    (hshift : Strict.shiftAll rows moves = some shifted) (hmade : made + 1 < stretch.budget)
    (rest : Walks pass stretch
      (max (row - stretch.lookAhead) (max floor (row - stretch.lookAhead)))
      (max floor (row - stretch.lookAhead)) (made + 1) shifted out) :
    Walks pass stretch row floor made rows out

/-- The pass comes to an end with the layout `out`. -/
inductive Runs (pass : Pass) (stretch : Stretch) (rows : Layout) : Layout → Prop
  | idle (hunfit : ¬ stretch.Fits rows) : Runs pass stretch rows rows
  | walks {out : Layout} (hfits : stretch.Fits rows)
    (walk : Walks pass stretch stretch.start 1 0 rows out) : Runs pass stretch rows out

variable {pass : Pass} {stretch : Stretch} {rows out : Layout} {row floor made : Nat}

/-! ## The walk has one outcome -/

private theorem Walks.eq_of_walks {out' : Layout}
    (walk : Walks pass stretch row floor made rows out)
    (walk' : Walks pass stretch row floor made rows out') : out' = out := by
  induction walk with
  | arrived hrow =>
    cases walk' with
    | arrived => rfl
    | down hrow' | spent hrow' | back hrow' => exact absurd hrow (Nat.not_lt.2 hrow')
  | down hrow hsearch _ ih =>
    cases walk' with
    | arrived hrow' => exact absurd hrow' (Nat.not_lt.2 hrow)
    | down _ _ rest => exact ih rest
    | spent _ hsearch' | back _ hsearch' => cases hsearch.symm.trans hsearch'
  | spent hrow hsearch hshift hmade =>
    cases walk' with
    | arrived hrow' => exact absurd hrow' (Nat.not_lt.2 hrow)
    | down _ hsearch' => cases hsearch.symm.trans hsearch'
    | spent _ hsearch' hshift' =>
      cases hsearch.symm.trans hsearch'
      exact Option.some.inj (hshift'.symm.trans hshift)
    | back _ _ _ hmade' => exact absurd hmade' (Nat.not_lt.2 hmade)
  | back hrow hsearch hshift hmade _ ih =>
    cases walk' with
    | arrived hrow' => exact absurd hrow' (Nat.not_lt.2 hrow)
    | down _ hsearch' => cases hsearch.symm.trans hsearch'
    | spent _ _ _ hmade' => exact absurd hmade (Nat.not_lt.2 hmade')
    | back _ hsearch' hshift' _ rest =>
      cases hsearch.symm.trans hsearch'
      cases hshift.symm.trans hshift'
      exact ih rest

private theorem Runs.eq_of_runs {out' : Layout} (runs : Runs pass stretch rows out)
    (runs' : Runs pass stretch rows out') : out' = out := by
  cases runs with
  | idle hunfit =>
    cases runs' with
    | idle => rfl
    | walks hfits => exact absurd hfits hunfit
  | walks hfits walk =>
    cases runs' with
    | idle hunfit => exact absurd hfits hunfit
    | walks _ walk' => exact walk.eq_of_walks walk'

end Pass

/-! ## What is found lies above the last row -/

variable {rows : Layout} {row last : Nat}

private theorem returnRow?_eq_some {lane above : Int} {count : Nat} {s : Seg} {stop : Nat}
    (hreturn : rows.returnRow? lane above count row s = some stop) :
    row ≤ stop ∧ stop < row + count := by
  induction count generalizing row s with
  | zero => cases hreturn
  | succ count ih =>
    unfold returnRow? at hreturn
    dsimp only at hreturn
    split at hreturn
    · cases hreturn
      omega
    · split at hreturn
      · obtain ⟨hle, hlt⟩ := ih hreturn
        omega
      · cases hreturn

private theorem stop_le_of_findZigzag? {maxLanes : Nat} {zigzag : Zigzag}
    (hfound : rows.findZigzag? row last maxLanes = some zigzag) : zigzag.stop ≤ last := by
  obtain ⟨strand, -, hzigzag⟩ := List.exists_of_findSome?_eq_some hfound
  unfold zigzagOf? at hzigzag
  dsimp only at hzigzag
  split at hzigzag
  · obtain ⟨stop, hreturn, rfl⟩ := Option.map_eq_some_iff.1 hzigzag
    obtain ⟨hle, hlt⟩ := returnRow?_eq_some hreturn
    dsimp only
    omega
  · cases hzigzag

end Layout

namespace Bend

variable {b : Bend} {moves found : List Shift}

private theorem le_last_of_goesOnTo {place : Int} (hgoes : b.goesOnTo place = true) :
    b.row + 2 ≤ b.last :=
  of_decide_eq_true (Bool.and_eq_true_iff.1 hgoes).1

private theorem lt_last_of_diagonalFrom? {slope : Int} {count row : Nat} {s : Seg} {above : Int}
    (hcount : row + count ≤ b.last + 1) (hmoves : ∀ move ∈ moves, move.row < row)
    (hfound : b.diagonalFrom? slope count row s above moves = some found) :
    ∀ move ∈ found, move.row < b.last := by
  induction count generalizing row s above moves with
  | zero => cases hfound
  | succ count ih =>
    have hlast : ∀ move ∈ moves, move.row < b.last := by
      intro move hmem
      have hlt := hmoves move hmem
      omega
    unfold diagonalFrom? at hfound
    dsimp only at hfound
    split at hfound
    · cases hfound
    · next strand _ =>
      generalize wrapInt (wrapInt (above + slope) - position strand.lane) = behind at hfound
      split at hfound
      · cases hfound
      split at hfound
      · -- The diagonal ends after its first shift.
        cases hfound
        exact fun move hmem => hlast move (List.mem_of_mem_take hmem)
      split at hfound
      · cases hfound
        exact hlast
      split at hfound
      · cases hfound
      · refine ih (by omega) (fun move hmem => ?_) hfound
        split at hmem
        · exact Nat.lt_succ_of_lt (hmoves move hmem)
        · rcases List.mem_append.1 hmem with hmem | hmem
          · exact Nat.lt_succ_of_lt (hmoves move hmem)
          · rw [List.mem_singleton.1 hmem]
            exact Nat.lt_succ_self row

private theorem lt_size_of_shifts? (hlast : b.last < b.rows.size)
    (hfound : b.shifts? = some found) : ∀ move ∈ found, move.row + 1 < b.rows.size := by
  have hdiagonal {slope : Int} (heq : b.diagonal? slope = some found) :
      ∀ move ∈ found, move.row + 1 < b.rows.size := by
    unfold diagonal? at heq
    rcases Nat.le_total b.row (b.last + 1) with hle | hge
    · intro move hmem
      have hlt := lt_last_of_diagonalFrom? (Nat.add_sub_cancel' hle).le
        (fun _ hmem => absurd hmem List.not_mem_nil) heq move hmem
      omega
    · -- No row is left to look at.
      rw [Nat.sub_eq_zero_of_le hge] at heq
      cases heq
  unfold shifts? at hfound
  rcases Option.or_eq_some_iff.1 hfound with hpostpone | ⟨-, hfound⟩
  · unfold postpone? at hpostpone
    split at hpostpone
    · next hshape =>
      cases hpostpone
      have hle := le_last_of_goesOnTo hshape.2.2.1
      intro move hmem
      rw [row_of_mem_shiftHere hmem]
      omega
    · cases hpostpone
  rcases Option.or_eq_some_iff.1 hfound with hright | ⟨-, hfound⟩
  · exact hdiagonal hright
  rcases Option.or_eq_some_iff.1 hfound with hleft | ⟨-, hjoin⟩
  · exact hdiagonal hleft
  · unfold join? at hjoin
    dsimp only at hjoin
    split at hjoin
    · next hshape =>
      cases hjoin
      intro move hmem
      rw [row_of_mem_shiftHere hmem]
      exact Layout.lt_size_of_positionOf hshape.2.2.1
    · cases hjoin

end Bend

namespace Layout.Pass

variable {pass : Pass} {stretch : Stretch} {rows out : Layout} {row floor made : Nat}
  {moves : List Shift}

private theorem lt_size_of_find? (hsize : stretch.horizon < rows.size)
    (hfound : pass.find? stretch rows row = some moves) :
    ∀ move ∈ moves, move.row + 1 < rows.size := by
  have hhorizon : stretch.horizonFrom row ≤ stretch.horizon := min_le_right _ _
  cases pass with
  | zigzags =>
    obtain ⟨zigzag, hzigzag, rfl⟩ := Option.map_eq_some_iff.1 hfound
    have hstop := stop_le_of_findZigzag? hzigzag
    intro move hmem
    obtain ⟨r, hr, rfl⟩ := List.mem_map.1 hmem
    obtain ⟨hle, hlt⟩ := List.mem_range'_1.1 hr
    dsimp only
    omega
  | diagonals =>
    obtain ⟨strand, -, hshifts⟩ := List.exists_of_findSome?_eq_some hfound
    exact Bend.lt_size_of_shifts? (hhorizon.trans_lt hsize) hshifts

theorem looksDown (pass : Pass) (stretch : Stretch) : LooksDown (pass.find? stretch) := by
  cases pass with
  | zigzags => exact looksDown_zigzags stretch
  | diagonals => exact looksDown_diagonals stretch

/-- All rows that are looked up for a row of a stretch that fits are there. -/
private theorem search?_eq_some (hfits : stretch.Fits rows) (hpos : 0 < row)
    (hrow : row ≤ stretch.last) :
    pass.search? stretch rows row = some (pass.find? stretch rows row) := by
  obtain ⟨-, -, hlast, hsize⟩ := hfits
  have begins : Begins rows.size rows rows := ⟨.refl _ _, le_rfl⟩
  have hthere : row < rows.size := by omega
  have hhorizon : stretch.horizonFrom row < rows.size := (min_le_right _ _).trans_lt hsize
  cases pass with
  | zigzags =>
    exact congrArg (Option.map (Option.map Zigzag.shifts))
      (begins.findZigzag? hpos hthere hhorizon stretch.maxLanes)
  | diagonals => exact begins.findDiagonal? hpos hthere hhorizon (by omega) _

private theorem find?_eq_none (hlanes : stretch.maxLanes = 0) (rows : Layout) (row : Nat) :
    pass.find? stretch rows row = none := by
  have hexamined : rows.examined row 0 = [] := by
    unfold examined
    split <;> rfl
  cases pass with
  | zigzags => simp [find?, findZigzag?, hlanes, hexamined]
  | diagonals => simp [find?, findDiagonal?, hlanes, hexamined]

end Layout.Pass

namespace Layout

variable {find : Layout → Nat → Option (List Shift)} {rows : Layout} {last row : Nat}

theorem nextShifts?_of_lt (hrow : last < row) : nextShifts? find last rows row = none := by
  simp [nextShifts?, Nat.sub_eq_zero_of_le hrow]

theorem nextShifts?_of_le (hrow : row ≤ last) :
    nextShifts? find last rows row =
      ((find rows row).map (row, ·)).or (nextShifts? find last rows (row + 1)) := by
  have hcount : last + 1 - row = last + 1 - (row + 1) + 1 := by omega
  unfold nextShifts?
  rw [hcount, List.range'_succ, List.findSome?_cons]
  cases find rows row <;> rfl

end Layout

namespace Layout.Pass

variable {pass : Pass} {stretch : Stretch} {rows out : Layout} {row floor made : Nat}

/-! ## The sweep is the outcome of the walk -/

/-- The walk goes down to the next row for which there is something to shift. On its way it raises the
floor, which makes no difference to how far it goes back from there. -/
private theorem walks_of_nextShifts? (hfits : stretch.Fits rows) (hpos : 0 < row)
    (hnone : nextShifts? (pass.find? stretch) stretch.last rows row = none → out = rows)
    (hsome : ∀ r moves floor',
      nextShifts? (pass.find? stretch) stretch.last rows row = some (r, moves) →
      row ≤ r → r ≤ stretch.last → pass.find? stretch rows r = some moves →
      max floor' (r - stretch.lookAhead) = max floor (r - stretch.lookAhead) →
      Walks pass stretch r floor' made rows out) :
    Walks pass stretch row floor made rows out := by
  induction hcount : stretch.last + 1 - row generalizing row floor with
  | zero =>
    have hrow : stretch.last < row := by omega
    rw [hnone (nextShifts?_of_lt hrow)]
    exact .arrived hrow
  | succ count ih =>
    have hrow : row ≤ stretch.last := by omega
    have hsearch : pass.search? stretch rows row = some (pass.find? stretch rows row) :=
      search?_eq_some hfits hpos hrow
    have hnext : nextShifts? (pass.find? stretch) stretch.last rows row = _ :=
      nextShifts?_of_le hrow
    cases hfind : pass.find? stretch rows row with
    | none =>
      rw [hfind] at hsearch hnext
      rw [hnext] at hnone hsome
      refine .down hrow hsearch (ih (Nat.succ_pos row) hnone ?_ (by omega))
      intro r moves floor' hnext' hle hlast hfound hfloor
      exact hsome r moves floor' hnext' (by omega) hlast hfound (by omega)
    | some moves =>
      rw [hfind] at hnext
      exact hsome row moves floor hnext le_rfl hrow hfind rfl

theorem walks_sweepWithin {budget floor' : Nat} (hfits : stretch.Fits rows) (hpos : 0 < row)
    (hfloor : 0 < floor) (hbudget : made + (budget + 1) = stretch.budget)
    (hback : max floor' (row - stretch.lookAhead) = max floor (row - stretch.lookAhead)) :
    Walks pass stretch row floor made rows
      (sweepWithin (pass.find? stretch) stretch (budget + 1) floor' row rows) := by
  induction budget using Nat.strongRecOn generalizing row floor floor' made rows with
  | ind budget ih =>
    rw [sweepWithin]
    refine walks_of_nextShifts? hfits hpos (fun hnone => by rw [hnone]) ?_
    intro r moves floor₁ hnext hle hlast hfind hfloor₁
    have hrpos : 0 < r := by omega
    have hsearch := (search?_eq_some hfits hrpos hlast).trans (congrArg some hfind)
    have hsize := lt_size_of_find? hfits.2.2.2 hfind
    have hshift := strict_shiftAll fun move hmem => Nat.lt_of_succ_lt (hsize move hmem)
    -- The sweep goes back to the same row.
    have hfloor' : max floor' (r - stretch.lookAhead) = max floor₁ (r - stretch.lookAhead) := by
      omega
    rw [hnext]
    dsimp only
    rw [hfloor']
    cases budget with
    | zero => exact .spent hlast hsearch hshift (by omega)
    | succ budget =>
      refine .back hlast hsearch hshift (by omega) ?_
      have hfits' : stretch.Fits (rows.shiftAll moves) := by
        unfold Stretch.Fits
        rwa [size_shiftAll]
      have hrow : max (r - stretch.lookAhead) (max floor₁ (r - stretch.lookAhead)) =
          max floor₁ (r - stretch.lookAhead) := by omega
      rw [hrow]
      exact ih budget (Nat.lt_succ_self budget) hfits' (by omega) (by omega) (by omega) rfl

/-- A pass comes to an end without a look-up of a row that is not there, and what comes of it is the
layout that is straightened. -/
private theorem runs_iff : Runs pass stretch rows out ↔ out = pass.straighten stretch rows := by
  have hruns : Runs pass stretch rows (pass.straighten stretch rows) := by
    rw [straighten_eq_sweep, sweep]
    split
    · next hfits =>
      refine .walks hfits ?_
      rcases Nat.eq_zero_or_pos stretch.budget with hzero | hpos
      · -- No strands are examined.
        have hlanes : stretch.maxLanes = 0 := by
          have hle := hfits.2.1
          rw [Stretch.budget, Nat.mul_eq_zero, Nat.mul_eq_zero] at hzero
          omega
        rw [hzero]
        refine walks_of_nextShifts? hfits hfits.1 (fun _ => rfl) ?_
        intro r moves floor' _ _ _ hfind
        rw [find?_eq_none hlanes] at hfind
        cases hfind
      · obtain ⟨budget, hbudget⟩ := Nat.exists_eq_succ_of_ne_zero hpos.ne'
        rw [hbudget]
        exact walks_sweepWithin hfits hfits.1 Nat.one_pos (by omega) rfl
    · next hunfit => exact .idle hunfit
  constructor
  · exact hruns.eq_of_runs
  · rintro rfl
    exact hruns

/-! ## What is left as it was -/

private theorem straighten_eq_self (hunfit : ¬ stretch.Fits rows) :
    pass.straighten stretch rows = rows := by
  rw [straighten_eq_sweep, sweep, if_neg hunfit]

theorem relabels_straighten (pass : Pass) (stretch : Stretch) (rows : Layout) :
    Relabels rows (pass.straighten stretch rows) := by
  rw [straighten_eq_sweep]
  exact relabels_sweep _ stretch rows

/-- The first row is never examined, and the walk goes back by its look-ahead once at most. -/
theorem sameAbove_straighten (pass : Pass) (stretch : Stretch) (rows : Layout) :
    SameAbove (max 1 (stretch.start - stretch.lookAhead)) rows (pass.straighten stretch rows) := by
  rw [straighten_eq_sweep, sweep]
  split
  · next hfits =>
    have hstart : max 1 (stretch.start - stretch.lookAhead) ≤ stretch.start := by
      have hpos := hfits.1
      omega
    exact sameAbove_sweepWithin (pass.looksDown stretch) stretch hstart le_rfl rows
  · exact .refl _ rows

/-- A shift needs a row below. -/
theorem back?_straighten (pass : Pass) (stretch : Stretch) (rows : Layout) :
    (pass.straighten stretch rows).back? = rows.back? := by
  rw [straighten_eq_sweep, sweep]
  split
  · next hfits =>
    refine (sweepWithin_induction (P := fun rows' => rows'.size = rows.size ∧
      rows'.back? = rows.back?) (fun rows' row moves hfind same => ⟨?_, ?_⟩) stretch _ _ _
        ⟨rfl, rfl⟩).2
    · exact (size_shiftAll rows' moves).trans same.1
    · have hsize := lt_size_of_find? (hfits.2.2.2.trans_eq same.1.symm) hfind
      exact (back?_shiftAll hsize).trans same.2
  · rfl

/-- Each pass comes to an end and looks up no row that is not there. It renumbers the lanes of each
row in order, each to the same or a higher number, and changes nothing else. The first row, the last
one and those that are further up than the look-ahead stay as they are, and so do all rows if the
stretch does not fit. -/
theorem outcome_straighten (pass : Pass) (stretch : Stretch) (rows : Layout) :
    (∀ out, Runs pass stretch rows out ↔ out = pass.straighten stretch rows) ∧
      (pass.straighten stretch rows).size = rows.size ∧
      (∀ (i : Nat) (row : Row), rows[i]? = some row → ∃ f : Nat → Nat, StrictMono f ∧
        (∀ lane, lane ≤ f lane) ∧ (pass.straighten stretch rows)[i]? = some {
          revision := row.revision
          drawn := row.drawn.map fun strand => { strand with lane := f strand.lane }
          revisionLane := f row.revisionLane }) ∧
      (pass.straighten stretch rows)[0]? = rows[0]? ∧
      (pass.straighten stretch rows).back? = rows.back? ∧
      (∀ i < max 1 (stretch.start - stretch.lookAhead),
        (pass.straighten stretch rows)[i]? = rows[i]?) ∧
      (stretch.start = 0 ∨ stretch.last < stretch.start ∨ stretch.horizon < stretch.last ∨
        rows.size ≤ stretch.horizon → pass.straighten stretch rows = rows) := by
  have hsame := sameAbove_straighten pass stretch rows
  refine ⟨fun _ => runs_iff, ?_, fun i row hrow => ?_, hsame 0 (by omega),
    back?_straighten pass stretch rows, hsame, fun hunfit => straighten_eq_self fun hfits => ?_⟩
  · rw [straighten_eq_sweep]
    exact size_sweep _ stretch rows
  · obtain ⟨f, hf, hle, heq⟩ := relabels_straighten pass stretch rows i
    rw [hrow] at heq
    exact ⟨f, hf, hle, heq⟩
  · obtain ⟨hstart, hlast, hhorizon, hsize⟩ := hfits
    omega

end Layout.Pass

end CommitLanes
