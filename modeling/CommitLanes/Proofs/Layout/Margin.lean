import CommitLanes.Proofs.Layout.Contents

/-! # How far up rows may still change

A shift is found for a row and made there or further down, and a sweep that goes back does so by its
look-ahead once and no further. So all that happens to the end of a layout stays within the margin
that is withheld there. -/

namespace CommitLanes

namespace Layout

variable {find : Layout → Nat → Option (List Shift)} {rows rows' rows'' : Layout} {m n : Nat}

/-- Above row `n` both layouts have the same rows. -/
def SameAbove (n : Nat) (rows rows' : Layout) : Prop := ∀ i < n, rows'[i]? = rows[i]?

namespace SameAbove

theorem refl (n : Nat) (rows : Layout) : SameAbove n rows rows := fun _ _ => rfl

theorem trans (first : SameAbove n rows rows') (second : SameAbove n rows' rows'') :
    SameAbove n rows rows'' := fun i hi => (second i hi).trans (first i hi)

theorem mono (same : SameAbove n rows rows') (hle : m ≤ n) : SameAbove m rows rows' :=
  fun i hi => same i (hi.trans_le hle)

theorem of_take_eq (htake : rows'.take n = rows.take n) : SameAbove n rows rows' := by
  intro i hi
  have hget := congrArg (fun rows : Layout => rows.toList[i]?) htake
  simpa only [Array.take_eq_extract, Array.toList_extract, List.extract_eq_take_drop, Nat.sub_zero,
    List.drop_zero, List.getElem?_take_of_lt hi, Array.getElem?_toList] using hget

end SameAbove

/-! ## Shifts -/

theorem sameAbove_shiftAll {moves : List Shift} (hmoves : ∀ move ∈ moves, n ≤ move.row)
    (rows : Layout) : SameAbove n rows (rows.shiftAll moves) := by
  refine shiftAll_induction (fun rows' move hmem same => same.trans fun i hi => ?_) (.refl n rows)
  rw [getElem?_shift]
  simp [(hi.trans_le (hmoves move hmem)).ne']

/-- What is found for a row is shifted there or further down. -/
def LooksDown (find : Layout → Nat → Option (List Shift)) : Prop :=
  ∀ rows row moves, find rows row = some moves → ∀ move ∈ moves, row ≤ move.row

/-- The sweep is at `row`, and from there it goes back at most to `floor` or by its look-ahead. After
the first shift the two are one row, which the sweep never leaves behind again. -/
theorem sameAbove_sweepWithin (hfind : LooksDown find) (stretch : Stretch) {budget floor row : Nat}
    (hrow : n ≤ row) (hback : n ≤ max floor (row - stretch.lookAhead)) (rows : Layout) :
    SameAbove n rows (sweepWithin find stretch budget floor row rows) := by
  induction budget generalizing floor row rows with
  | zero => exact .refl n rows
  | succ budget ih =>
    unfold sweepWithin
    split
    · exact .refl n rows
    · next r moves hnext =>
      obtain ⟨hr, hfound⟩ := nextShifts?_eq_some hnext
      have hfloor : n ≤ max floor (r - stretch.lookAhead) := by omega
      refine (sameAbove_shiftAll (fun move hmove => ?_) rows).trans
        (ih hfloor (hfloor.trans (le_max_left _ _)) _)
      exact (hrow.trans hr).trans (hfind rows r moves hfound move hmove)

theorem sameAbove_sweep {find : Stretch → Layout → Nat → Option (List Shift)} {stretch : Stretch}
    (hfind : LooksDown (find stretch)) (rows : Layout) :
    SameAbove (stretch.start - stretch.lookAhead) rows (sweep find stretch rows) := by
  unfold sweep
  split
  · exact sameAbove_sweepWithin hfind stretch (Nat.sub_le _ _) (le_max_right _ _) rows
  · exact .refl _ rows

/-! ## What the two sweeps find -/

private theorem le_row_of_mem_shifts {zigzag : Zigzag} {move : Shift}
    (hmem : move ∈ zigzag.shifts) : zigzag.row ≤ move.row := by
  obtain ⟨row, hrow, rfl⟩ := List.mem_map.1 hmem
  exact (List.mem_range'_1.1 hrow).1

private theorem row_of_findZigzag? {row last maxLanes : Nat} {zigzag : Zigzag}
    (hfound : rows.findZigzag? row last maxLanes = some zigzag) : zigzag.row = row := by
  obtain ⟨strand, -, hzigzag⟩ := List.exists_of_findSome?_eq_some hfound
  unfold zigzagOf? at hzigzag
  dsimp only at hzigzag
  split at hzigzag
  · obtain ⟨stop, -, rfl⟩ := Option.map_eq_some_iff.1 hzigzag
    rfl
  · cases hzigzag

theorem looksDown_zigzags (stretch : Stretch) : LooksDown fun rows row =>
    (rows.findZigzag? row (stretch.horizonFrom row) stretch.maxLanes).map Zigzag.shifts := by
  intro rows row moves hmoves move hmem
  obtain ⟨zigzag, hfound, rfl⟩ := Option.map_eq_some_iff.1 hmoves
  rw [← row_of_findZigzag? hfound]
  exact le_row_of_mem_shifts hmem

end Layout

namespace Bend

variable {b : Bend} {moves found : List Shift}

theorem row_of_mem_shiftHere {width : Nat} {move : Shift} (hmem : move ∈ b.shiftHere width) :
    move.row = b.row := by
  rw [List.mem_singleton.1 hmem]

/-- A diagonal is followed down, and so are the shifts that make it. -/
private theorem le_row_of_diagonalFrom? {slope : Int} {count row : Nat} {s : Seg} {above : Int}
    (hrow : b.row ≤ row) (hmoves : ∀ move ∈ moves, b.row ≤ move.row)
    (hfound : b.diagonalFrom? slope count row s above moves = some found) :
    ∀ move ∈ found, b.row ≤ move.row := by
  induction count generalizing row s above moves with
  | zero => cases hfound
  | succ count ih =>
    unfold diagonalFrom? at hfound
    dsimp only at hfound
    split at hfound
    · cases hfound
    · next strand _ =>
      generalize wrapInt (wrapInt (above + slope) - position strand.lane) = behind at hfound
      split at hfound
      · cases hfound
      split at hfound
      · -- The diagonal ends after its first shift.
        cases hfound
        exact fun move hmem => hmoves move (List.mem_of_mem_take hmem)
      split at hfound
      · cases hfound
        exact hmoves
      split at hfound
      · cases hfound
      · refine ih (Nat.le_succ_of_le hrow) (fun move hmem => ?_) hfound
        split at hmem
        · exact hmoves move hmem
        · rcases List.mem_append.1 hmem with hmem | hmem
          · exact hmoves move hmem
          · rw [List.mem_singleton.1 hmem]
            exact hrow

private theorem le_row_of_shifts? (hfound : b.shifts? = some found) :
    ∀ move ∈ found, b.row ≤ move.row := by
  have hhere (width : Nat) : ∀ move ∈ b.shiftHere width, b.row ≤ move.row :=
    fun move hmem => (row_of_mem_shiftHere hmem).ge
  have hdiagonal {slope : Int} (heq : b.diagonal? slope = some found) :
      ∀ move ∈ found, b.row ≤ move.row :=
    le_row_of_diagonalFrom? le_rfl (fun _ hmem => absurd hmem List.not_mem_nil) heq
  unfold shifts? at hfound
  rcases Option.or_eq_some_iff.1 hfound with hpostpone | ⟨-, hfound⟩
  · unfold postpone? at hpostpone
    split at hpostpone
    · cases hpostpone
      exact hhere 1
    · cases hpostpone
  rcases Option.or_eq_some_iff.1 hfound with hright | ⟨-, hfound⟩
  · exact hdiagonal hright
  rcases Option.or_eq_some_iff.1 hfound with hleft | ⟨-, hjoin⟩
  · exact hdiagonal hleft
  · unfold join? at hjoin
    dsimp only at hjoin
    split at hjoin
    · cases hjoin
      exact hhere _
    · cases hjoin

end Bend

namespace Layout

theorem looksDown_diagonals (stretch : Stretch) : LooksDown fun rows row =>
    rows.findDiagonal? row (stretch.horizonFrom row) stretch.maxLanes := by
  intro rows row moves hmoves
  obtain ⟨strand, -, hfound⟩ := List.exists_of_findSome?_eq_some hmoves
  exact Bend.le_row_of_shifts? hfound

/-! ## The end of a layout -/

variable {config : Config} {rows rows' : Layout} {n start : Nat}

theorem lookAhead_stretch? {last reach lookAhead : Nat} {final : Bool} {stretch : Stretch}
    (hstretch : config.stretch? start last reach lookAhead final = some stretch) :
    stretch.lookAhead = lookAhead := by
  unfold Config.stretch? at hstretch
  dsimp only at hstretch
  generalize (if final = true then 1 else reach) = withheld at hstretch
  split at hstretch
  · cases hstretch
    rfl
  · cases hstretch

private theorem start_stretch? {last reach lookAhead : Nat} {final : Bool} {stretch : Stretch}
    (hstretch : config.stretch? start last reach lookAhead final = some stretch) :
    start - reach ≤ stretch.start := by
  unfold Config.stretch? at hstretch
  dsimp only at hstretch
  generalize (if final = true then 1 else reach) = withheld at hstretch
  split at hstretch
  · cases hstretch
    exact le_max_left _ _
  · cases hstretch

/-- Straightening after the rows from `start` down are new changes no row above them but those that
are withheld. -/
theorem sameAbove_straighten (hfits : config.fullLookAhead < UInt64.size)
    (hstart : n + config.fullLookAhead ≤ start) (final : Bool) (rows : Layout) :
    SameAbove n rows (rows.straighten config start final) := by
  unfold Config.fullLookAhead at hfits hstart
  have hreach : config.diagonalReach = config.laneLookAhead + config.diagonalLookAhead :=
    wrapSize_of_lt (by omega)
  have hlanes {stretch : Stretch} (hstretch : config.stretch? start (rows.size - 1)
      config.laneLookAhead config.laneLookAhead final = some stretch) :
      SameAbove n rows (straightenLanes stretch rows) := by
    have hle := start_stretch? hstretch
    have hlook := lookAhead_stretch? hstretch
    exact (sameAbove_sweep (looksDown_zigzags stretch) rows).mono (by omega)
  have hdiagonals {stretch : Stretch} (rows' : Layout) (hstretch : config.stretch? start
      (rows.size - 1) config.diagonalReach config.diagonalLookAhead final = some stretch) :
      SameAbove n rows' (straightenDiagonals stretch rows') := by
    have hle := start_stretch? hstretch
    have hlook := lookAhead_stretch? hstretch
    exact (sameAbove_sweep (looksDown_diagonals stretch) rows').mono (by omega)
  unfold straighten
  dsimp only
  split
  · split
    · next hstretch => exact hlanes hstretch
    · exact .refl n rows
  · split
    · next hstretch =>
      refine SameAbove.trans ?_ (hdiagonals _ hstretch)
      split
      · next hstretch => exact hlanes hstretch
      · exact .refl n rows
    · split
      · next hstretch => exact hlanes hstretch
      · exact .refl n rows

theorem sameAbove_drawTo (h : History) (config : Config) (order : List Rev) (last : Nat)
    (rows : Layout) : SameAbove rows.size rows (rows.drawTo h config order last) :=
  .of_take_eq (take_drawAll h config order _ rows le_rfl)

/-! ## Layouts that agree with the order -/

private theorem agreement_eq_size {order : List Rev} (hagrees : rows.revisions <+: order) :
    rows.agreement order = rows.size := by
  obtain ⟨more, rfl⟩ := hagrees
  have hlist (rows : List Row) : ((rows.zip (rows.map (·.revision) ++ more)).takeWhile
      fun x => decide (x.1.revision = x.2)).length = rows.length := by
    induction rows with
    | nil => rfl
    | cons row rest ih => simp [ih]
  exact hlist rows.toList

theorem keep_eq_self {order : List Rev} (hagrees : rows.revisions <+: order) :
    rows.keep config order = rows := by
  unfold keep
  rw [agreement_eq_size hagrees, if_neg (Nat.lt_irrefl _)]

/-- A layout that agrees with the order loses no rows. -/
theorem Extension.size_le {h : History} {order : List Rev} {last : Nat} {completed : Bool}
    (extension : Extension h config order last completed rows rows')
    (hagrees : rows.revisions <+: order) : rows.size ≤ rows'.size := by
  cases extension with
  | kept => rw [keep_eq_self hagrees]
  | drawn final hlast hbelow =>
    rw [keep_eq_self hagrees] at hbelow ⊢
    have hpossible := lastRow?_lt hlast
    rw [size_straighten, size_drawTo h config (by omega)]
    exact le_max_left _ _

end Layout

end CommitLanes
