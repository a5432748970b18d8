import CommitLanes.Proofs.Layout.Ladder

/-! # Diagonals are straight

The search for a diagonal follows a line down the rows, too. Each of the three shapes that it looks for
is changed by shifts at the line itself, and in the rows that are shifted the line is then where it has
to be: on a diagonal that comes from its lane in the row above, or beside only one other step.

Positions wrap around. That does no harm where a line is followed, since all that is found is a shift to
the right by less than half of all lanes; only the two steps of a line that stands left of lane 0 itself
may come out with the wrong sign. -/

namespace CommitLanes

variable {rows : Layout} {b : Bend} {row last steps skip : Nat} {s : Seg} {strand : Drawn}
  {moves : List Shift} {base slope : Int}

namespace Layout

private theorem lane?_of_strand? (hstrand : rows.strand? row s = some strand) :
    rows.lane? row s = some strand.lane := by
  obtain ⟨r, hr, hfind⟩ := Option.bind_eq_some_iff.1 hstrand
  rw [lane?, hr, Option.bind_some, Row.lane?, hfind, Option.map_some]

/-- The lane of a segment in a row, if it stands at its own number. -/
def nearLane? (rows : Layout) (row : Nat) (s : Seg) : Option Nat :=
  (rows.lane? row s).filter (· < farLane)

/-! ## Lanes and positions -/

private theorem fits_position {lane : Nat} (hlane : lane < UInt64.size) : Fits (position lane) := by
  unfold Fits position farLane
  unfold UInt64.size at hlane
  split <;> omega

private theorem position_nonneg_iff {lane : Nat} (hlane : lane < UInt64.size) :
    0 ≤ position lane ↔ lane < farLane := by
  unfold position farLane
  unfold UInt64.size at hlane
  split <;> omega

/-- What is one place right of a lane is at the place of the next lane. -/
private theorem eq_position_succ {lane : Nat} {place : Int} (hlane : lane + 1 < UInt64.size)
    (hfits : Fits place) (heq : position lane = wrapInt (place - 1)) : place = position (lane + 1) := by
  unfold Fits at hfits
  obtain ⟨hge, hlt⟩ := fits_position hlane
  obtain ⟨j, hj⟩ := exists_wrapInt_eq (place - 1)
  obtain ⟨k, hk⟩ := exists_position_eq lane
  obtain ⟨m, hm⟩ := exists_position_eq (lane + 1)
  omega

private theorem natAbs_position_succ {lane : Nat} (hnear : lane < farLane) :
    (position (lane + 1)).natAbs = lane + 1 := by
  unfold position farLane at *
  split <;> omega

section Real

variable (hreal : LanesBelow UInt64.size rows)
include hreal

/-- Only a lane that stands at its own number stands right of −1. -/
private theorem LanesBelow.lane?_of_positionOf (hnonneg : 0 ≤ rows.positionOf row s) :
    ∃ lane, rows.lane? row s = some lane ∧ lane < farLane ∧ rows.positionOf row s = lane := by
  unfold positionOf at hnonneg ⊢
  cases hlane : rows.lane? row s with
  | none => simp [hlane] at hnonneg
  | some lane =>
    rw [hlane] at hnonneg
    have hnear := (position_nonneg_iff (hreal.lane?_lt hlane)).1 hnonneg
    exact ⟨lane, rfl, hnear, position_of_lt hnear⟩

private theorem LanesBelow.fits_positionOf (row : Nat) (s : Seg) :
    Fits (rows.positionOf row s) := by
  unfold positionOf
  cases hlane : rows.lane? row s with
  | none => decide
  | some lane => exact fits_position (hreal.lane?_lt hlane)

/-- A diagonal comes from the lane in a row above if that stands at its own number, or else from the
line's own lane. -/
private theorem LanesBelow.base_eq {lane : Nat} (hnear : lane < farLane) :
    (if 0 ≤ rows.positionOf row s then rows.positionOf row s else position lane) =
      ((rows.nearLane? row s).getD lane : Nat) := by
  unfold nearLane?
  split
  · next hnonneg =>
    obtain ⟨above, habove, hlt, heq⟩ := hreal.lane?_of_positionOf hnonneg
    rw [heq, habove, Option.filter_some, if_pos (decide_eq_true hlt), Option.getD_some]
  · next hleft =>
    have hnone : (rows.lane? row s).filter (· < farLane) = none := by
      rw [Option.filter_eq_none_iff]
      intro above habove hlt
      rw [positionOf, habove, Option.map_some, Option.getD_some,
        position_of_lt (of_decide_eq_true hlt)] at hleft
      exact hleft (Int.natCast_nonneg above)
    rw [hnone, Option.getD_none, position_of_lt hnear]

end Real

private theorem getD_nearLane?_lt {lane : Nat} (rows : Layout) (row : Nat) (s : Seg)
    (hnear : lane < farLane) : (rows.nearLane? row s).getD lane < farLane := by
  cases habove : rows.nearLane? row s with
  | none => exact hnear
  | some above => exact of_decide_eq_true (Option.filter_eq_some_iff.1 habove).2

end Layout

/-! ## The search -/

namespace Bend

open Layout (Ladder OnDiagonal Falls)

variable {count : Nat} {found : List Shift}

/-- What becomes of the search at a row in which the diagonal is in lane `target`, if something is
found. The search itself knows the position only. -/
inductive Looks (b : Bend) (slope : Int) (count row : Nat) (s : Seg) (target : Int) (strand : Drawn) :
    List Shift → List Shift → Prop where
  /-- The line falls behind again, and only the first shift is made. -/
  | falls (first second : Shift) (hrow : row = b.row + 3) (hfirst : second.width = 1)
      (hbehind : (strand.lane : Int) + 2 ≤ target) :
      Looks b slope count row s target strand [first, second] [first]
  /-- The line meets the diagonal, where it ends. -/
  | meets (moves : List Shift) (hne : moves ≠ []) (hlane : (strand.lane : Int) = target) :
      Looks b slope count row s target strand moves moves
  /-- The line is on the diagonal, which goes on. -/
  | keeps (found : List Shift) (hlane : (strand.lane : Int) = target)
      (hrest : b.diagonalFrom? slope count (row + 1) (b.rows.follow row s) (wrapInt target) [] =
        some found) :
      Looks b slope count row s target strand [] found
  /-- The line is led to the diagonal, which goes on. -/
  | leads (moves found : List Shift) (width : Nat) (hwidth : 1 ≤ width)
      (hlane : ((strand.lane + width : Nat) : Int) = target)
      (hrest : b.diagonalFrom? slope count (row + 1) (b.rows.follow row s) (wrapInt target)
        (moves ++ [⟨row, strand.lane, width⟩]) = some found) :
      Looks b slope count row s target strand moves found

/-- A line that is followed stands right of −1, and left of the diagonal or on it. -/
private theorem exists_strand_of_diagonalFrom? {above : Int}
    (hfound : b.diagonalFrom? slope (count + 1) row s above moves = some found) :
    ∃ strand, b.rows.strand? row s = some strand ∧ 0 ≤ position strand.lane ∧
      0 ≤ wrapInt (wrapInt (above + slope) - position strand.lane) := by
  unfold diagonalFrom? at hfound
  cases hstrand : b.rows.strand? row s with
  | none => simp [hstrand] at hfound
  | some strand =>
    rw [hstrand] at hfound
    dsimp only at hfound
    split at hfound
    · cases hfound
    · next hgood =>
      rw [not_or, not_or, Int.not_lt, Int.not_lt] at hgood
      exact ⟨strand, rfl, hgood.2.1, hgood.1⟩

section Real

variable (hreal : Layout.LanesBelow UInt64.size b.rows) (hslope : slope = 1 ∨ slope = -1)
include hreal hslope

private theorem looks_of_diagonalFrom? {above : Int} (hnonneg : 0 ≤ above)
    (hlt : above + 1 < 0x10000000000000000)
    (hfound : b.diagonalFrom? slope (count + 1) row s (wrapInt above) moves = some found) :
    ∃ strand, b.rows.strand? row s = some strand ∧ strand.lane < farLane ∧
      b.Looks slope count row s (above + slope) strand moves found := by
  obtain ⟨strand, hstrand, hthere, hright⟩ := exists_strand_of_diagonalFrom? hfound
  have hlane := hreal.lane?_lt (Layout.lane?_of_strand? hstrand)
  have hnear := (Layout.position_nonneg_iff hlane).1 hthere
  refine ⟨strand, hstrand, hnear, ?_⟩
  unfold diagonalFrom? at hfound
  rw [hstrand] at hfound
  dsimp only at hfound
  rw [wrapInt_wrapInt_add, wrapInt_wrapInt_sub, position_of_lt hnear] at hright hfound
  -- What the line is behind is no more than what a size can be, and so it does not wrap around.
  have hbehind : wrapInt (above + slope - strand.lane) = above + slope - strand.lane := by
    unfold farLane at hnear
    exact wrapInt_of_nonneg (by omega) (by omega) hright
  rw [hbehind] at hright hfound
  split at hfound
  · cases hfound
  split at hfound
  · next hfalls =>
    obtain ⟨hbehind, hrow, hlength, hwidth⟩ := hfalls
    obtain ⟨first, second, rfl⟩ := List.length_eq_two.1 hlength
    cases hfound
    exact .falls first second hrow (by simpa using hwidth) (by omega)
  split at hfound
  · next hmeets =>
    cases hfound
    exact .meets moves hmeets.2 (by omega)
  next hmeets =>
    split at hfound
    · cases hfound
    split at hfound
    · next hwidth =>
      obtain rfl : moves = [] := by
        by_contra hne
        exact hmeets ⟨hwidth, hne⟩
      exact .keeps found (by omega) hfound
    · next hwidth => exact .leads moves found _ (by omega) (by omega) hfound

/-- What is found leads the line onto the diagonal, and below the rows that are shifted the line is on the
diagonal as well, unless the last shift was given up because the line falls behind. A diagonal that the
line can be led to does not stand left of lane 0. -/
private theorem exists_ladder (hsteps : skip + moves.length = steps)
    (ladder : Ladder b.rows b.row b.segment base slope skip moves)
    (hcount : b.row + steps + count ≤ b.last + 1) (hnonneg : 0 ≤ base + slope * steps)
    (hlt : base + slope * steps + count < 0x10000000000000000)
    (hfound : b.diagonalFrom? slope count (b.row + steps) (b.rows.course b.row b.segment steps)
      (wrapInt (base + slope * steps)) moves = some found) :
    ∃ skip, Ladder b.rows b.row b.segment base slope skip found ∧ found ≠ [] ∧
      b.row + (skip + found.length) ≤ b.last ∧
      (b.rows.OnDiagonal b.row b.segment base slope (skip + found.length) ∨
        skip = 1 ∧ found.length = 1 ∧ Falls b.rows b.row b.last b.segment base slope) := by
  induction count generalizing skip steps moves with
  | zero => cases hfound
  | succ count ih =>
    obtain ⟨strand, hstrand, -, hlooks⟩ :=
      looks_of_diagonalFrom? hreal hslope hnonneg (by omega) hfound
    have hlane : b.rows.laneAfter? b.row b.segment steps = some strand.lane :=
      Layout.lane?_of_strand? hstrand
    -- The diagonal is one row further on.
    have htarget : base + slope * steps + slope = base + slope * ((steps + 1 : Nat) : Int) := by
      rw [Int.natCast_add_one, Int.mul_add, Int.mul_one, Int.add_assoc]
    have hcount' : b.row + (steps + 1) + count ≤ b.last + 1 := by omega
    have hlt' : base + slope * ((steps + 1 : Nat) : Int) + count < 0x10000000000000000 := by
      rw [← htarget]
      omega
    rw [htarget] at hlooks
    cases hlooks with
    | falls first second hrow hwidth hbehind =>
      obtain rfl : steps = 3 := Nat.add_left_cancel hrow
      obtain rfl : skip = 1 := Nat.add_right_cancel hsteps
      have hlast : b.row + 3 ≤ b.last := by omega
      exact ⟨1, ladder.head, List.cons_ne_nil _ _, (Nat.le_succ _).trans hlast,
        .inr ⟨rfl, rfl, hlast, ladder.behind hwidth, _, hlane, hbehind⟩⟩
    | meets _ hne hmeets =>
      rw [← hsteps] at hcount hlane hmeets
      exact ⟨skip, ladder, hne, by omega, .inl ⟨_, hlane, hmeets⟩⟩
    | keeps _ hkeeps hrest =>
      obtain rfl : skip = steps := hsteps
      exact ih rfl (ladder.skip_succ ⟨_, hlane, hkeeps⟩) hcount'
        (hkeeps ▸ Int.natCast_nonneg strand.lane) hlt' hrest
    | leads _ _ width hwidth hleads hrest =>
      refine ih ?_ (ladder.concat hsteps hwidth hlane hleads) hcount'
        (hleads ▸ Int.natCast_nonneg (strand.lane + width)) hlt' hrest
      rw [List.length_append, List.length_singleton, ← hsteps, Nat.add_assoc]

end Real

end Bend

/-! ## What the shifts are good for -/

namespace Layout

/-- The line stays for a row in the lane that it comes from, and then it steps to the left by one lane
in each of the next two rows. -/
def Unfolds (rows moved : Layout) (row : Nat) (s : Seg) : Prop :=
  ∃ lane, rows.lane? (row - 1) s = some (lane + 2) ∧ moved.laneAfter? row s 0 = some (lane + 2) ∧
    moved.laneAfter? row s 1 = some (lane + 1) ∧ moved.laneAfter? row s 2 = some lane

/-- The line is on a diagonal down to the last row that is shifted, and in the row after that as well
unless only one row is shifted and the line falls behind below. -/
def Slants (moved : Layout) (row last : Nat) (s : Seg) (base slope : Int) (moves : List Shift) :
    Prop :=
  ∃ stop, (∃ move ∈ moves, move.row + 1 = row + stop) ∧ (∀ move ∈ moves, move.row + 1 ≤ row + stop) ∧
    (∀ steps < stop, moved.OnDiagonal row s base slope steps) ∧
    (moved.OnDiagonal row s base slope stop ∨
      moves.map (·.row) = [row + 1] ∧ moved.Falls row last s base slope)

/-- The line steps in one direction into the row and into the next one, and it is taken to whichever of
the two lanes beside its own is further to the right. -/
def Joins (rows moved : Layout) (row : Nat) (s : Seg) : Prop :=
  ∃ above lane below, rows.lane? (row - 1) s = some above ∧ rows.laneAfter? row s 0 = some lane ∧
    rows.laneAfter? row s 1 = some below ∧
    (above < lane ∧ lane < below ∧ above + 3 ≤ below ∨ below < lane ∧ lane < above ∧ below + 3 ≤ above) ∧
    moved.laneAfter? row s 0 = some (max above below)

/-- The shifts make the line of a segment one of the three shapes, a diagonal from `base` on being one
of them. -/
structure Straightens (rows : Layout) (row last : Nat) (s : Seg) (base : Int) (moves : List Shift) :
    Prop where
  shifts : LineShifts rows row last s moves
  shape : Unfolds rows (rows.shiftAll moves) row s ∨
    (∃ slope, (slope = 1 ∨ slope = -1) ∧ (rows.shiftAll moves).Slants row last s base slope moves) ∨
    Joins rows (rows.shiftAll moves) row s

private theorem Ladder.slants (ladder : Ladder rows row s base slope skip moves) (hne : moves ≠ [])
    (hends : rows.OnDiagonal row s base slope (skip + moves.length) ∨
      skip = 1 ∧ moves.length = 1 ∧ Falls rows row last s base slope) :
    (rows.shiftAll moves).Slants row last s base slope moves := by
  have hlength := List.length_pos_iff.2 hne
  have hrows (steps : Nat) :
      row + steps ∈ moves.map (·.row) ↔ skip ≤ steps ∧ steps < skip + moves.length :=
    ladder.mem_rows_iff
  refine ⟨skip + moves.length, ?_, fun move hmem => ?_, fun steps => ladder.onDiagonal_shiftAll, ?_⟩
  · obtain ⟨move, hmem, hrow⟩ := List.mem_map.1 ((hrows (skip + moves.length - 1)).2 (by omega))
    exact ⟨move, hmem, by omega⟩
  · obtain ⟨-, steps, hrow, -⟩ := ladder.led move hmem
    have hlt := (hrows steps).1 (hrow ▸ List.mem_map_of_mem hmem)
    omega
  · rcases hends with hmeets | ⟨rfl, hone, hle, hbehind, hfarther⟩
    · left
      rwa [OnDiagonal, ladder.laneAfter?_shiftAll le_rfl]
    · refine .inr ⟨?_, hle, ?_, ?_⟩
      · rw [ladder.shifted, hone]
        rfl
      · rwa [ladder.laneAfter?_shiftAll (by omega)]
      · rwa [ladder.laneAfter?_shiftAll (by omega)]

end Layout

namespace Bend

open Layout (LineShifts Unfolds Slants Joins Straightens)

private theorem steps_of_sign {above lane below : Nat} (hne : (above : Int) - lane ≠ 0)
    (hsign : ((lane : Int) - below).sign = ((above : Int) - lane).sign) :
    above < lane ∧ lane < below ∨ below < lane ∧ lane < above := by
  rcases Int.lt_or_gt_of_ne hne with hneg | hpos
  · rw [Int.sign_eq_neg_one_of_neg hneg, Int.sign_eq_neg_one_iff_neg] at hsign
    omega
  · rw [Int.sign_eq_one_of_pos hpos, Int.sign_eq_one_iff_pos] at hsign
    omega

private theorem le_of_goesOnTo {place : Int} (hgoes : b.goesOnTo place = true) :
    0 ≤ b.rows.positionOf (b.row + 2) b.afterNext ∧
      b.rows.positionOf (b.row + 2) b.afterNext = place := by
  obtain ⟨hnonneg, heq⟩ := Bool.and_eq_true_iff.1 (Bool.and_eq_true_iff.1 hgoes).2
  exact ⟨of_decide_eq_true hnonneg, of_decide_eq_true heq⟩

/-- The steps of a line from the row above and to the next row are differences that fit. -/
def StepsFit (b : Bend) : Prop := Fits (b.above - b.here) ∧ Fits (b.here - b.below)

/-- A line that is in the given lane in its row, and of which it is known where it comes from. -/
structure Placed (b : Bend) (lane : Nat) : Prop where
  laneAfter? : b.rows.laneAfter? b.row b.segment 0 = some lane
  here : b.here = position lane
  above : b.above = b.rows.positionOf (b.row - 1) b.segment

section Placed

variable {lane : Nat} (placed : b.Placed lane)
include placed

theorem lineShifts_shiftHere {width : Nat} (hhere : b.here.natAbs = lane) (hwidth : 1 ≤ width) :
    LineShifts b.rows b.row b.last b.segment (b.shiftHere width) where
  ne_nil := List.cons_ne_nil _ _
  nodup := List.nodup_singleton _
  within move hmem := by
    rw [List.mem_singleton.1 hmem]
    exact .inl rfl
  width move hmem := by
    rw [List.mem_singleton.1 hmem]
    exact hwidth
  lane move hmem := by
    rw [List.mem_singleton.1 hmem]
    exact ⟨0, rfl, hhere ▸ placed.laneAfter?⟩

private theorem laneAfter?_shiftHere_zero (hhere : b.here.natAbs = lane) (width : Nat) :
    (b.rows.shiftAll (b.shiftHere width)).laneAfter? b.row b.segment 0 = some (lane + width) := by
  have hnodup : ((b.shiftHere width).map (·.row)).Nodup := List.nodup_singleton b.row
  subst hhere
  exact Layout.laneAfter?_shiftAll_of_mem hnodup (List.mem_singleton_self _) rfl placed.laneAfter?

omit placed in
private theorem laneAfter?_shiftHere_succ (width steps : Nat) :
    (b.rows.shiftAll (b.shiftHere width)).laneAfter? b.row b.segment (steps + 1) =
      b.rows.laneAfter? b.row b.segment (steps + 1) := by
  apply Layout.laneAfter?_shiftAll_of_notMem
  simp [shiftHere]

section Real

variable (hreal : Layout.LanesBelow UInt64.size b.rows)
include hreal

/-- The line is one lane left of where it comes from and one lane right of where it goes. These are the
lanes themselves, even if the line stands left of lane 0. -/
private theorem straightens_postpone? (base : Int) (hfound : b.postpone? = some moves) :
    Straightens b.rows b.row b.last b.segment base moves := by
  unfold postpone? at hfound
  split at hfound
  · next hsteps =>
    cases hfound
    obtain ⟨hcomes, hstays, hgoes, -⟩ := hsteps
    obtain ⟨hnonneg, hto⟩ := le_of_goesOnTo hgoes
    obtain ⟨below, hbelow, hnear, heq⟩ := hreal.lane?_of_positionOf hnonneg
    have hlane := hreal.lane?_lt placed.laneAfter?
    have hfar : below + 1 + 1 + 1 < UInt64.size := by
      unfold farLane at hnear
      unfold UInt64.size
      omega
    have hsucc : below + 1 + 1 < UInt64.size := Nat.lt_of_succ_lt hfar
    rw [← position_of_lt hnear, hto] at heq
    -- From the last row up each lane is the one right of the lane below.
    have hhere : b.here = position (below + 1) :=
      Layout.eq_position_succ (Nat.lt_of_succ_lt hsucc) (placed.here ▸ Layout.fits_position hlane) heq.symm
    have habove : b.above = position (below + 1 + 1) :=
      Layout.eq_position_succ hsucc (placed.above ▸ hreal.fits_positionOf _ _) (hhere ▸ hcomes)
    obtain rfl : lane = below + 1 :=
      Layout.position_injOn hlane (Nat.lt_of_succ_lt hsucc) (placed.here.symm.trans hhere)
    have hnatAbs : b.here.natAbs = below + 1 := hhere ▸ Layout.natAbs_position_succ hnear
    refine ⟨lineShifts_shiftHere placed hnatAbs le_rfl, .inl ⟨below, ?_, ?_, ?_, ?_⟩⟩
    · exact hreal.lane?_of_positionOf_eq hfar (placed.above.symm.trans habove)
    · exact laneAfter?_shiftHere_zero placed hnatAbs 1
    · rw [laneAfter?_shiftHere_succ]
      exact hreal.lane?_of_positionOf_eq hsucc (hstays.trans hhere)
    · rw [laneAfter?_shiftHere_succ]
      exact hbelow
  · cases hfound

/-- A line left of lane 0 steps there by another sign than from there, as long as its steps fit. -/
private theorem straightens_join? (hfits : farLane ≤ lane → b.StepsFit) (base : Int)
    (hfound : b.join? = some moves) : Straightens b.rows b.row b.last b.segment base moves := by
  unfold join? at hfound
  dsimp only at hfound
  split at hfound
  · next hsteps =>
    cases hfound
    obtain ⟨habove, hne, hbelow, hsign, hwide, -, -⟩ := hsteps
    have hlane := hreal.lane?_lt placed.laneAfter?
    have hnear : lane < farLane := by
      by_contra hfar
      have hleft := mt (Layout.position_nonneg_iff hlane).1 hfar
      rw [← placed.here] at hleft
      obtain ⟨hfirst, hsecond⟩ := hfits (Nat.not_lt.1 hfar)
      rw [wrapInt_of_fits hfirst, wrapInt_of_fits hsecond, Int.sign_eq_neg_one_of_neg (by omega),
        Int.sign_eq_one_of_pos (by omega)] at hsign
      cases hsign
    rw [placed.above] at habove
    obtain ⟨above, hfrom, habove, hcomes⟩ := hreal.lane?_of_positionOf habove
    obtain ⟨below, hto, hbelow, hgoes⟩ := hreal.lane?_of_positionOf hbelow
    have hhere : b.here = lane := placed.here.trans (position_of_lt hnear)
    have hfirst : wrapInt (b.above - b.here) = (above : Int) - lane := by
      rw [hhere, placed.above, hcomes]
      unfold farLane at *
      exact wrapInt_of_fits ⟨by omega, by omega⟩
    have hsecond : wrapInt (b.here - b.below) = (lane : Int) - below := by
      rw [hhere, Bend.below, hgoes]
      unfold farLane at *
      exact wrapInt_of_fits ⟨by omega, by omega⟩
    have hboth : wrapInt ((lane : Int) - below + (above - lane)) = (above : Int) - below := by
      have hsum : (lane : Int) - below + (above - lane) = above - below := by omega
      rw [hsum]
      unfold farLane at *
      exact wrapInt_of_fits ⟨by omega, by omega⟩
    rw [hfirst, hsecond] at hsign
    rw [hfirst] at hne
    rw [hfirst, hsecond, hboth] at hwide
    rw [hfirst, hsecond]
    have htwo := steps_of_sign hne hsign
    have hwidth : lane + (if (lane : Int) - below < 0 then ((lane : Int) - below).natAbs
        else ((above : Int) - lane).natAbs) = max above below := by
      split <;> omega
    have hnatAbs : b.here.natAbs = lane := by omega
    refine ⟨lineShifts_shiftHere placed hnatAbs (by omega), .inr (.inr
      ⟨above, lane, below, hfrom, placed.laneAfter?, hto, by omega, ?_⟩)⟩
    rw [laneAfter?_shiftHere_zero placed hnatAbs, hwidth]
  · cases hfound

private theorem straightens_diagonal? (hlast : b.last < farLane) (hslope : slope = 1 ∨ slope = -1)
    (hfound : b.diagonal? slope = some moves) :
    Straightens b.rows b.row b.last b.segment
      ((b.rows.nearLane? (b.row - 1) b.segment).getD lane : Nat) moves := by
  have hpos : b.last + 1 - b.row = (b.last - b.row) + 1 := by
    by_contra hnone
    rw [diagonal?, show b.last + 1 - b.row = 0 by omega] at hfound
    cases hfound
  unfold diagonal? at hfound
  rw [hpos, placed.above, placed.here] at hfound
  -- A line that is followed is in a lane that stands at its own number.
  obtain ⟨strand, hstrand, hthere, -⟩ := exists_strand_of_diagonalFrom? hfound
  have hlane := hreal.lane?_lt placed.laneAfter?
  obtain rfl : strand.lane = lane :=
    Option.some.inj ((Layout.lane?_of_strand? hstrand).symm.trans placed.laneAfter?)
  have hnear := (Layout.position_nonneg_iff hlane).1 hthere
  rw [hreal.base_eq hnear] at hfound
  have hbase := Layout.getD_nearLane?_lt b.rows (b.row - 1) b.segment hnear
  generalize (b.rows.nearLane? (b.row - 1) b.segment).getD strand.lane = base at hfound hbase ⊢
  unfold farLane at hlast hbase
  have hzero : (base : Int) + slope * ((0 : Nat) : Int) = base := by simp
  have hstart : wrapInt ((base : Int) + slope * ((0 : Nat) : Int)) = base := by
    rw [hzero]
    exact wrapInt_of_fits ⟨by omega, by omega⟩
  rw [← hstart] at hfound
  have hcount : b.row + 0 + (b.last - b.row + 1) ≤ b.last + 1 := by omega
  have hnonneg : 0 ≤ (base : Int) + slope * ((0 : Nat) : Int) := by omega
  have hlt : (base : Int) + slope * ((0 : Nat) : Int) + (b.last - b.row + 1 : Nat) <
      0x10000000000000000 := by omega
  obtain ⟨skip, ladder, hne, hlast, hends⟩ :=
    exists_ladder hreal hslope rfl .nil hcount hnonneg hlt hfound
  exact ⟨ladder.lineShifts hne hlast, .inr (.inl ⟨slope, hslope, ladder.slants hne hends⟩)⟩

private theorem straightens_shifts? (hlast : b.last < farLane) (hfits : farLane ≤ lane → b.StepsFit)
    (hfound : b.shifts? = some moves) :
    Straightens b.rows b.row b.last b.segment
      ((b.rows.nearLane? (b.row - 1) b.segment).getD lane : Nat) moves := by
  rw [shifts?, Option.or_eq_some_iff, Option.or_eq_some_iff, Option.or_eq_some_iff] at hfound
  rcases hfound with hpostpone | ⟨-, hright | ⟨-, hleft | ⟨-, hjoin⟩⟩⟩
  · exact straightens_postpone? placed hreal _ hpostpone
  · exact straightens_diagonal? placed hreal hlast (.inl rfl) hright
  · exact straightens_diagonal? placed hreal hlast (.inr rfl) hleft
  · exact straightens_join? placed hreal hfits _ hjoin

end Real

end Placed

end Bend

namespace Layout

private theorem mem_examined {maxLanes : Nat} {current : Row} (hrow : rows[row]? = some current) :
    strand ∈ rows.examined row maxLanes ↔
      strand ∈ current.drawn.take maxLanes ∧ strand.sharing = .primary := by
  rw [examined, hrow, List.mem_filter, decide_eq_true_eq]

private theorem LanesBelow.nearLane? (hbelow : LanesBelow farLane rows) (row : Nat) (s : Seg) :
    rows.nearLane? row s = rows.lane? row s := by
  unfold Layout.nearLane?
  cases hlane : rows.lane? row s with
  | none => rfl
  | some lane => exact Option.filter_some_pos (decide_eq_true (hbelow.lane?_lt hlane))

/-- In rows that there are the search finds shifts of rows that there are, and they make the line of one
of the strands that are examined a diagonal or a single step. A diagonal comes from the lane of the line
in the row above or, where the line is not in that row left of `farLane`, from its own lane. Of a line
right of `farLane` it has to be known that its steps are differences that fit. -/
theorem findDiagonal?_straightens {rows : Layout} {row last maxLanes : Nat} {current : Row}
    (hpos : 0 < row) (hrow : rows[row]? = some current) (hlast : last < rows.size)
    (hsize : rows.size ≤ farLane) (hreal : rows.LanesBelow UInt64.size)
    (hnodup : ∀ r ∈ rows, r.segments.Nodup)
    (hfits : ∀ strand ∈ current.drawn.take maxLanes, farLane ≤ strand.lane →
      (rows.bend row last strand).StepsFit) :
    let found := rows.findDiagonal? row last maxLanes
    Strict.findDiagonal? rows row last maxLanes = some found ∧
      ∀ moves, found = some moves →
        Strict.shiftAll rows moves = some (rows.shiftAll moves) ∧
        ∃ strand ∈ current.drawn.take maxLanes, strand.sharing = .primary ∧
          Straightens rows row last strand.segment
            ((rows.nearLane? (row - 1) strand.segment).getD strand.lane : Nat) moves ∧
          (rows.LanesBelow farLane → Straightens rows row last strand.segment
            ((rows.lane? (row - 1) strand.segment).getD strand.lane : Nat) moves) := by
  intro found
  have hthere : row < rows.size := (Array.getElem?_eq_some_iff.1 hrow).1
  have hbelow : row + 1 < rows.size ∨ rows.size ≤ row + 1 ∧ rows.size ≤ row + 1 := by omega
  refine ⟨Begins.findDiagonal? ⟨.refl rows.size rows, le_rfl⟩ hpos hthere hlast hbelow maxLanes, ?_⟩
  intro moves hmoves
  obtain ⟨strand, hexamined, hfound⟩ := List.exists_of_findSome?_eq_some hmoves
  obtain ⟨hmem, hprimary⟩ := (mem_examined hrow).1 hexamined
  have placed : (rows.bend row last strand).Placed strand.lane := by
    refine ⟨?_, rfl, rfl⟩
    have hlane := current.lane?_of_mem (hnodup current (Array.mem_of_getElem? hrow))
      (List.mem_of_mem_take hmem)
    exact Option.bind_eq_some_iff.2 ⟨current, hrow, hlane⟩
  have hstraightens := Bend.straightens_shifts? placed hreal (hlast.trans_le hsize) (hfits strand hmem)
    hfound
  refine ⟨strict_shiftAll fun move hshift => ?_, strand, hmem, hprimary, hstraightens, fun hnear => ?_⟩
  · rcases hstraightens.shifts.within move hshift with heq | ⟨-, hlt⟩
    · exact heq.trans_lt hthere
    · exact hlt.trans hlast
  · rw [← hnear.nearLane?]
    exact hstraightens

-- The line steps from left of lane 0 to lane 11, which is further than a difference can be.
example : findDiagonal? #[
    ⟨0, [⟨⟨9, 60, 61, default⟩, 5, .primary⟩], 0⟩,
    ⟨1, [⟨⟨9, 60, 61, default⟩, 0x800000000000000A, .primary⟩], 0⟩,
    ⟨2, [⟨⟨9, 60, 61, default⟩, 11, .primary⟩], 0⟩] 1 2 40 =
      some [⟨1, 0x7FFFFFFFFFFFFFF6, 0x7FFFFFFFFFFFFFFB⟩] := by decide

/-- A line that comes from lane 1 and goes on over lane 0 to lane 3, beside one in a lane right of
`farLane` in which it was before. -/
def steppedRows : Layout := #[
  ⟨0, [⟨⟨8, 0, 1, default⟩, 0, .primary⟩, ⟨⟨9, 0, 5, default⟩, 1, .primary⟩,
    ⟨⟨7, 50, 51, default⟩, 0x800000000000000A, .primary⟩], 0⟩,
  ⟨1, [⟨⟨9, 0, 5, default⟩, 0, .primary⟩,
    ⟨⟨7, 50, 51, default⟩, 0x800000000000000A, .primary⟩], 0⟩,
  ⟨2, [⟨⟨9, 0, 5, default⟩, 3, .primary⟩], 0⟩]

/-- The line is led over lane 2. -/
theorem findDiagonal?_straightens_steppedRows :
    ∃ current, steppedRows[1]? = some current ∧ 2 < steppedRows.size ∧ steppedRows.size ≤ farLane ∧
      steppedRows.LanesBelow UInt64.size ∧ (∀ r ∈ steppedRows, r.segments.Nodup) ∧
      (∀ strand ∈ current.drawn.take 40, farLane ≤ strand.lane →
        (steppedRows.bend 1 2 strand).StepsFit) ∧
      (∃ strand ∈ current.drawn.take 40, farLane ≤ strand.lane) ∧
      steppedRows.findDiagonal? 1 2 40 = some [⟨1, 0, 2⟩] ∧
      Strict.findDiagonal? steppedRows 1 2 40 = some (some [⟨1, 0, 2⟩]) ∧
      Straightens steppedRows 1 2 9 1 [⟨1, 0, 2⟩] := by
  have hsize : 2 < steppedRows.size := by decide
  have hfew : steppedRows.size ≤ farLane := by decide
  have hreal : steppedRows.LanesBelow UInt64.size := by
    unfold LanesBelow
    decide
  have hnodup : ∀ r ∈ steppedRows, r.segments.Nodup := by decide
  have hfits : ∀ strand ∈ [(⟨⟨9, 0, 5, default⟩, 0, .primary⟩ : Drawn),
      ⟨⟨7, 50, 51, default⟩, 0x800000000000000A, .primary⟩], farLane ≤ strand.lane →
      (steppedRows.bend 1 2 strand).StepsFit := by
    unfold Bend.StepsFit
    decide
  have hfound : steppedRows.findDiagonal? 1 2 40 = some [⟨1, 0, 2⟩] := by decide
  obtain ⟨hstrict, hstraightens⟩ :=
    @findDiagonal?_straightens steppedRows 1 2 40 _ Nat.one_pos rfl hsize hfew hreal hnodup hfits
  obtain ⟨-, strand, hmem, -, hstraight, -⟩ := hstraightens _ hfound
  rw [hfound] at hstrict
  refine ⟨_, rfl, hsize, hfew, hreal, hnodup, hfits, ⟨_, .tail _ (.head _), by decide⟩, hfound, hstrict, ?_⟩
  rcases List.mem_cons.1 hmem with rfl | hmem
  · exact hstraight
  · -- Only one of the lines is in lane 0.
    obtain rfl := List.mem_singleton.1 hmem
    obtain ⟨steps, hrow, hlane⟩ := hstraight.shifts.lane _ List.mem_cons_self
    obtain rfl : steps = 0 := Nat.left_eq_add.1 hrow
    exact absurd hlane (by decide)

/-- A line that comes from a lane right of `farLane` and steps from lane 2 to lane 4. -/
def farSteps : Layout := #[
  ⟨0, [⟨⟨9, 60, 61, default⟩, 0x800000000000000A, .primary⟩], 0⟩,
  ⟨1, [⟨⟨1, 50, 51, default⟩, 0, .primary⟩, ⟨⟨2, 50, 51, default⟩, 1, .primary⟩,
    ⟨⟨9, 60, 61, default⟩, 2, .primary⟩], 0⟩,
  ⟨2, [⟨⟨3, 50, 51, default⟩, 0, .primary⟩, ⟨⟨4, 50, 51, default⟩, 1, .primary⟩,
    ⟨⟨5, 50, 51, default⟩, 2, .primary⟩, ⟨⟨6, 50, 51, default⟩, 3, .primary⟩,
    ⟨⟨9, 60, 61, default⟩, 4, .primary⟩], 0⟩]

/-- A diagonal need not come from the lane of the line in the row above. -/
theorem not_findDiagonal?_from_above :
    ¬ ∀ (rows : Layout) (row last maxLanes : Nat) (current : Row), 0 < row →
      rows[row]? = some current → last < rows.size → (∀ r ∈ rows, r.segments.Nodup) →
      ∀ moves, rows.findDiagonal? row last maxLanes = some moves →
        ∃ strand ∈ current.drawn.take maxLanes, Straightens rows row last strand.segment
          ((rows.lane? (row - 1) strand.segment).getD strand.lane : Nat) moves := by
  intro hall
  have hfound : farSteps.findDiagonal? 1 2 40 = some [⟨1, 2, 1⟩] := by decide
  obtain ⟨strand, hmem, hshifts, hshape⟩ :=
    hall farSteps 1 2 40 _ Nat.one_pos rfl (by decide) (by decide) _ hfound
  -- Only one line is in lane 2.
  obtain ⟨steps, hrow, hlane⟩ := hshifts.lane _ List.mem_cons_self
  obtain rfl : steps = 0 := (Nat.left_eq_add.1 hrow)
  have hsegment : strand.segment = 9 := by
    rcases List.mem_cons.1 (List.mem_of_mem_take hmem) with rfl | hmem
    · exact absurd hlane (by decide)
    · rcases List.mem_cons.1 hmem with rfl | hmem
      · exact absurd hlane (by decide)
      · rw [List.mem_singleton.1 hmem]
  rw [hsegment] at hshape
  have habove : farSteps.lane? 0 9 = some 0x800000000000000A := by decide
  have hbelow : farSteps.laneAfter? 1 9 1 = some 4 := by decide
  have hmoved : (farSteps.shiftAll [⟨1, 2, 1⟩]).laneAfter? 1 9 0 = some 3 := by decide
  rcases hshape with ⟨lane, hfrom, hto, -⟩ | ⟨slope, hslope, stop, ⟨move, hmem, hstop⟩, -, hon, -⟩ |
    ⟨above, lane, below, hfrom, -, hto, -, hjoined⟩
  · have hlane := habove.symm.trans hfrom
    cases hmoved.symm.trans hto
    cases hlane
  · cases List.mem_singleton.1 hmem
    obtain ⟨lane, hto, heq⟩ := hon 0 (by omega)
    cases hmoved.symm.trans hto
    simp [habove] at heq
    omega
  · cases habove.symm.trans hfrom
    cases hbelow.symm.trans hto
    cases hmoved.symm.trans hjoined

end Layout

end CommitLanes
