import CommitLanes.Proofs.Layout.Zigzag

/-! # Ladders onto a diagonal

A line is led onto a diagonal by shifts at the line itself, one in each row from some row down. In the
rows that are shifted the line is then on the diagonal, and in the other rows it stays where it was. -/

namespace CommitLanes

variable {rows : Layout} {row last steps skip : Nat} {s : Seg} {moves : List Shift}
  {base slope : Int}

namespace Layout

/-- The lane in which the line of a segment is some rows further down. -/
def laneAfter? (rows : Layout) (row : Nat) (s : Seg) (steps : Nat) : Option Nat :=
  rows.lane? (row + steps) (rows.course row s steps)

/-- Some rows further down the line is on the diagonal that comes from the lane `base` in the row above
and steps by `slope` in each row. -/
def OnDiagonal (rows : Layout) (row : Nat) (s : Seg) (base slope : Int) (steps : Nat) : Prop :=
  ∃ lane, rows.laneAfter? row s steps = some lane ∧ (lane : Int) = base + slope * (steps + 1)

/-! ## Shifts of a line -/

theorem laneAfter?_shiftAll_of_notMem (hrow : row + steps ∉ moves.map (·.row)) (s : Seg) :
    (rows.shiftAll moves).laneAfter? row s steps = rows.laneAfter? row s steps := by
  rw [laneAfter?, laneAfter?, course_shiftAll, lane?, lane?, getElem?_shiftAll_of_notMem hrow]

theorem laneAfter?_shiftAll_of_mem (hnodup : (moves.map (·.row)).Nodup) {move : Shift}
    (hmem : move ∈ moves) (hrow : move.row = row + steps)
    (hlane : rows.laneAfter? row s steps = some move.lane) :
    (rows.shiftAll moves).laneAfter? row s steps = some (move.lane + move.width) := by
  rw [laneAfter?, lane?] at hlane
  rw [laneAfter?, course_shiftAll, lane?, ← hrow, getElem?_shiftAll_of_mem hnodup hmem]
  rw [← hrow] at hlane
  obtain ⟨r, hr, hlane⟩ := Option.bind_eq_some_iff.1 hlane
  rw [hr, Option.map_some, Option.bind_some, Row.lane?_moveRight, hlane, Option.map_some, Row.shiftLane,
    if_pos le_rfl]

/-- Shifts of a line in different rows: the row that is examined, or rows from it down above the last
one that is looked at. -/
structure LineShifts (rows : Layout) (row last : Nat) (s : Seg) (moves : List Shift) : Prop where
  ne_nil : moves ≠ []
  nodup : (moves.map (·.row)).Nodup
  within : ∀ move ∈ moves, move.row = row ∨ row ≤ move.row ∧ move.row < last
  width : ∀ move ∈ moves, 1 ≤ move.width
  lane : ∀ move ∈ moves, ∃ steps, move.row = row + steps ∧
    rows.laneAfter? row s steps = some move.lane

/-! ## Ladders -/

/-- The line is on the diagonal in the first `skip` rows, and in the rows after these the shifts take it
there. -/
structure Ladder (rows : Layout) (row : Nat) (s : Seg) (base slope : Int) (skip : Nat)
    (moves : List Shift) : Prop where
  shifted : moves.map (·.row) = List.range' (row + skip) moves.length
  on : ∀ steps < skip, rows.OnDiagonal row s base slope steps
  led : ∀ move ∈ moves, 1 ≤ move.width ∧ ∃ steps, move.row = row + steps ∧
    rows.laneAfter? row s steps = some move.lane ∧
    ((move.lane + move.width : Nat) : Int) = base + slope * (steps + 1)

namespace Ladder

theorem nil : Ladder rows row s base slope 0 [] where
  shifted := rfl
  on _ hlt := absurd hlt (Nat.not_lt_zero _)
  led _ hmem := absurd hmem List.not_mem_nil

/-- As long as nothing is shifted the line may be on the diagonal by itself. -/
theorem skip_succ (ladder : Ladder rows row s base slope skip [])
    (hon : rows.OnDiagonal row s base slope skip) : Ladder rows row s base slope (skip + 1) [] where
  shifted := rfl
  on steps hlt := by
    rcases Nat.lt_succ_iff_lt_or_eq.1 hlt with hlt | rfl
    · exact ladder.on steps hlt
    · exact hon
  led _ hmem := absurd hmem List.not_mem_nil

theorem concat (ladder : Ladder rows row s base slope skip moves) (hsteps : skip + moves.length = steps)
    {lane width : Nat} (hwidth : 1 ≤ width) (hlane : rows.laneAfter? row s steps = some lane)
    (hled : ((lane + width : Nat) : Int) = base + slope * (steps + 1)) :
    Ladder rows row s base slope skip (moves ++ [⟨row + steps, lane, width⟩]) where
  shifted := by
    rw [List.map_append, ladder.shifted, List.length_append, List.length_singleton,
      List.range'_1_concat, List.map_singleton, Nat.add_assoc, hsteps]
  on := ladder.on
  led move hmem := by
    rcases List.mem_append.1 hmem with hmem | hmem
    · exact ladder.led move hmem
    · rw [List.mem_singleton.1 hmem]
      exact ⟨hwidth, steps, rfl, hlane, hled⟩

/-- The first shift alone. -/
theorem head {first : Shift} {rest : List Shift}
    (ladder : Ladder rows row s base slope skip (first :: rest)) :
    Ladder rows row s base slope skip [first] where
  shifted := by
    have hrows := ladder.shifted
    rw [List.map_cons, List.length_cons, List.range'_succ] at hrows
    rw [List.map_singleton, (List.cons.inj hrows).1]
    rfl
  on := ladder.on
  led move hmem := ladder.led move (List.mem_cons.2 (.inl (List.mem_singleton.1 hmem)))

/-- Where the second shift is by one lane the line comes one lane left of the diagonal. -/
theorem behind {first second : Shift}
    (ladder : Ladder rows row s base slope 1 [first, second]) (hwidth : second.width = 1) :
    ∃ lane, rows.laneAfter? row s 2 = some lane ∧ (lane : Int) + 1 = base + slope * 3 := by
  obtain ⟨-, steps, hrow, hlane, hled⟩ := ladder.led second (by simp)
  have hshifted : second.row = row + 2 := by
    have hrows := ladder.shifted
    simp only [List.map_cons, List.map_nil, List.length_cons, List.length_nil, List.range'_succ,
      List.range'_zero, List.cons.injEq, and_true] at hrows
    exact hrows.2
  obtain rfl : steps = 2 := Nat.add_left_cancel (hrow.symm.trans hshifted)
  rw [hwidth] at hled
  exact ⟨_, hlane, by simpa using hled⟩

section Shifted

variable (ladder : Ladder rows row s base slope skip moves)
include ladder

theorem mem_rows_iff : row + steps ∈ moves.map (·.row) ↔ skip ≤ steps ∧ steps < skip + moves.length := by
  rw [ladder.shifted, List.mem_range'_1]
  omega

private theorem nodup : (moves.map (·.row)).Nodup := ladder.shifted ▸ List.nodup_range'

theorem lineShifts (hne : moves ≠ []) (hlast : row + (skip + moves.length) ≤ last) :
    LineShifts rows row last s moves where
  ne_nil := hne
  nodup := ladder.nodup
  within move hmem := by
    have hrow := List.mem_map_of_mem (f := (·.row)) hmem
    rw [ladder.shifted, List.mem_range'_1] at hrow
    omega
  width move hmem := (ladder.led move hmem).1
  lane move hmem := by
    obtain ⟨-, steps, hrow, hlane, -⟩ := ladder.led move hmem
    exact ⟨steps, hrow, hlane⟩

theorem onDiagonal_shiftAll (hsteps : steps < skip + moves.length) :
    (rows.shiftAll moves).OnDiagonal row s base slope steps := by
  by_cases hskip : steps < skip
  · have hrow : row + steps ∉ moves.map (·.row) := by
      rw [ladder.mem_rows_iff]
      omega
    rw [OnDiagonal, laneAfter?_shiftAll_of_notMem hrow]
    exact ladder.on steps hskip
  · obtain ⟨move, hmem, hrow⟩ := List.mem_map.1 (ladder.mem_rows_iff.2 ⟨Nat.not_lt.1 hskip, hsteps⟩)
    obtain ⟨-, steps', hrow', hlane, hled⟩ := ladder.led move hmem
    obtain rfl : steps' = steps := Nat.add_left_cancel (hrow'.symm.trans hrow)
    exact ⟨_, laneAfter?_shiftAll_of_mem ladder.nodup hmem hrow hlane, hled⟩

theorem laneAfter?_shiftAll (hsteps : skip + moves.length ≤ steps) :
    (rows.shiftAll moves).laneAfter? row s steps = rows.laneAfter? row s steps := by
  apply laneAfter?_shiftAll_of_notMem
  rw [ladder.mem_rows_iff]
  omega

end Shifted

end Ladder

/-- The line is one lane left of the diagonal two rows further down, and another lane or more in the row
after that. -/
structure Falls (rows : Layout) (row last : Nat) (s : Seg) (base slope : Int) : Prop where
  le : row + 3 ≤ last
  behind : ∃ lane, rows.laneAfter? row s 2 = some lane ∧ (lane : Int) + 1 = base + slope * 3
  farther : ∃ lane, rows.laneAfter? row s 3 = some lane ∧ (lane : Int) + 2 ≤ base + slope * 4

end Layout

end CommitLanes
