import CommitLanes.Layout.Extend
import Mathlib.Data.List.Nodup

/-! # What shifts keep

Straightening is made of shifts, and so what every shift keeps is kept by it, whatever the searches
find and however far the sweeps go back. -/

namespace CommitLanes

namespace Layout

variable {P : Layout → Prop} {rows : Layout} {moves : List Shift}

theorem nextShifts?_eq_some {find : Layout → Nat → Option (List Shift)} {last row r : Nat}
    {moves : List Shift} (hnext : nextShifts? find last rows row = some (r, moves)) :
    row ≤ r ∧ find rows r = some moves := by
  obtain ⟨q, hq, hfound⟩ := List.exists_of_findSome?_eq_some hnext
  obtain ⟨found, hfind, heq⟩ := Option.map_eq_some_iff.1 hfound
  cases heq
  exact ⟨(List.mem_range'_1.1 hq).1, hfind⟩

theorem shiftAll_induction {moves : List Shift}
    (step : ∀ rows, ∀ move ∈ moves, P rows → P (rows.shift move)) (start : P rows) :
    P (rows.shiftAll moves) := by
  unfold shiftAll
  induction moves generalizing rows with
  | nil => exact start
  | cons move rest ih =>
    have hfirst := step rows move List.mem_cons_self start
    exact ih (fun rows move' hmem => step rows move' (List.mem_cons_of_mem move hmem)) hfirst

@[simp] theorem size_shiftAll (rows : Layout) (moves : List Shift) :
    (rows.shiftAll moves).size = rows.size :=
  shiftAll_induction (fun rows' move _ hsize => (size_shift rows' move).trans hsize) rfl

/-- A row in which nothing is shifted stays. -/
theorem getElem?_shiftAll_of_notMem {i : Nat} (hi : i ∉ moves.map (·.row)) :
    (rows.shiftAll moves)[i]? = rows[i]? := by
  refine shiftAll_induction (P := fun moved => moved[i]? = rows[i]?) (fun moved move hmem hsame => ?_) rfl
  have hne : move.row ≠ i := fun heq => hi (heq ▸ List.mem_map_of_mem hmem)
  simp [getElem?_shift, hne, hsame]

/-- Different rows are shifted independently. -/
theorem getElem?_shiftAll_of_mem (hnodup : (moves.map (·.row)).Nodup) {move : Shift}
    (hmem : move ∈ moves) : (rows.shiftAll moves)[move.row]? =
      rows[move.row]?.map fun r => r.moveRight move.lane move.width := by
  obtain ⟨before, after, rfl⟩ := List.append_of_mem hmem
  rw [List.map_append, List.map_cons, List.nodup_middle, List.nodup_cons, List.mem_append,
    not_or] at hnodup
  obtain ⟨⟨hbefore, hafter⟩, -⟩ := hnodup
  have hsplit : rows.shiftAll (before ++ move :: after) =
      ((rows.shiftAll before).shift move).shiftAll after := by
    rw [shiftAll, List.foldl_append]
    rfl
  rw [hsplit, getElem?_shiftAll_of_notMem hafter, getElem?_shift, getElem?_shiftAll_of_notMem hbefore]
  simp

/-- Shifts of rows that have a row below them leave the last row as it is. -/
theorem back?_shiftAll {moves : List Shift} (hmoves : ∀ move ∈ moves, move.row + 1 < rows.size) :
    (rows.shiftAll moves).back? = rows.back? := by
  have hshift (shifted : Layout) (move : Shift) (hrow : move.row + 1 < shifted.size) :
      (shifted.shift move).back? = shifted.back? := by
    rw [Array.back?_eq_getElem?, Array.back?_eq_getElem?, size_shift, getElem?_shift]
    simp [Nat.ne_of_lt (Nat.lt_sub_of_add_lt hrow)]
  refine (shiftAll_induction (P := fun shifted => shifted.size = rows.size ∧
    shifted.back? = rows.back?) (fun shifted move hmem same => ⟨?_, ?_⟩) ⟨rfl, rfl⟩).2
  · rw [size_shift, same.1]
  · rw [hshift shifted move (same.1.symm ▸ hmoves move hmem), same.2]

theorem sweepWithin_induction {find : Layout → Nat → Option (List Shift)}
    (step : ∀ rows row moves, find rows row = some moves → P rows → P (rows.shiftAll moves))
    (stretch : Stretch) (budget floor row : Nat) (start : P rows) :
    P (sweepWithin find stretch budget floor row rows) := by
  induction budget generalizing floor row rows with
  | zero => exact start
  | succ budget ih =>
    unfold sweepWithin
    split
    · exact start
    · next r moves hnext => exact ih _ _ (step rows r moves (nextShifts?_eq_some hnext).2 start)

theorem sweep_induction {find : Stretch → Layout → Nat → Option (List Shift)} {stretch : Stretch}
    (step : ∀ rows row moves, find stretch rows row = some moves → P rows → P (rows.shiftAll moves))
    (start : P rows) : P (sweep find stretch rows) := by
  unfold sweep
  split
  · exact sweepWithin_induction step stretch _ _ _ start
  · exact start

theorem straighten_induction (step : ∀ rows move, P rows → P (rows.shift move)) (config : Config)
    (first : Nat) (final : Bool) (start : P rows) : P (rows.straighten config first final) := by
  have hmoves (rows : Layout) (moves : List Shift) (h : P rows) : P (rows.shiftAll moves) :=
    shiftAll_induction (fun rows move _ => step rows move) h
  have hlanes (stretch : Stretch) (rows : Layout) (h : P rows) : P (straightenLanes stretch rows) :=
    sweep_induction (fun rows _ moves _ => hmoves rows moves) h
  have hdiagonals (stretch : Stretch) (rows : Layout) (h : P rows) :
      P (straightenDiagonals stretch rows) :=
    sweep_induction (fun rows _ moves _ => hmoves rows moves) h
  -- Each of the two sweeps takes place or not.
  unfold straighten
  dsimp only
  repeat' split
  · exact hlanes _ _ start
  · exact start
  · exact hdiagonals _ _ (hlanes _ _ start)
  · exact hdiagonals _ _ start
  · exact hlanes _ _ start
  · exact start

theorem size_sweep (find : Stretch → Layout → Nat → Option (List Shift)) (stretch : Stretch)
    (rows : Layout) : (sweep find stretch rows).size = rows.size :=
  sweep_induction (P := fun rows' => rows'.size = rows.size)
    (fun rows' _ moves _ hsize => (size_shiftAll rows' moves).trans hsize) rfl

end Layout

end CommitLanes
