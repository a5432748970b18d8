import CommitLanes.Proofs.Layout.Margin

/-! # The rows that are looked at

The searches for something to straighten, written so that they have no result as soon as they look
up a row that is not there. They do have one, and it is settled by the rows that are not far from the
one that is examined. -/

namespace CommitLanes

/-! ## Searches that may fail -/

namespace Layout.Strict

/-- The number of the row `k` rows further up. -/
def rowAbove (row k : Nat) : Option Nat := if k ≤ row then some (row - k) else none

/-- The strands that straightening examines. -/
def examined (rows : Layout) (row maxLanes : Nat) : Option (List Drawn) :=
  rows[row]?.map fun row => (row.drawn.take maxLanes).filter (·.sharing = .primary)

/-- The strand of a segment. -/
def strand? (rows : Layout) (row : Nat) (s : Seg) : Option (Option Drawn) :=
  rows[row]?.map (·.find? s)

/-- Where a segment stands. -/
def positionOf (rows : Layout) (row : Nat) (s : Seg) : Option Int :=
  rows[row]?.map fun row => ((row.lane? s).map position).getD (-1)

/-- The segment as which a line goes on below a row. -/
def follow (rows : Layout) (row : Nat) (s : Seg) : Option Seg := rows[row]?.map (·.follow s)

/-- Shifts a part of a row. -/
def shift (rows : Layout) (move : Shift) : Option Layout :=
  if move.row < rows.size then some (rows.shift move) else none

/-- Makes several shifts one after the other. -/
def shiftAll (rows : Layout) (moves : List Shift) : Option Layout := moves.foldlM shift rows

/-- The row in which a line that stays at `lane` steps to the right. -/
def returnRow? (rows : Layout) (lane above : Int) : Nat → Nat → Seg → Option (Option Nat)
  | 0, _, _ => some none
  | count + 1, row, s => do
    let here ← positionOf rows row s
    if here = lane + 1 ∨ (lane + 1 < here ∧ above = lane + 1) then return some row
    else if here = lane then returnRow? rows lane above count (row + 1) (← follow rows row s)
    else return none

/-- The zigzag that a strand of a row begins. -/
def zigzagOf? (rows : Layout) (row last : Nat) (strand : Drawn) : Option (Option Zigzag) := do
  let lane := position strand.lane
  let above ← positionOf rows (← rowAbove row 1) strand.segment
  if lane < above then
    let next ← follow rows row strand.segment
    let stop? ← returnRow? rows lane above (last - row) (row + 1) next
    return stop?.map (⟨row, strand.lane, ·⟩)
  else return none

/-- The leftmost zigzag that begins in a row. -/
def findZigzag? (rows : Layout) (row last maxLanes : Nat) : Option (Option Zigzag) := do
  (← examined rows row maxLanes).findSomeM? (zigzagOf? rows row last)

end Layout.Strict

namespace Bend.Strict

open Layout.Strict

/-- Whether the line comes into the row above by a step of `slope` to the left. -/
def entersBy (b : Bend) (slope : Int) : Option Bool :=
  if 2 ≤ b.row then do
    let before ← positionOf b.rows (← rowAbove b.row 2) b.segment
    return 0 ≤ before && before = wrapInt (b.above + slope)
  else return false

/-- Whether the line, in the next row `next`, stands at `place` in the row after. -/
def goesOnTo (b : Bend) (next : Seg) (place : Int) : Option Bool :=
  if b.row + 2 ≤ b.last then do
    let after ← positionOf b.rows (b.row + 2) (← follow b.rows (b.row + 1) next)
    return 0 ≤ after && after = place
  else return false

/-- A step to the left that is put off by a row. -/
def postpone? (b : Bend) : Option (Option (List Shift)) :=
  if b.here = wrapInt (b.above - 1) ∧ b.row + 2 ≤ b.last then do
    let next ← follow b.rows b.row b.segment
    if (← positionOf b.rows (b.row + 1) next) = b.here then
      if ← goesOnTo b next (wrapInt (b.here - 1)) then
        return if ← entersBy b 1 then none else some (b.shiftHere 1)
      else return none
    else return none
  else return none

/-- The shifts that take a line onto a diagonal. -/
def diagonalFrom? (b : Bend) (slope : Int) :
    Nat → Nat → Seg → Int → List Shift → Option (Option (List Shift))
  | 0, _, _, _, _ => some none
  | count + 1, row, s, above, moves => do
    match ← strand? b.rows row s with
    | none => return none
    | some strand =>
      let target := wrapInt (above + slope)
      let behind := wrapInt (target - position strand.lane)
      let width := behind.toNat
      let ending := strand.sharing = .differentStart
      if behind < 0 ∨ position strand.lane < 0 ∨
          ¬ (strand.sharing = .primary ∨ ending) then return none
      else if 2 ≤ width ∧ row = b.row + 3 ∧ moves.length = 2 ∧
          (moves[1]?.any fun move => move.width = 1) then
        return some (moves.take 1)
      else if width = 0 ∧ moves ≠ [] then return some moves
      else if ending then return none
      else
        let moves := if width = 0 then moves else moves ++ [⟨row, strand.lane, width⟩]
        diagonalFrom? b slope count (row + 1) (← follow b.rows row s) target moves

/-- The diagonal that leads over several lanes. -/
def diagonal? (b : Bend) (slope : Int) : Option (Option (List Shift)) :=
  diagonalFrom? b slope (b.last + 1 - b.row) b.row b.segment
    (if 0 ≤ b.above then b.above else b.here) []

/-- Two steps that become one. Whether there is a next row is asked before it is looked up. -/
def join? (b : Bend) : Option (Option (List Shift)) :=
  let first := wrapInt (b.above - b.here)
  if 0 ≤ b.above ∧ first ≠ 0 ∧ b.row + 1 < b.rows.size then do
    let next ← follow b.rows b.row b.segment
    let below ← positionOf b.rows (b.row + 1) next
    let second := wrapInt (b.here - below)
    if 0 ≤ below ∧ second.sign = first.sign ∧ 3 ≤ (wrapInt (second + first)).natAbs then
      if ← entersBy b first.sign then return none
      else if ← goesOnTo b next (wrapInt (below - second.sign)) then return none
      else return some (b.shiftHere (if second < 0 then second.natAbs else first.natAbs))
    else return none
  else return none

/-- The first shape found. -/
def shifts? (b : Bend) : Option (Option (List Shift)) :=
  [postpone? b, diagonal? b 1, diagonal? b (-1), join? b].findSomeM? id

end Bend.Strict

namespace Layout.Strict

/-- A strand of a row as a bend. -/
def bend (rows : Layout) (row last : Nat) (strand : Drawn) : Option Bend := do
  let above ← positionOf rows (← rowAbove row 1) strand.segment
  return { rows, row, last, segment := strand.segment, here := position strand.lane, above }

/-- The shifts for the leftmost strand of a row that can be made a diagonal. -/
def findDiagonal? (rows : Layout) (row last maxLanes : Nat) : Option (Option (List Shift)) := do
  (← examined rows row maxLanes).findSomeM? fun strand => do
    Bend.Strict.shifts? (← bend rows row last strand)

end Layout.Strict

/-! ## Searches that do not fail -/

private theorem findSomeM?_eq_some {α β : Type} {f : α → Option (Option β)} {g : α → Option β}
    {l : List α} (heq : ∀ a ∈ l, f a = some (g a)) : l.findSomeM? f = some (l.findSome? g) := by
  induction l with
  | nil => rfl
  | cons a rest ih =>
    obtain ⟨ha, hrest⟩ := List.forall_mem_cons.1 heq
    rw [List.findSomeM?_cons, List.findSome?_cons, ha]
    cases g a with
    | none => exact ih hrest
    | some b => rfl

namespace Layout

/-- A segment that does not stand left of lane 0 is in a row that there is. -/
theorem lt_size_of_positionOf {rows : Layout} {row : Nat} {s : Seg}
    (hnonneg : 0 ≤ rows.positionOf row s) : row < rows.size := by
  by_contra hge
  have hnone : rows.lane? row s = none := by
    rw [lane?, Array.getElem?_eq_none (Nat.not_lt.1 hge), Option.bind_none]
  simp [positionOf, hnone] at hnonneg

/-- The second layout has the rows of the first down to row `n`, and these are there. -/
structure Begins (n : Nat) (rows rows' : Layout) : Prop where
  same : SameAbove n rows rows'
  le_size : n ≤ rows.size

namespace Begins

variable {rows rows' : Layout} {n i row last : Nat} (begins : Begins n rows rows') (hi : i < n)
include begins

include hi

private theorem exists_row : ∃ row, rows[i]? = some row ∧ rows'[i]? = some row := by
  have hlt : i < rows.size := hi.trans_le begins.le_size
  have hrow : rows[i]? = some rows[i] := Array.getElem?_eq_getElem hlt
  exact ⟨_, hrow, (begins.same i hi).trans hrow⟩

private theorem examined (maxLanes : Nat) :
    Strict.examined rows' i maxLanes = some (rows.examined i maxLanes) := by
  obtain ⟨row, hrow, hrow'⟩ := begins.exists_row hi
  simp only [Strict.examined, Layout.examined, hrow, hrow', Option.map_some]

private theorem strand? (s : Seg) : Strict.strand? rows' i s = some (rows.strand? i s) := by
  obtain ⟨row, hrow, hrow'⟩ := begins.exists_row hi
  simp only [Strict.strand?, Layout.strand?, hrow, hrow', Option.map_some, Option.bind_some]

private theorem positionOf (s : Seg) :
    Strict.positionOf rows' i s = some (rows.positionOf i s) := by
  obtain ⟨row, hrow, hrow'⟩ := begins.exists_row hi
  simp only [Strict.positionOf, Layout.positionOf, Layout.lane?, hrow, hrow', Option.map_some,
    Option.bind_some]

private theorem follow (s : Seg) : Strict.follow rows' i s = some (rows.follow i s) := by
  obtain ⟨row, hrow, hrow'⟩ := begins.exists_row hi
  simp only [Strict.follow, Layout.follow, hrow, hrow', Option.map_some, Option.getD_some]

omit hi

private theorem returnRow? {lane above : Int} {count : Nat} (hcount : row + count ≤ n) (s : Seg) :
    Strict.returnRow? rows' lane above count row s =
      some (rows.returnRow? lane above count row s) := by
  induction count generalizing row s with
  | zero => rfl
  | succ count ih =>
    have hrow : row < n := by omega
    have hrest : row + 1 + count ≤ n := by omega
    unfold Strict.returnRow? Layout.returnRow?
    simp only [begins.positionOf hrow, begins.follow hrow, ih hrest, Option.bind_eq_bind,
      Option.bind_some]
    split
    · rfl
    · split <;> rfl

private theorem zigzagOf? (hpos : 0 < row) (hrow : row < n) (hlast : last < n) (strand : Drawn) :
    Strict.zigzagOf? rows' row last strand = some (rows.zigzagOf? row last strand) := by
  have hprevious : row - 1 < n := by omega
  have habove : Strict.rowAbove row 1 = some (row - 1) := if_pos hpos
  have hbelow : row + 1 + (last - row) ≤ n := by omega
  unfold Strict.zigzagOf? Layout.zigzagOf?
  simp only [habove, begins.positionOf hprevious, begins.follow hrow, begins.returnRow? hbelow,
    Option.bind_eq_bind, Option.bind_some]
  split <;> rfl

/-- What is found is settled by the rows from one above down to the last that is looked at. -/
theorem findZigzag? (hpos : 0 < row) (hrow : row < n) (hlast : last < n) (maxLanes : Nat) :
    Strict.findZigzag? rows' row last maxLanes = some (rows.findZigzag? row last maxLanes) := by
  unfold Strict.findZigzag? Layout.findZigzag?
  rw [begins.examined hrow, Option.bind_eq_bind, Option.bind_some]
  exact findSomeM?_eq_some fun strand _ => begins.zigzagOf? hpos hrow hlast strand

end Begins

end Layout

namespace Bend

open Layout (Begins)

variable {b : Bend} {rows : Layout} {n : Nat} (begins : Begins n b.rows rows)
include begins

private theorem strict_entersBy (hrow : b.row < n) (slope : Int) :
    Strict.entersBy { b with rows } slope = some (b.entersBy slope) := by
  unfold Strict.entersBy entersBy
  dsimp only
  split
  · next h2 =>
    have hprevious : b.row - 2 < n := by omega
    have habove : Layout.Strict.rowAbove b.row 2 = some (b.row - 2) := if_pos h2
    simp only [habove, begins.positionOf hprevious, Option.bind_eq_bind, Option.bind_some, h2,
      decide_true, Bool.true_and]
    rfl
  · next h2 => simp [h2]

private theorem strict_goesOnTo (hlast : b.last < n) (place : Int) :
    Strict.goesOnTo { b with rows } b.next place = some (b.goesOnTo place) := by
  unfold Strict.goesOnTo goesOnTo
  dsimp only
  split
  · next h2 =>
    have hnext : b.row + 1 < n := by omega
    have hafter : b.row + 2 < n := by omega
    simp only [begins.follow hnext, begins.positionOf hafter, Option.bind_eq_bind, Option.bind_some,
      h2, decide_true, Bool.true_and]
    rfl
  · next h2 => simp [h2]

private theorem strict_postpone? (hlast : b.last < n) :
    Strict.postpone? { b with rows } = some b.postpone? := by
  unfold Strict.postpone? postpone?
  dsimp only
  by_cases h2 : b.row + 2 ≤ b.last
  · have hrow : b.row < n := by omega
    have hnext : b.row + 1 < n := by omega
    have hfollow : Layout.Strict.follow rows b.row b.segment = some b.next :=
      begins.follow hrow b.segment
    have hbelow : Layout.Strict.positionOf rows (b.row + 1) b.next = some b.below :=
      begins.positionOf hnext b.next
    simp only [hfollow, hbelow, strict_goesOnTo begins hlast, strict_entersBy begins hrow,
      Option.bind_eq_bind, Option.bind_some, h2, and_true]
    by_cases hsteps : b.here = wrapInt (b.above - 1)
    · by_cases hstays : b.below = b.here
      · cases b.goesOnTo (wrapInt (b.here - 1)) <;> cases b.entersBy 1 <;>
          simp [← hsteps, hstays, shiftHere]
      · simp [← hsteps, hstays]
    · simp [hsteps]
  · -- There is no row after the next to look at.
    have hgoes : b.goesOnTo (wrapInt (b.here - 1)) = false := by simp [goesOnTo, h2]
    simp [h2, hgoes]

private theorem strict_diagonalFrom? (slope : Int) {count row : Nat} (hcount : row + count ≤ n)
    (s : Seg) (above : Int) (moves : List Shift) :
    Strict.diagonalFrom? { b with rows } slope count row s above moves =
      some (b.diagonalFrom? slope count row s above moves) := by
  induction count generalizing row s above moves with
  | zero => rfl
  | succ count ih =>
    have hrow : row < n := by omega
    have hrest : row + 1 + count ≤ n := by omega
    unfold Strict.diagonalFrom? diagonalFrom?
    simp only [begins.strand? hrow, begins.follow hrow, ih hrest, Option.bind_eq_bind,
      Option.bind_some]
    cases b.rows.strand? row s with
    | none => rfl
    | some strand =>
      dsimp only
      repeat' split
      all_goals rfl

private theorem strict_diagonal? (hrow : b.row < n) (hlast : b.last < n) (slope : Int) :
    Strict.diagonal? { b with rows } slope = some (b.diagonal? slope) := by
  have hcount : b.row + (b.last + 1 - b.row) ≤ n := by omega
  exact strict_diagonalFrom? begins slope hcount _ _ _

/-- It has to be known whether there is a next row, even if that is none of those above row `n`. -/
private theorem strict_join? (hrow : b.row < n) (hlast : b.last < n)
    (hbelow : b.row + 1 < n ∨ b.rows.size ≤ b.row + 1 ∧ rows.size ≤ b.row + 1) :
    Strict.join? { b with rows } = some b.join? := by
  unfold Strict.join? join?
  dsimp only
  generalize wrapInt (b.above - b.here) = first
  rcases hbelow with hnext | ⟨hnone, hnone'⟩
  · obtain ⟨row, -, hthere⟩ := begins.exists_row hnext
    have hsize : b.row + 1 < rows.size := (Array.getElem?_eq_some_iff.1 hthere).1
    have hfollow : Layout.Strict.follow rows b.row b.segment = some b.next :=
      begins.follow hrow b.segment
    have hthere : Layout.Strict.positionOf rows (b.row + 1) b.next = some b.below :=
      begins.positionOf hnext b.next
    simp only [hfollow, hthere, strict_entersBy begins hrow, strict_goesOnTo begins hlast,
      Option.bind_eq_bind, Option.bind_some, hsize, and_true]
    generalize wrapInt (b.here - b.below) = second
    by_cases hcomes : 0 ≤ b.above ∧ first ≠ 0
    · by_cases hsteps : 0 ≤ b.below ∧ second.sign = first.sign ∧ 3 ≤ (wrapInt (second + first)).natAbs
      · rw [if_pos hcomes, if_pos hsteps]
        cases b.entersBy first.sign <;> cases b.goesOnTo (wrapInt (b.below - second.sign)) <;>
          simp [hcomes, hsteps, shiftHere]
      · rw [if_pos hcomes, if_neg hsteps, if_neg fun h => hsteps ⟨h.2.2.1, h.2.2.2.1, h.2.2.2.2.1⟩]
        rfl
    · rw [if_neg hcomes, if_neg fun h => hcomes ⟨h.1, h.2.1⟩]
      rfl
  · have hleft : ¬ 0 ≤ b.below := fun hnonneg =>
      absurd (Layout.lt_size_of_positionOf hnonneg) (Nat.not_lt.2 hnone)
    rw [if_neg fun h => Nat.not_lt.2 hnone' h.2.2, if_neg fun h => hleft h.2.2.1]
    rfl

private theorem strict_shifts? (hrow : b.row < n) (hlast : b.last < n)
    (hbelow : b.row + 1 < n ∨ b.rows.size ≤ b.row + 1 ∧ rows.size ≤ b.row + 1) :
    Strict.shifts? { b with rows } = some b.shifts? := by
  unfold Strict.shifts? shifts?
  simp only [strict_postpone? begins hlast, strict_diagonal? begins hrow hlast,
    strict_join? begins hrow hlast hbelow]
  cases b.postpone? with
  | some moves => rfl
  | none =>
    cases b.diagonal? 1 with
    | some moves => rfl
    | none => cases b.diagonal? (-1) <;> cases b.join? <;> rfl

end Bend

namespace Layout

variable {rows rows' : Layout} {n row last : Nat}

/-- What is found is settled by the rows from two above down to the last that is looked at and to the
next one, or by there being none. -/
theorem Begins.findDiagonal? (begins : Begins n rows rows') (hpos : 0 < row) (hrow : row < n)
    (hlast : last < n) (hbelow : row + 1 < n ∨ rows.size ≤ row + 1 ∧ rows'.size ≤ row + 1)
    (maxLanes : Nat) :
    Strict.findDiagonal? rows' row last maxLanes = some (rows.findDiagonal? row last maxLanes) := by
  have hprevious : row - 1 < n := by omega
  have habove : Strict.rowAbove row 1 = some (row - 1) := if_pos hpos
  have hbend (strand : Drawn) : Strict.bend rows' row last strand =
      some { rows.bend row last strand with rows := rows' } := by
    unfold Strict.bend
    simp only [habove, begins.positionOf hprevious, Option.bind_eq_bind, Option.bind_some]
    rfl
  unfold Strict.findDiagonal? Layout.findDiagonal?
  rw [begins.examined hrow, Option.bind_eq_bind, Option.bind_some]
  refine findSomeM?_eq_some fun strand _ => ?_
  rw [hbend, Option.bind_eq_bind, Option.bind_some]
  exact Bend.strict_shifts? (b := rows.bend row last strand) begins hrow hlast hbelow

theorem strict_shiftAll {moves : List Shift} (hmoves : ∀ move ∈ moves, move.row < rows.size) :
    Strict.shiftAll rows moves = some (rows.shiftAll moves) := by
  unfold Strict.shiftAll shiftAll
  induction moves generalizing rows with
  | nil => rfl
  | cons move rest ih =>
    obtain ⟨hmove, hrest⟩ := List.forall_mem_cons.1 hmoves
    have hshift : Strict.shift rows move = some (rows.shift move) := if_pos hmove
    rw [List.foldlM_cons, hshift]
    exact ih fun move' hmem => (hrest move' hmem).trans_eq (size_shift rows move).symm

end Layout

end CommitLanes
