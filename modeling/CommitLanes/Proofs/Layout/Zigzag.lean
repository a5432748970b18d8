import CommitLanes.Proofs.Layout.Strict
import Mathlib.Data.List.Nodup

/-! # Zigzags are found

The search for a zigzag follows a line down the rows. It finds the leftmost line that steps to the
left and then, without having moved, to the right again, and shifting the rows in between takes the
line to the next lane in all of them. -/

namespace CommitLanes

theorem Row.lane?_of_mem (row : Row) (hnodup : row.segments.Nodup) {strand : Drawn}
    (hmem : strand ∈ row.drawn) : row.lane? strand.segment = some strand.lane := by
  rw [lane?, find?_of_mem hnodup hmem, Option.map_some]

namespace Layout

variable {stands : Nat → Int} {rows : Layout} {row last stop : Nat} {s : Seg} {strand : Drawn}
  {strands : List Drawn} {found : Option Zigzag}

/-! ## The course of a line -/

/-- The segment as which the line of `s` in a row goes on some rows further down. -/
def course (rows : Layout) (row : Nat) (s : Seg) : Nat → Seg
  | 0 => s
  | steps + 1 => rows.follow (row + steps) (rows.course row s steps)

private theorem course_follow (steps : Nat) :
    rows.course (row + 1) (rows.follow row s) steps = rows.course row s (steps + 1) := by
  induction steps with
  | zero => rfl
  | succ steps ih =>
    rw [course, ih, course, Nat.add_right_comm row 1 steps]
    rfl

/-- Where a segment is in a row if lanes are compared by where each `stands`. A segment that is not in
the row is just left of lane 0. -/
def stand (stands : Nat → Int) (rows : Layout) (row : Nat) (s : Seg) : Int :=
  ((rows.lane? row s).map stands).getD (-1)

/-- Where the line of a segment is some rows further down. -/
def standAfter (stands : Nat → Int) (rows : Layout) (row : Nat) (s : Seg) (steps : Nat) : Int :=
  rows.stand stands (row + steps) (rows.course row s steps)

private theorem standAfter_follow (steps : Nat) :
    rows.standAfter stands (row + 1) (rows.follow row s) steps =
      rows.standAfter stands row s (steps + 1) := by
  rw [standAfter, standAfter, course_follow, Nat.add_right_comm, Nat.add_assoc]

/-- A line that was at `lane`, and at `above` before, is further to the right `here`: by one lane, or by
more if it came from that lane. -/
def Returns (lane above here : Int) : Prop :=
  here = lane + 1 ∨ lane + 1 < here ∧ above = lane + 1

/-! ## The search -/

/-- The search ends where the line returns if it has stayed in its lane until then. -/
theorem returnRow?_eq_some_iff {lane above : Int} {count : Nat} :
    rows.returnRow? lane above count row s = some stop ↔
      ∃ steps < count, stop = row + steps ∧
        (∀ k < steps, rows.standAfter position row s k = lane) ∧
        Returns lane above (rows.standAfter position row s steps) := by
  induction count generalizing row s with
  | zero => simp [returnRow?]
  | succ count ih =>
    unfold returnRow?
    dsimp only
    split
    · next hreturns =>
      constructor
      · rintro ⟨⟩
        exact ⟨0, count.succ_pos, rfl, nofun, hreturns⟩
      · rintro ⟨steps, -, rfl, hstays, -⟩
        cases steps with
        | zero => rfl
        | succ steps =>
          -- The line cannot stay in the row in which it returns.
          have hhere : rows.positionOf row s = lane := hstays 0 steps.succ_pos
          omega
    · next hreturns =>
      split
      · next hhere =>
        rw [ih]
        constructor
        · rintro ⟨steps, hlt, rfl, hstays, hlater⟩
          refine ⟨steps + 1, Nat.succ_lt_succ hlt, by omega, fun k hk => ?_, ?_⟩
          · cases k with
            | zero => exact hhere
            | succ k =>
              rw [← standAfter_follow]
              exact hstays k (Nat.lt_of_succ_lt_succ hk)
          · rwa [← standAfter_follow]
        · rintro ⟨steps, hlt, rfl, hstays, hlater⟩
          cases steps with
          | zero => exact absurd hlater hreturns
          | succ steps =>
            refine ⟨steps, Nat.lt_of_succ_lt_succ hlt, by omega, fun k hk => ?_, ?_⟩
            · rw [standAfter_follow]
              exact hstays (k + 1) (Nat.succ_lt_succ hk)
            · rwa [standAfter_follow]
      · next hleaves =>
        refine iff_of_false nofun ?_
        rintro ⟨steps, -, -, hstays, hlater⟩
        cases steps with
        | zero => exact hreturns hlater
        | succ steps => exact hleaves (hstays 0 steps.succ_pos)

/-- The primary strand of a lane is further to the right in the row above. Its line stays in the lane
until it returns in row `stop`, which is not below row `last`. -/
structure Zigzags (stands : Nat → Int) (rows : Layout) (row last : Nat) (strand : Drawn) (stop : Nat) :
    Prop where
  primary : strand.sharing = .primary
  lt : row < stop
  le : stop ≤ last
  comes : stands strand.lane < rows.stand stands (row - 1) strand.segment
  stays : ∀ steps, 0 < steps → row + steps < stop →
    rows.standAfter stands row strand.segment steps = stands strand.lane
  returns : Returns (stands strand.lane) (rows.stand stands (row - 1) strand.segment)
    (rows.standAfter stands row strand.segment (stop - row))

/-- A zigzag ends in one row only. -/
private theorem Zigzags.le_stop {other : Nat}
    (zigzags : Zigzags stands rows row last strand stop)
    (later : Zigzags stands rows row last strand other) : other ≤ stop := by
  by_contra hlt
  have hrow := zigzags.lt
  have hstays := later.stays (stop - row) (by omega) (by omega)
  have hreturns := zigzags.returns
  unfold Returns at hreturns
  omega

private theorem Zigzags.stop_eq {other : Nat}
    (zigzags : Zigzags stands rows row last strand stop)
    (later : Zigzags stands rows row last strand other) : stop = other :=
  le_antisymm (later.le_stop zigzags) (zigzags.le_stop later)

theorem zigzagOf?_eq_some_iff {zigzag : Zigzag} (hprimary : strand.sharing = .primary) :
    rows.zigzagOf? row last strand = some zigzag ↔
      zigzag = ⟨row, strand.lane, zigzag.stop⟩ ∧
        Zigzags position rows row last strand zigzag.stop := by
  unfold zigzagOf?
  dsimp only
  split
  · next hcomes =>
    simp only [Option.map_eq_some_iff, returnRow?_eq_some_iff, standAfter_follow]
    constructor
    · rintro ⟨stop, ⟨steps, hlt, rfl, hstays, hreturns⟩, rfl⟩
      refine ⟨rfl, hprimary, by dsimp only; omega, by dsimp only; omega, hcomes, ?_, ?_⟩
      · intro k hpos hk
        obtain ⟨k, rfl⟩ := Nat.exists_eq_succ_of_ne_zero hpos.ne'
        exact hstays k (by dsimp only at hk; omega)
      · dsimp only
        rwa [show row + 1 + steps - row = steps + 1 by omega]
    · rintro ⟨heq, zigzags⟩
      have hlt := zigzags.lt
      have hle := zigzags.le
      refine ⟨zigzag.stop, ⟨zigzag.stop - (row + 1), by omega, by omega, fun k hk => ?_, ?_⟩, heq.symm⟩
      · exact zigzags.stays (k + 1) k.succ_pos (by omega)
      · rw [show zigzag.stop - (row + 1) + 1 = zigzag.stop - row by omega]
        exact zigzags.returns
  · next hstays =>
    refine iff_of_false nofun ?_
    rintro ⟨-, zigzags⟩
    exact hstays zigzags.comes

theorem zigzagOf?_eq_none_iff (hprimary : strand.sharing = .primary) :
    rows.zigzagOf? row last strand = none ↔
      ∀ stop, ¬ Zigzags position rows row last strand stop := by
  rw [Option.eq_none_iff_forall_ne_some]
  constructor
  · intro hnone stop zigzags
    exact hnone ⟨row, strand.lane, stop⟩ ((zigzagOf?_eq_some_iff hprimary).2 ⟨rfl, zigzags⟩)
  · intro hnone zigzag hsome
    exact hnone _ ((zigzagOf?_eq_some_iff hprimary).1 hsome).2

/-- What is found among some strands of a row: the zigzag that the first one begins of those that begin
one, or nothing if none does. -/
def FirstOf (stands : Nat → Int) (rows : Layout) (row last : Nat) (strands : List Drawn) :
    Option Zigzag → Prop
  | none => ∀ strand ∈ strands, ∀ stop, ¬ Zigzags stands rows row last strand stop
  | some zigzag => ∃ before strand after, strands = before ++ strand :: after ∧
      zigzag = ⟨row, strand.lane, zigzag.stop⟩ ∧ Zigzags stands rows row last strand zigzag.stop ∧
      ∀ other ∈ before, ∀ stop, ¬ Zigzags stands rows row last other stop

/-- A strand that begins no zigzag does not matter. -/
theorem FirstOf.cons (first : FirstOf stands rows row last strands found)
    (hnone : ∀ stop, ¬ Zigzags stands rows row last strand stop) :
    FirstOf stands rows row last (strand :: strands) found := by
  cases found with
  | none => exact List.forall_mem_cons.2 ⟨hnone, first⟩
  | some zigzag =>
    obtain ⟨before, leftmost, after, rfl, heq, zigzags, hbefore⟩ := first
    exact ⟨strand :: before, leftmost, after, rfl, heq, zigzags,
      List.forall_mem_cons.2 ⟨hnone, hbefore⟩⟩

/-- The strand that begins the zigzag is the first that begins one, and the zigzag ends in one row. -/
private theorem FirstOf.eq {other : Option Zigzag}
    (first : FirstOf stands rows row last strands found)
    (second : FirstOf stands rows row last strands other) : found = other := by
  classical
  have hfind {before after : List Drawn} {strand : Drawn} {stop : Nat}
      (hsplit : strands = before ++ strand :: after)
      (zigzags : Zigzags stands rows row last strand stop)
      (hbefore : ∀ other ∈ before, ∀ stop, ¬ Zigzags stands rows row last other stop) :
      strands.find? (fun strand => ∃ stop, Zigzags stands rows row last strand stop) = some strand := by
    refine List.find?_eq_some_iff_append.2 ⟨decide_eq_true ⟨stop, zigzags⟩, before, after, hsplit, ?_⟩
    intro other hmem
    simpa using hbefore other hmem
  cases found with
  | none =>
    cases other with
    | none => rfl
    | some zigzag =>
      obtain ⟨before, strand, after, rfl, -, zigzags, -⟩ := second
      exact absurd zigzags (first strand (List.mem_append_right before List.mem_cons_self) _)
  | some zigzag =>
    obtain ⟨before, strand, after, hsplit, heq, zigzags, hbefore⟩ := first
    cases other with
    | none =>
      have hmem : strand ∈ strands := hsplit ▸ List.mem_append_right before List.mem_cons_self
      exact absurd zigzags (second strand hmem _)
    | some zigzag' =>
      obtain ⟨before', strand', after', hsplit', heq', zigzags', hbefore'⟩ := second
      obtain rfl : strand = strand' := Option.some.inj
        ((hfind hsplit zigzags hbefore).symm.trans (hfind hsplit' zigzags' hbefore'))
      rw [heq, heq', zigzags.stop_eq zigzags']

private theorem FirstOf.eq_iff (first : FirstOf stands rows row last strands found)
    (other : Option Zigzag) : found = other ↔ FirstOf stands rows row last strands other :=
  ⟨fun heq => heq ▸ first, first.eq⟩

private theorem firstOf_findSome? (strands : List Drawn) : FirstOf position rows row last strands
    ((strands.filter (·.sharing = .primary)).findSome? (rows.zigzagOf? row last)) := by
  induction strands with
  | nil => exact nofun
  | cons strand rest ih =>
    by_cases hprimary : strand.sharing = .primary
    · rw [List.filter_cons, if_pos (decide_eq_true hprimary), List.findSome?_cons]
      cases hzigzag : rows.zigzagOf? row last strand with
      | some zigzag =>
        obtain ⟨heq, zigzags⟩ := (zigzagOf?_eq_some_iff hprimary).1 hzigzag
        exact ⟨[], strand, rest, rfl, heq, zigzags, nofun⟩
      | none => exact ih.cons ((zigzagOf?_eq_none_iff hprimary).1 hzigzag)
    · rw [List.filter_cons, if_neg (mt of_decide_eq_true hprimary)]
      exact ih.cons fun stop zigzags => hprimary zigzags.primary

/-! ## Lanes that are compared alike -/

/-- All lanes are left of `limit`. -/
def LanesBelow (limit : Nat) (rows : Layout) : Prop :=
  ∀ r ∈ rows, ∀ strand ∈ r.drawn, strand.lane < limit

section Alike

variable {limit : Nat} {stands' : Nat → Int} (hbelow : LanesBelow limit rows)
include hbelow

theorem LanesBelow.lane?_lt {lane : Nat} (hlane : rows.lane? row s = some lane) : lane < limit := by
  obtain ⟨r, hr, hlane⟩ := Option.bind_eq_some_iff.1 hlane
  obtain ⟨strand, hfind, rfl⟩ := Option.map_eq_some_iff.1 hlane
  exact hbelow r (Array.mem_of_getElem? hr) strand (List.mem_of_find?_eq_some hfind)

variable (hsame : ∀ lane < limit, stands lane = stands' lane)
include hsame

private theorem LanesBelow.stand_eq (row : Nat) (s : Seg) :
    rows.stand stands row s = rows.stand stands' row s := by
  unfold stand
  cases hlane : rows.lane? row s with
  | none => rfl
  | some lane => exact hsame lane (hbelow.lane?_lt hlane)

private theorem LanesBelow.zigzags (hlane : strand.lane < limit)
    (zigzags : Zigzags stands rows row last strand stop) :
    Zigzags stands' rows row last strand stop where
  primary := zigzags.primary
  lt := zigzags.lt
  le := zigzags.le
  comes := by
    rw [← hsame _ hlane, ← hbelow.stand_eq hsame]
    exact zigzags.comes
  stays steps hpos hlt := by
    rw [standAfter, ← hsame _ hlane, ← hbelow.stand_eq hsame]
    exact zigzags.stays steps hpos hlt
  returns := by
    rw [standAfter, ← hsame _ hlane, ← hbelow.stand_eq hsame, ← hbelow.stand_eq hsame]
    exact zigzags.returns

private theorem LanesBelow.firstOf (hstrands : ∀ strand ∈ strands, strand.lane < limit)
    (first : FirstOf stands rows row last strands found) :
    FirstOf stands' rows row last strands found := by
  have hback (lane : Nat) (hlt : lane < limit) := (hsame lane hlt).symm
  cases found with
  | none =>
    intro strand hmem stop zigzags
    exact first strand hmem stop (hbelow.zigzags hback (hstrands strand hmem) zigzags)
  | some zigzag =>
    obtain ⟨before, strand, after, rfl, heq, zigzags, hbefore⟩ := first
    rw [List.forall_mem_append, List.forall_mem_cons] at hstrands
    refine ⟨before, strand, after, rfl, heq, hbelow.zigzags hsame hstrands.2.1 zigzags, ?_⟩
    intro other hmem stop zigzags
    exact hbefore other hmem stop (hbelow.zigzags hback (hstrands.1 other hmem) zigzags)

end Alike

/-! ## The shift that removes it -/

theorem follow_shiftAll (moves : List Shift) (row : Nat) (s : Seg) :
    (rows.shiftAll moves).follow row s = rows.follow row s := by
  refine shiftAll_induction (P := fun moved => moved.follow row s = rows.follow row s)
    (fun moved move _ hsame => ?_) rfl
  rw [← hsame]
  unfold follow
  rw [getElem?_shift, Option.map_map]
  congr 2
  funext r
  dsimp only [Function.comp]
  split
  · exact Row.follow_moveRight r move.lane move.width s
  · rfl

/-- A line takes the same course after a shift. -/
theorem course_shiftAll (moves : List Shift) (row : Nat) (s : Seg) (steps : Nat) :
    (rows.shiftAll moves).course row s steps = rows.course row s steps := by
  induction steps with
  | zero => rfl
  | succ steps ih => rw [course, course, follow_shiftAll, ih]

private theorem getElem?_shiftAll_map {is : List Nat} (hnodup : is.Nodup) (lane width i : Nat) :
    (rows.shiftAll (is.map (⟨·, lane, width⟩)))[i]? = rows[i]?.map fun r =>
      if i ∈ is then r.moveRight lane width else r := by
  have hrows : (is.map fun i => Shift.mk i lane width).map (·.row) = is := by
    rw [List.map_map]
    exact List.map_id is
  by_cases hi : i ∈ is
  · simp only [hi, if_true]
    exact getElem?_shiftAll_of_mem (hrows.symm ▸ hnodup)
      (List.mem_map_of_mem (f := fun i => Shift.mk i lane width) hi)
  · rw [getElem?_shiftAll_of_notMem (hrows.symm ▸ hi)]
    simp [hi]

/-- The rows from that of the zigzag down to the one in which the line returns are shifted, and no
others are. -/
private theorem getElem?_shiftAll_shifts (zigzag : Zigzag) (i : Nat) :
    (rows.shiftAll zigzag.shifts)[i]? = rows[i]?.map fun r =>
      if zigzag.row ≤ i ∧ i < zigzag.stop then r.moveRight zigzag.lane 1 else r := by
  have hmem : i ∈ List.range' zigzag.row (zigzag.stop - zigzag.row) ↔
      zigzag.row ≤ i ∧ i < zigzag.stop := by
    rw [List.mem_range'_1]
    omega
  rw [Zigzag.shifts, getElem?_shiftAll_map List.nodup_range']
  simp only [hmem]

private theorem lane?_shiftAll_shifts {zigzag : Zigzag} {i : Nat} (hge : zigzag.row ≤ i)
    (hlt : i < zigzag.stop) (s : Seg) : (rows.shiftAll zigzag.shifts).lane? i s =
      (rows.lane? i s).map (Row.shiftLane zigzag.lane 1) := by
  unfold lane?
  rw [getElem?_shiftAll_shifts]
  simp only [hge, hlt, and_self, if_true]
  cases rows[i]? with
  | none => rfl
  | some r => exact Row.lane?_moveRight r zigzag.lane 1 s

theorem exists_position_eq (lane : Nat) :
    ∃ k : Int, position lane = lane + 0x10000000000000000 * k := by
  unfold position farLane
  split
  · exact ⟨0, by omega⟩
  · exact ⟨-1, by omega⟩

/-- No two lanes stand at one place. -/
theorem position_injOn {a b : Nat} (ha : a < UInt64.size) (hb : b < UInt64.size)
    (heq : position a = position b) : a = b := by
  unfold UInt64.size at ha hb
  obtain ⟨k, hk⟩ := exists_position_eq a
  obtain ⟨k', hk'⟩ := exists_position_eq b
  omega

/-- None but the last lane stands where a segment stands that is not in the row. -/
private theorem position_ne_neg_one {a : Nat} (ha : a + 1 < UInt64.size) : position a ≠ -1 := by
  unfold UInt64.size at ha
  obtain ⟨k, hk⟩ := exists_position_eq a
  omega

theorem LanesBelow.mono {limit limit' : Nat} (hbelow : LanesBelow limit rows)
    (hle : limit ≤ limit') : LanesBelow limit' rows :=
  fun r hr strand hmem => (hbelow r hr strand hmem).trans_le hle

theorem LanesBelow.lane?_of_positionOf_eq (hreal : LanesBelow UInt64.size rows) {lane : Nat}
    (hlane : lane + 1 < UInt64.size) (heq : rows.positionOf row s = position lane) :
    rows.lane? row s = some lane := by
  unfold positionOf at heq
  cases hlane? : rows.lane? row s with
  | none =>
    rw [hlane?] at heq
    exact absurd heq.symm (position_ne_neg_one hlane)
  | some other =>
    rw [hlane?] at heq
    rw [position_injOn (hreal.lane?_lt hlane?) (Nat.lt_of_succ_lt hlane) heq]

/-- The shift takes the line to the next lane in all rows of the zigzag. -/
private theorem lane?_shifted (hbelow : LanesBelow (2 * farLane - 1) rows) {r : Row}
    (hrow : rows[row]? = some r) (hnodup : r.segments.Nodup) (hmem : strand ∈ r.drawn)
    (zigzags : Zigzags position rows row last strand stop) {steps : Nat} (hsteps : row + steps < stop) :
    (rows.shiftAll (Zigzag.mk row strand.lane stop).shifts).lane? (row + steps)
      (rows.course row strand.segment steps) = some (strand.lane + 1) := by
  have hlane : rows.lane? (row + steps) (rows.course row strand.segment steps) = some strand.lane := by
    cases steps with
    | zero =>
      rw [lane?, Nat.add_zero, hrow, Option.bind_some, course, r.lane?_of_mem hnodup hmem]
    | succ steps =>
      have hlt : strand.lane + 1 < UInt64.size :=
        Nat.succ_lt_of_lt_pred (hbelow r (Array.mem_of_getElem? hrow) strand hmem)
      exact (hbelow.mono (by decide)).lane?_of_positionOf_eq hlt
        (zigzags.stays (steps + 1) steps.succ_pos hsteps)
  rw [lane?_shiftAll_shifts (Nat.le_add_right row steps) hsteps, hlane, Option.map_some, Row.shiftLane,
    if_pos le_rfl]

/-- Lanes are compared by their positions. Among the first strands of a row the search finds the first
that begins a zigzag, in rows that there are and as far down as the look-ahead goes, and if all lanes
are left of `farLane` then these are the zigzags of the lanes themselves. The shift takes the line to
the next lane in all rows of the zigzag. -/
theorem findZigzag?_first {rows : Layout} {stretch : Stretch} {row : Nat} {current : Row}
    (hpos : 0 < row) (hrow : rows[row]? = some current) (hhorizon : stretch.horizon < rows.size)
    (hsum : row + stretch.lookAhead < UInt64.size) (hnodup : ∀ r ∈ rows, r.segments.Nodup) :
    let last := min (row + stretch.lookAhead) stretch.horizon
    let strands := current.drawn.take stretch.maxLanes
    let found := rows.findZigzag? row (stretch.horizonFrom row) stretch.maxLanes
    Strict.findZigzag? rows row (stretch.horizonFrom row) stretch.maxLanes = some found ∧
      (∀ other, found = other ↔ FirstOf position rows row last strands other) ∧
      (rows.LanesBelow farLane →
        ∀ other, found = other ↔ FirstOf (fun lane => lane) rows row last strands other) ∧
      (rows.LanesBelow (2 * farLane - 1) →
        ∀ strand ∈ strands, ∀ stop, Zigzags position rows row last strand stop →
          let moved := rows.shiftAll (Zigzag.mk row strand.lane stop).shifts
          (∀ i, moved[i]? = rows[i]?.map fun r =>
            if row ≤ i ∧ i < stop then r.moveRight strand.lane 1 else r) ∧
            ∀ steps, row + steps < stop →
              moved.lane? (row + steps) (moved.course row strand.segment steps) =
                some (strand.lane + 1)) := by
  intro last strands
  rw [Stretch.horizonFrom_of_lt hsum]
  intro found
  have hsize : row < rows.size := (Array.getElem?_eq_some_iff.1 hrow).1
  have hlast : last < rows.size := (min_le_right _ _).trans_lt hhorizon
  have hmem := Array.mem_of_getElem? hrow
  have hexamined : rows.examined row stretch.maxLanes = strands.filter (·.sharing = .primary) := by
    rw [examined, hrow]
  have hfirst : FirstOf position rows row last strands found := by
    have hfound : found = (rows.examined row stretch.maxLanes).findSome? (rows.zigzagOf? row last) := rfl
    rw [hfound, hexamined]
    exact firstOf_findSome? strands
  have hstrict := Begins.findZigzag? ⟨.refl rows.size rows, le_rfl⟩ hpos hsize hlast stretch.maxLanes
  refine ⟨hstrict, hfirst.eq_iff, fun hnear => ?_, fun hbelow strand hstrand stop zigzags => ⟨?_, ?_⟩⟩
  · have hlanes : FirstOf (fun lane => lane) rows row last strands found :=
      hnear.firstOf (fun lane hlt => position_of_lt hlt)
        (fun strand hstrand => hnear current hmem strand (List.mem_of_mem_take hstrand)) hfirst
    exact hlanes.eq_iff
  · exact fun i => getElem?_shiftAll_shifts ⟨row, strand.lane, stop⟩ i
  · intro steps hsteps
    rw [course_shiftAll]
    exact lane?_shifted hbelow hrow (hnodup current hmem) (List.mem_of_mem_take hstrand) zigzags hsteps

/-- A line that comes from lane 1 into lane 0, goes on there below a commit, and then crosses to
lane 4. -/
def bentRows : Layout := #[
  ⟨0, [⟨⟨9, 0, 1, default⟩, 1, .primary⟩], 0⟩,
  ⟨1, [⟨⟨9, 0, 1, default⟩, 0, .primary⟩, ⟨⟨10, 1, 5, default⟩, 0, .differentStart⟩], 0⟩,
  ⟨2, [⟨⟨10, 1, 5, default⟩, 0, .primary⟩], 1⟩,
  ⟨3, [⟨⟨10, 1, 5, default⟩, 4, .primary⟩], 0⟩]

/-- The line is in lane 0 in rows 1 and 2, and then in lane 1. -/
theorem findZigzag?_first_bentRows :
    let stretch : Stretch := ⟨1, 2, 3, 2, 40⟩
    let bent : Drawn := ⟨⟨9, 0, 1, default⟩, 0, .primary⟩
    (∃ current, bentRows[1]? = some current ∧ bent ∈ current.drawn.take stretch.maxLanes) ∧
      stretch.horizon < bentRows.size ∧ 1 + stretch.lookAhead < UInt64.size ∧
      (∀ r ∈ bentRows, r.segments.Nodup) ∧
      Zigzags position bentRows 1 (min (1 + stretch.lookAhead) stretch.horizon) bent 3 ∧
      bentRows.findZigzag? 1 (stretch.horizonFrom 1) stretch.maxLanes = some ⟨1, 0, 3⟩ ∧
      Strict.findZigzag? bentRows 1 (stretch.horizonFrom 1) stretch.maxLanes = some (some ⟨1, 0, 3⟩) ∧
      let moved := bentRows.shiftAll (Zigzag.mk 1 0 3).shifts
      ∀ steps, 1 + steps < 3 → moved.lane? (1 + steps) (moved.course 1 9 steps) = some 1 := by
  intro stretch bent
  have hhorizon : stretch.horizon < bentRows.size := by decide
  have hsum : 1 + stretch.lookAhead < UInt64.size := by decide
  have hnodup : ∀ r ∈ bentRows, r.segments.Nodup := by decide
  have hbelow : bentRows.LanesBelow (2 * farLane - 1) := by
    unfold LanesBelow
    decide
  have hfound : bentRows.findZigzag? 1 (stretch.horizonFrom 1) stretch.maxLanes = some ⟨1, 0, 3⟩ := by
    decide
  have zigzags : Zigzags position bentRows 1 (min (1 + stretch.lookAhead) stretch.horizon) bent 3 := by
    refine ⟨rfl, by decide, by decide, by decide, fun steps hpos hlt => ?_, .inr (by decide)⟩
    obtain rfl : steps = 1 := by omega
    decide
  obtain ⟨hstrict, -, -, hmoved⟩ :=
    @findZigzag?_first bentRows stretch 1 _ Nat.one_pos rfl hhorizon hsum hnodup
  rw [hfound] at hstrict
  exact ⟨⟨_, rfl, List.mem_cons_self⟩, hhorizon, hsum, hnodup, zigzags, hfound, hstrict,
    (hmoved hbelow bent List.mem_cons_self 3 zigzags).2⟩

/-- A line that comes from a lane at or right of `farLane`. -/
def farRows : Layout := #[
  ⟨0, [⟨⟨9, 60, 61, default⟩, 0x8000000000000010, .primary⟩], 0⟩,
  ⟨1, [⟨⟨9, 60, 61, default⟩, 2, .primary⟩], 0⟩,
  ⟨2, [⟨⟨9, 60, 61, default⟩, 3, .primary⟩], 0⟩]

/-- The lanes themselves do not decide what is found. -/
theorem not_findZigzag?_first_lanes :
    ¬ ∀ (rows : Layout) (stretch : Stretch) (row : Nat) (current : Row), 0 < row →
      rows[row]? = some current → stretch.horizon < rows.size → (∀ r ∈ rows, r.segments.Nodup) →
      ∀ found, rows.findZigzag? row (stretch.horizonFrom row) stretch.maxLanes = found ↔
        FirstOf (fun lane => lane) rows row (min (row + stretch.lookAhead) stretch.horizon)
          (current.drawn.take stretch.maxLanes) found := by
  intro hall
  have hnone : farRows.findZigzag? 1 (Stretch.horizonFrom ⟨1, 1, 2, 1, 40⟩ 1) 40 = none := by decide
  have hfirst := (hall farRows ⟨1, 1, 2, 1, 40⟩ 1 _ Nat.one_pos rfl (by decide) (by decide) none).1 hnone
  refine hfirst ⟨⟨9, 60, 61, default⟩, 2, .primary⟩ List.mem_cons_self 2
    ⟨rfl, by decide, by decide, by decide, fun steps hpos hlt => ?_, .inl (by decide)⟩
  omega

end Layout

end CommitLanes
