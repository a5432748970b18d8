import CommitLanes.Proofs.Layout.Rebuild
import CommitLanes.Proofs.Layout.Straightening

/-! # How far down rows look

Two layouts drawn from nothing by orders that begin alike begin alike themselves. A row is drawn by
the revisions of its crossing window. A sweep makes the same shifts in both layouts until it is about
to make one by a row near those that differ, and from there on neither sweep goes back further than
by its look-ahead. -/

namespace CommitLanes

namespace Layout

variable {find : Layout → Nat → Option (List Shift)} {stretch : Stretch} {rows rows' : Layout}
  {m n : Nat}

/-! ## Shifts in step -/

theorem SameAbove.symm (same : SameAbove n rows rows') : SameAbove n rows' rows :=
  fun i hi => (same i hi).symm

theorem SameAbove.shiftAll (same : SameAbove n rows rows') (moves : List Shift) :
    SameAbove n (rows.shiftAll moves) (rows'.shiftAll moves) := by
  unfold Layout.shiftAll
  induction moves generalizing rows rows' with
  | nil => exact same
  | cons move rest ih =>
    refine ih fun i hi => ?_
    rw [getElem?_shift, getElem?_shift, same i hi]

private theorem SameAbove.eq_of_size_le (same : SameAbove n rows rows')
    (hsize : rows'.size = rows.size) (hle : rows.size ≤ n) : rows' = rows := by
  refine Array.ext_getElem? fun i => ?_
  rcases Nat.lt_or_ge i n with hlt | hge
  · exact same i hlt
  · have hout := hle.trans hge
    rw [Array.getElem?_eq_none hout, Array.getElem?_eq_none (hsize.trans_le hout)]

/-- Two searches that agree on the rows above row `m` come upon the same shifts, unless neither finds
any there. -/
private theorem nextShifts?_eq_or_late (last : Nat) {row : Nat}
    (hfind : ∀ r, row ≤ r → r < m → find rows' r = find rows r) :
    nextShifts? find last rows' row = nextShifts? find last rows row ∨
      (∀ r moves, nextShifts? find last rows row = some (r, moves) → m ≤ r) ∧
        ∀ r moves, nextShifts? find last rows' row = some (r, moves) → m ≤ r := by
  induction hcount : last + 1 - row generalizing row with
  | zero =>
    have hrow : last < row := by omega
    exact .inl (by rw [nextShifts?_of_lt hrow, nextShifts?_of_lt hrow])
  | succ count ih =>
    have hrow : row ≤ last := by omega
    rcases Nat.lt_or_ge row m with hlt | hge
    · rw [nextShifts?_of_le hrow, nextShifts?_of_le hrow, hfind row le_rfl hlt]
      cases find rows row with
      | none => exact ih (fun r hr => hfind r (Nat.le_of_succ_le hr)) (by omega)
      | some moves => exact .inl rfl
    · exact .inr ⟨fun r moves hnext => hge.trans (nextShifts?_eq_some hnext).1,
        fun r moves hnext => hge.trans (nextShifts?_eq_some hnext).1⟩

/-- If the next shift is found at least the look-ahead below row `m` then the sweep leaves all rows
above that row as they are. -/
private theorem sameAbove_sweepWithin_of_late (hdown : LooksDown find) (budget floor : Nat)
    {row : Nat}
    (hlate : ∀ r moves, nextShifts? find stretch.last rows row = some (r, moves) →
      m + stretch.lookAhead ≤ r) :
    SameAbove m rows (sweepWithin find stretch budget floor row rows) := by
  cases budget with
  | zero => exact .refl m rows
  | succ budget =>
    unfold sweepWithin
    split
    · exact .refl m rows
    · next r moves hnext =>
      have hr := hlate r moves hnext
      have hfound := (nextShifts?_eq_some hnext).2
      have hback : m ≤ max floor (r - stretch.lookAhead) := by omega
      have hmoves : ∀ move ∈ moves, m ≤ move.row := fun move hmem =>
        (Nat.le_of_add_right_le hr).trans (hdown rows r moves hfound move hmem)
      exact (sameAbove_shiftAll hmoves rows).trans
        (sameAbove_sweepWithin hdown stretch hback (hback.trans (le_max_left _ _)) _)

/-- Two sweeps whose searches agree as long as they do not look at row `n`, over layouts that are the
same above that row. -/
theorem SameAbove.sweepWithin (hdown : LooksDown find)
    (hfind : ∀ rows rows', n ≤ rows.size → rows'.size = rows.size → SameAbove n rows rows' →
      ∀ r, 0 < r → r + stretch.lookAhead < n → find rows' r = find rows r)
    (same : SameAbove n rows rows') (hn : n ≤ rows.size) (hsize : rows'.size = rows.size)
    {budget floor row : Nat} (hrow : 0 < row) (hfloor : 0 < floor) :
    SameAbove (n - 2 * stretch.lookAhead) (Layout.sweepWithin find stretch budget floor row rows)
      (Layout.sweepWithin find stretch budget floor row rows') := by
  induction budget generalizing floor row rows rows' with
  | zero => exact same.mono (Nat.sub_le _ _)
  | succ budget ih =>
    have hfind' : ∀ r, row ≤ r → r < n - stretch.lookAhead → find rows' r = find rows r :=
      fun r hr hlt => hfind rows rows' hn hsize same r (hrow.trans_le hr) (Nat.add_lt_of_lt_sub hlt)
    rcases nextShifts?_eq_or_late stretch.last hfind' with heq | ⟨hlate, hlate'⟩
    · -- Both make the same shifts and go back to the same row.
      unfold Layout.sweepWithin
      rw [heq]
      split
      · exact same.mono (Nat.sub_le _ _)
      · next r moves _ =>
        have hpos : 0 < max floor (r - stretch.lookAhead) := lt_max_of_lt_left hfloor
        refine ih (same.shiftAll moves) ?_ ?_ hpos hpos
        · exact hn.trans_eq (size_shiftAll rows moves).symm
        · rw [size_shiftAll, size_shiftAll, hsize]
    · -- Both leave the rows that count as they are.
      rcases Nat.lt_or_ge n (2 * stretch.lookAhead) with hlt | hge
      · rw [Nat.sub_eq_zero_of_le hlt.le]
        exact fun i hi => absurd hi (Nat.not_lt_zero i)
      · have hsub : n - 2 * stretch.lookAhead + stretch.lookAhead = n - stretch.lookAhead := by omega
        have hleft := sameAbove_sweepWithin_of_late hdown (budget + 1) floor
          fun r moves hnext => hsub.trans_le (hlate r moves hnext)
        have hright := sameAbove_sweepWithin_of_late hdown (budget + 1) floor
          fun r moves hnext => hsub.trans_le (hlate' r moves hnext)
        exact hleft.symm.trans ((same.mono (Nat.sub_le _ _)).trans hright)

namespace Pass

/-- What is found for a row is settled by the rows down to the last that is looked at from there. -/
private theorem find?_congr {pass : Pass} {row : Nat} (begins : Begins n rows rows')
    (begins' : Begins n rows' rows') (hpos : 0 < row) (hrow : row + 1 < n)
    (hhorizon : stretch.horizonFrom row < n) :
    pass.find? stretch rows' row = pass.find? stretch rows row := by
  have hthere : row < n := Nat.lt_of_succ_lt hrow
  -- Both are what the search that looks rows up comes to.
  cases pass with
  | zigzags =>
    have hfind := begins.findZigzag? hpos hthere hhorizon stretch.maxLanes
    rw [begins'.findZigzag? hpos hthere hhorizon stretch.maxLanes] at hfind
    exact congrArg (Option.map Zigzag.shifts) (Option.some_inj.1 hfind)
  | diagonals =>
    have hfind := begins.findDiagonal? hpos hthere hhorizon (.inl hrow) stretch.maxLanes
    rw [begins'.findDiagonal? hpos hthere hhorizon (.inl hrow) stretch.maxLanes] at hfind
    exact Option.some_inj.1 hfind

/-- Layouts that are the same above row `n` are straightened alike, as far as nothing that is
straightened looks at that row and is looked at itself. -/
private theorem sameAbove_straighten_of_sameAbove (pass : Pass) (hlook : 0 < stretch.lookAhead)
    (same : SameAbove n rows rows') (hsize : rows'.size = rows.size) :
    SameAbove (n - 2 * stretch.lookAhead) (pass.straighten stretch rows)
      (pass.straighten stretch rows') := by
  rcases Nat.le_total rows.size n with hle | hge
  · rw [same.eq_of_size_le hsize hle]
    exact .refl _ _
  · have hfits : stretch.Fits rows' ↔ stretch.Fits rows := by
      unfold Stretch.Fits
      rw [hsize]
    rw [straighten_eq_sweep, straighten_eq_sweep, sweep, sweep]
    split
    · next hfits' =>
      rw [if_pos (hfits.2 hfits')]
      refine same.sweepWithin (pass.looksDown stretch) ?_ hge hsize hfits'.1 Nat.one_pos
      intro rows rows' hn hsize same r hpos hr
      have begins : Begins n rows rows' := ⟨same, hn⟩
      have begins' : Begins n rows' rows' := ⟨.refl n rows', hn.trans_eq hsize.symm⟩
      exact find?_congr begins begins' hpos (by omega) ((stretch.horizonFrom_le r).trans_lt hr)
    · next hunfit =>
      rw [if_neg fun hfits' => hunfit (hfits.1 hfits')]
      exact same.mono (Nat.sub_le _ _)

/-- A pass along a stretch, if there is one. -/
def along (pass : Pass) (stretch? : Option Stretch) (rows : Layout) : Layout :=
  stretch?.elim rows (pass.straighten · rows)

@[simp] theorem size_along (pass : Pass) (stretch? : Option Stretch) (rows : Layout) :
    (pass.along stretch? rows).size = rows.size := by
  cases stretch? with
  | none => rfl
  | some stretch =>
    unfold along
    dsimp only [Option.elim]
    rw [straighten_eq_sweep, size_sweep]

private theorem sameAbove_along_of_sameAbove (pass : Pass) {stretch? : Option Stretch} {k : Nat}
    (hstretch : ∀ stretch ∈ stretch?, stretch.lookAhead = k ∧ 0 < k)
    (same : SameAbove n rows rows') (hsize : rows'.size = rows.size) :
    SameAbove (n - 2 * k) (pass.along stretch? rows) (pass.along stretch? rows') := by
  cases stretch? with
  | none => exact same.mono (Nat.sub_le _ _)
  | some stretch =>
    obtain ⟨rfl, hpos⟩ := hstretch stretch rfl
    exact pass.sameAbove_straighten_of_sameAbove hpos same hsize

end Pass

variable {config : Config}

/-- Layouts are straightened by one pass after the other. -/
private theorem straighten_eq_along (config : Config) (start : Nat) (final : Bool) (rows : Layout) :
    rows.straighten config start final =
      Pass.diagonals.along
        (if config.diagonalLookAhead = 0 then none
          else config.stretch? start (rows.size - 1) config.diagonalReach config.diagonalLookAhead
            final)
        (Pass.zigzags.along (config.stretch? start (rows.size - 1) config.laneLookAhead
          config.laneLookAhead final) rows) := by
  unfold straighten
  dsimp only
  cases config.stretch? start (rows.size - 1) config.laneLookAhead config.laneLookAhead final <;>
    split <;>
    cases config.stretch? start (rows.size - 1) config.diagonalReach config.diagonalLookAhead
      final <;>
    rfl

/-- A layout is straightened by the rows down to the look-ahead of both passes. -/
private theorem sameAbove_straighten_of_sameAbove (same : SameAbove n rows rows')
    (hsize : rows'.size = rows.size) (start : Nat) (final : Bool) :
    SameAbove (n - config.fullLookAhead) (rows.straighten config start final)
      (rows'.straighten config start final) := by
  rcases Nat.eq_zero_or_pos config.laneLookAhead with hzero | hpos
  · rw [straighten_eq_self hzero, straighten_eq_self hzero]
    exact same.mono (Nat.sub_le _ _)
  · rw [straighten_eq_along, straighten_eq_along, hsize]
    have hlanes := Pass.zigzags.sameAbove_along_of_sameAbove
      (fun stretch hstretch => ⟨lookAhead_stretch? hstretch, hpos⟩ :
        ∀ stretch ∈ config.stretch? start (rows.size - 1) config.laneLookAhead config.laneLookAhead
          final, _) same hsize
    refine (Pass.diagonals.sameAbove_along_of_sameAbove (k := config.diagonalLookAhead)
      (fun stretch hstretch => ?_) hlanes (by simp [hsize])).mono ?_
    · split at hstretch
      · cases hstretch
      · next hne => exact ⟨lookAhead_stretch? hstretch, Nat.pos_of_ne_zero hne⟩
    · unfold Config.fullLookAhead
      omega

/-! ## Drawing -/

variable {h : History} {order order' : List Rev} {v : Nat}

/-- The order of the segments that start in a row is settled by its crossing window. -/
private theorem startsAt_congr (htake : order'.take v = order.take v) {row : Nat}
    (hrow : row + config.crossingLookAhead < v) (h : History) (r : Rev) :
    startsAt h config order' row r = startsAt h config order row r := by
  have hbelow (order : List Rev) : (order.drop (row + 1)).take (config.crossingLookAhead - 1) =
      ((order.take v).drop (row + 1)).take (config.crossingLookAhead - 1) := by
    rw [List.drop_take, List.take_take, Nat.min_eq_left (by omega)]
  unfold startsAt Window.ofRow
  rw [hbelow order', hbelow order, htake]

@[simp] theorem size_drawRow (h : History) (config : Config) (order : List Rev) (rows : Layout)
    (r : Rev) : (rows.drawRow h config order r).size = rows.size + 1 := Array.size_push _

private theorem drawRow_congr_of_startsAt (r : Rev)
    (hstarts : startsAt h config order' rows.size r = startsAt h config order rows.size r) :
    drawRow h config order' rows r = drawRow h config order rows r := by
  unfold drawRow
  dsimp only
  rw [hstarts]

private theorem drawAll_congr_of_startsAt {rs : List Rev}
    (hstarts : ∀ row < rows.size + rs.length, ∀ r,
      startsAt h config order' row r = startsAt h config order row r) :
    drawAll h config order' rs rows = drawAll h config order rs rows := by
  induction rs generalizing rows with
  | nil => simp only [drawAll, List.foldl_nil]
  | cons r rest ih =>
    have hlength : rows.size + (r :: rest).length = rows.size + 1 + rest.length := by
      rw [List.length_cons, Nat.add_assoc, Nat.add_comm 1]
    have hrow := drawRow_congr_of_startsAt r (hstarts rows.size (by simp) r)
    rw [hlength] at hstarts
    rw [← size_drawRow h config order rows r] at hstarts
    have hrest := ih hstarts
    unfold drawAll at hrest ⊢
    rw [List.foldl_cons, List.foldl_cons, hrow, hrest]

private theorem drawTo_empty (h : History) (config : Config) (order : List Rev) (last : Nat) :
    drawTo h config order last #[] = drawAll h config order (order.take (last + 1)) #[] := rfl

@[simp] theorem size_drawAll (h : History) (config : Config) (order rs : List Rev) (rows : Layout) :
    (drawAll h config order rs rows).size = rows.size + rs.length := by
  rw [← length_revisions, revisions_drawAll, List.length_append, length_revisions]

/-- The rows of the first `n` revisions are drawn first. -/
theorem sameAbove_drawTo_take (h : History) (config : Config) (order : List Rev) (last n : Nat) :
    SameAbove n (drawAll h config order ((order.take (last + 1)).take n) #[])
      (drawTo h config order last #[]) := by
  have hsplit := drawAll_append h config order ((order.take (last + 1)).take n)
    ((order.take (last + 1)).drop n) #[]
  rw [List.take_append_drop] at hsplit
  rw [drawTo_empty, hsplit]
  rcases Nat.le_total n (order.take (last + 1)).length with hle | hge
  · refine .of_take_eq (take_drawAll h config order _ _ ?_)
    rw [size_drawAll, List.length_take_of_le hle, Array.size_empty, Nat.zero_add]
  · -- There are no other rows.
    rw [List.drop_of_length_le hge]
    exact .refl _ _

/-- The rows above the first one whose crossing window is not settled are drawn alike. -/
private theorem sameAbove_drawTo_of_take_eq (htake : order'.take v = order.take v) (h : History)
    (config : Config) (last : Nat) :
    SameAbove (v - config.crossingLookAhead) (drawTo h config order last #[])
      (drawTo h config order' last #[]) := by
  generalize hn : v - config.crossingLookAhead = n
  have hbegin (order : List Rev) :
      (order.take (last + 1)).take n = ((order.take v).take n).take (last + 1) := by
    rw [List.take_take, List.take_take, List.take_take, Nat.min_eq_left (b := v) (by omega),
      Nat.min_comm]
  have htop : drawAll h config order' ((order'.take (last + 1)).take n) #[] =
      drawAll h config order ((order.take (last + 1)).take n) #[] := by
    rw [hbegin order', htake, ← hbegin order]
    refine drawAll_congr_of_startsAt fun row hrow r => startsAt_congr htake ?_ h r
    have hlength := List.length_take_le n (order.take (last + 1))
    rw [Array.size_empty] at hrow
    omega
  have hright := sameAbove_drawTo_take h config order' last n
  rw [htop] at hright
  exact (sameAbove_drawTo_take h config order last n).symm.trans hright

/-! ## Extending from nothing -/

private theorem extend?_none_eq (h : History) (config : Config) (order : List Rev) (last : Nat)
    (completed : Bool) : extend? h config order last completed none =
      (config.lastRow? completed order.length).map fun possible =>
        straighten config 0 (completed && last + 1 = order.length)
          (drawTo h config order (min last possible) #[]) := by
  have hkeep : keep (#[] : Layout) config order = #[] := by
    simp [keep, agreement]
  unfold extend?
  dsimp only [Option.getD_none]
  rw [hkeep]
  cases config.lastRow? completed order.length with
  | none => simp [agreement]
  | some possible => rfl

/-- Orders of one length that agree on their first `v` revisions give, drawn from nothing, layouts of
one size, and the rows that stand above revision `v` by more than both look-aheads are the same. -/
theorem getElem?_extend?_of_take_eq (h : History) (config : Config) {order order' : List Rev}
    {v : Nat} (hlength : order'.length = order.length) (htake : order'.take v = order.take v)
    (last : Nat) (completed : Bool) :
    (extend? h config order' last completed none).map Array.size =
        (extend? h config order last completed none).map Array.size ∧
      ∀ k, k + config.crossingLookAhead + config.fullLookAhead < v →
        (extend? h config order' last completed none).bind (·[k]?) =
          (extend? h config order last completed none).bind (·[k]?) := by
  rw [extend?_none_eq, extend?_none_eq, hlength]
  cases hlast : config.lastRow? completed order.length with
  | none => simp only [Option.map_none, Option.bind_none, implies_true, and_self]
  | some possible =>
    have hpossible := lastRow?_lt hlast
    have hsize (order : List Rev) (hlt : min last possible < order.length) :
        (drawTo h config order (min last possible) #[]).size = min last possible + 1 := by
      rw [size_drawTo h config hlt, Array.size_empty, Nat.zero_max]
    have hdrawn := hsize order (by omega)
    have hdrawn' := hsize order' (by omega)
    simp only [Option.map_some, Option.bind_some, size_straighten, hdrawn, hdrawn', true_and]
    intro k hk
    exact sameAbove_straighten_of_sameAbove (sameAbove_drawTo_of_take_eq htake h config _)
      (hdrawn'.trans hdrawn.symm) 0 _ k (by omega)

/-- A merge of two lines of three commits each. -/
def twoLines : History := History.addAll {} [
  { id := .repeated 1, parents := [.repeated 2, .repeated 3] },
  { id := .repeated 2, parents := [.repeated 4] },
  { id := .repeated 3, parents := [.repeated 5] },
  { id := .repeated 4, parents := [.repeated 6] },
  { id := .repeated 5, parents := [.repeated 7] }]

/-- A configuration that looks ahead by few rows. -/
def narrow : Config := { Config.comprehensive with crossingLookAhead := 1, laneLookAhead := 1 }

/-- The two lines end one way round or the other, and the first two rows are drawn alike. -/
theorem getElem?_extend?_of_take_eq_twoLines :
    [0, 1, 2, 3, 4, 6, 5].length = [0, 1, 2, 3, 4, 5, 6].length ∧
      [0, 1, 2, 3, 4, 6, 5].take 5 = [0, 1, 2, 3, 4, 5, 6].take 5 ∧
      (extend? twoLines narrow [0, 1, 2, 3, 4, 6, 5] 6 true none).bind (·[6]?) ≠
        (extend? twoLines narrow [0, 1, 2, 3, 4, 5, 6] 6 true none).bind (·[6]?) ∧
      ∀ k < 2, (extend? twoLines narrow [0, 1, 2, 3, 4, 6, 5] 6 true none).bind (·[k]?) =
        (extend? twoLines narrow [0, 1, 2, 3, 4, 5, 6] 6 true none).bind (·[k]?) := by
  have hlength : [0, 1, 2, 3, 4, 6, 5].length = [0, 1, 2, 3, 4, 5, 6].length := by decide
  have htake : [0, 1, 2, 3, 4, 6, 5].take 5 = [0, 1, 2, 3, 4, 5, 6].take 5 := by decide
  have hlook : narrow.crossingLookAhead + narrow.fullLookAhead = 3 := by decide
  obtain ⟨-, hrows⟩ := getElem?_extend?_of_take_eq twoLines narrow hlength htake 6 true
  refine ⟨hlength, htake, ?_, fun k hk => hrows k ?_⟩
  · decide +kernel
  · rw [Nat.add_assoc, hlook]
    omega

end Layout

end CommitLanes
