import CommitLanes.Proofs.Layout.Alike
import CommitLanes.Proofs.Layout.Margin

/-! # Rebuilding a layout

Where rows are drawn without looking ahead, the layout that comes of drawing a list of revisions from
nothing is a matter of that list. A layout is faithful if it is no other, as far as it shows all
children of the revisions in it: the rest has to be drawn again before it can be relied on. -/

namespace CommitLanes

open History (Still)

variable {h h' : History} {config : Config} {rows : Layout} {rs : List Rev}

namespace Layout

/-! ## Straightening without look-ahead -/

private theorem findZigzag?_eq_none (rows : Layout) {row last : Nat} (hlast : last ≤ row)
    (maxLanes : Nat) : rows.findZigzag? row last maxLanes = none := by
  unfold findZigzag?
  rw [List.findSome?_eq_none_iff]
  intro strand _
  unfold zigzagOf?
  dsimp only
  -- There is no row left in which the line could return.
  rw [Nat.sub_eq_zero_of_le hlast]
  split <;> rfl

private theorem straightenLanes_eq_self {stretch : Stretch} (hlook : stretch.lookAhead = 0)
    (rows : Layout) : straightenLanes stretch rows = rows := by
  have hnext (row : Nat) : nextShifts? (fun rows row =>
      (rows.findZigzag? row (stretch.horizonFrom row) stretch.maxLanes).map Zigzag.shifts)
      stretch.last rows row = none := by
    unfold nextShifts?
    rw [List.findSome?_eq_none_iff]
    intro r _
    have hhorizon : stretch.horizonFrom r ≤ r := by
      simpa [hlook] using stretch.horizonFrom_le r
    dsimp only
    rw [findZigzag?_eq_none rows hhorizon]
    rfl
  unfold straightenLanes sweep
  split
  · cases stretch.budget with
    | zero => rfl
    | succ budget =>
      unfold sweepWithin
      rw [hnext]
  · rfl

theorem straighten_eq_self (hlook : config.laneLookAhead = 0) (start : Nat) (final : Bool)
    (rows : Layout) : rows.straighten config start final = rows := by
  have hdiagonals : config.diagonalLookAhead = 0 := by
    simp [Config.diagonalLookAhead, hlook]
  unfold straighten
  dsimp only
  rw [if_pos hdiagonals]
  split
  · next stretch hstretch =>
    exact straightenLanes_eq_self ((lookAhead_stretch? hstretch).trans hlook) rows
  · rfl

/-! ## Drawing from nothing -/

/-- The rows of a list of revisions, drawn from nothing. -/
def rebuild (h : History) (config : Config) (rs : List Rev) : Layout := drawAll h config rs rs #[]

theorem drawAll_append (h : History) (config : Config) (order rs more : List Rev) (rows : Layout) :
    drawAll h config order (rs ++ more) rows =
      drawAll h config order more (drawAll h config order rs rows) := List.foldl_append

theorem revisions_rebuild (h : History) (config : Config) (rs : List Rev) :
    (rebuild h config rs).revisions = rs := revisions_drawAll config rs rs #[]

theorem size_rebuild (h : History) (config : Config) (rs : List Rev) :
    (rebuild h config rs).size = rs.length := by
  rw [← length_revisions, revisions_rebuild]

section Unreduced

variable (hreduce : config.reduceCrossings = false)
include hreduce

/-- Rows are drawn without a look at the rows that are to come. -/
private theorem drawAll_order (h : History) (order order' rs : List Rev) (rows : Layout) :
    drawAll h config order rs rows = drawAll h config order' rs rows := by
  unfold drawAll
  congr 1
  funext rows r
  simp only [drawRow, startsAt_eq hreduce]

private theorem rebuild_append (h : History) (order rs more : List Rev) :
    rebuild h config (rs ++ more) = drawAll h config order more (rebuild h config rs) := by
  unfold rebuild
  rw [drawAll_append, drawAll_order hreduce h (rs ++ more) order more,
    drawAll_order hreduce h (rs ++ more) rs rs]

theorem take_rebuild (h : History) (rs : List Rev) (n : Nat) :
    (rebuild h config rs).take n = rebuild h config (rs.take n) := by
  rcases Nat.le_total n rs.length with hle | hge
  · -- The first rows are there after the first revisions and stay when the others are drawn.
    have hsize : (rebuild h config (rs.take n)).size = n := by
      rw [size_rebuild, List.length_take, Nat.min_eq_left hle]
    have hsplit := rebuild_append hreduce h [] (rs.take n) (rs.drop n)
    rw [List.take_append_drop] at hsplit
    rw [hsplit, take_drawAll h config [] _ _ hsize.ge]
    exact Array.extract_eq_self_of_le hsize.le
  · rw [List.take_of_length_le hge]
    exact Array.extract_eq_self_of_le ((size_rebuild h config rs).trans_le hge)

private theorem rebuild_congr (hw : h.WellLinked) (alike : Alike h h' rs) :
    rebuild h' config rs = rebuild h config rs := by
  have hrooted : Rooted [] (carriedFrom (#[] : Layout).back?) :=
    fun _ hmem => absurd hmem List.not_mem_nil
  exact drawAll_congr hreduce hw hrooted alike rs rs

end Unreduced

/-- A layout that is extended from nothing is drawn anew. -/
theorem extend?_none (hreduce : config.reduceCrossings = false) (hlook : config.laneLookAhead = 0)
    (h : History) {order : List Rev} {row : Nat} (hrow : row < order.length) (completed : Bool) :
    extend? h config order row completed none = some (rebuild h config (order.take (row + 1))) := by
  have hlast : config.lastRow? completed order.length = some (order.length - 1) :=
    lastRow?_eq_some (.inr hreduce) (Nat.zero_lt_of_lt hrow)
  have hmin : min row (order.length - 1) = row := by omega
  have hkeep : keep (#[] : Layout) config order = #[] := by
    simp [keep, agreement]
  -- Nothing is kept, all rows can be drawn, and straightening leaves them as they are.
  unfold extend?
  dsimp only [Option.getD_none]
  rw [hlast, hkeep]
  dsimp only
  rw [hmin, Array.size_empty, if_neg (Nat.not_lt_zero row), straighten_eq_self hlook]
  exact congrArg some (drawAll_order hreduce h order _ _ _)

/-! ## Faithful layouts -/

/-- The layout shows revisions that have arrived, and as far as the children of what it shows are
shown too it is what comes of drawing anew. -/
structure Faithful (h : History) (config : Config) (rows : Layout) : Prop where
  arrived : ∀ r ∈ rows.revisions, (h.revision r).completed = true
  rebuilt : ∀ n, ChildClosed h (rows.revisions.take n) →
    rows.take n = rebuild h config (rows.revisions.take n)

theorem faithful_empty (h : History) (config : Config) : Faithful h config #[] where
  arrived _ hr := absurd hr List.not_mem_nil
  rebuilt n _ := by
    rw [show Layout.revisions #[] = [] from rfl, List.take_nil]
    exact Array.extract_eq_self_of_le (Nat.zero_le n)

theorem Faithful.of_still (hreduce : config.reduceCrossings = false) (hw : h.WellLinked)
    (faithful : Faithful h config rows) (still : Still h h') : Faithful h' config rows where
  arrived r hr := (still.toSameLinks.completed r).trans (faithful.arrived r hr)
  rebuilt n hclosed := by
    rw [rebuild_congr hreduce hw (.of_still still _)]
    exact faithful.rebuilt n fun c p hp => hclosed c p (still.toSameLinks.isParent.2 hp)

/-- What shows all children still after a commit has come showed all of them before, and it is drawn
as it was. -/
theorem Faithful.of_arrived {name : CommitId} {child : Rev}
    (hreduce : config.reduceCrossings = false) (hs : h.Sound)
    (harrived : History.Arrived name child h h') (hnew : (h.revision child).completed = false)
    (faithful : Faithful h config rows) : Faithful h' config rows where
  arrived r hr := (harrived.completed r).2 (.inr (faithful.arrived r hr))
  rebuilt n hclosed := by
    have hrs : ∀ r ∈ rows.revisions.take n, (h.revision r).completed = true :=
      fun r hr => faithful.arrived r (List.mem_of_mem_take hr)
    rw [rebuild_congr hreduce hs.wellLinked (.of_arrived hs harrived hnew hrs hclosed)]
    refine faithful.rebuilt n fun c p hp => hclosed c p ?_
    -- A commit that has not arrived has no parents yet.
    have hne : c ≠ child := History.ne_of_completed (hs.settled c p hp) hnew
    rw [History.IsParent, harrived.parents c hne]
    exact hp

theorem faithful_rebuild (hreduce : config.reduceCrossings = false)
    (hrs : ∀ r ∈ rs, (h.revision r).completed = true) : Faithful h config (rebuild h config rs) where
  arrived r hr := hrs r (revisions_rebuild h config rs ▸ hr)
  rebuilt n _ := by
    rw [revisions_rebuild]
    exact take_rebuild hreduce h rs n

/-- What is kept of a faithful layout is right, and so a layout that is drawn on from there is what
would come of drawing it anew. -/
theorem Redrawn.eq_rebuild {order : List Rev} {keep stop : Nat} {old : Layout}
    (redrawn : Redrawn h config order keep stop old rows) (hreduce : config.reduceCrossings = false)
    (hlook : config.laneLookAhead = 0) (faithful : Faithful h config old)
    (hclosed : ChildClosed h (order.take keep)) : rows = rebuild h config (order.take stop) := by
  have hagrees := redrawn.agrees
  rw [revisions_take] at hagrees
  have hkept := faithful.rebuilt keep (hagrees.symm ▸ hclosed)
  have hdrawn : rows = drawAll h config order ((order.drop keep).take (stop - keep))
      (old.take keep) := by
    rcases redrawn.eq with heq | ⟨start, final, heq⟩
    · exact heq
    · rwa [straighten_eq_self hlook] at heq
  -- The rows that are drawn are those of the next part of the order.
  rw [hdrawn, hkept, hagrees, ← rebuild_append hreduce, ← List.take_add,
    Nat.add_sub_cancel' redrawn.keep_le]

end Layout

end CommitLanes
