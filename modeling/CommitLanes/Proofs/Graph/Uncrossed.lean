import CommitLanes.Proofs.Graph.Intact
import CommitLanes.Proofs.Layout.Inherit
import CommitLanes.Proofs.Layout.Rise

/-! # Lines that do not cross

Whenever rows are published, two segments that are in several of them stand in the same order in all
of these, and so do the lanes in which they are the primary strands. Only lines that share a lane can
change sides. -/

namespace CommitLanes

namespace Graph

/-- Whatever straightening does, rows take over the order of their strands from above, and lanes are
given out from left to right. -/
theorem inherits_run {config : Config} {calls : List Call}
    (hadmits : Graph.Admits { config } calls) :
    Inherits (Graph.run { config } calls).layout.contents ∧
      (Graph.run { config } calls).layout.Rises :=
  layout_run (P := fun rows => Inherits rows.contents ∧ rows.Rises)
    ⟨.nil, Layout.rises_empty⟩
    (fun _ n hrows => ⟨Layout.inherits_take hrows.1 n, hrows.2.take n⟩)
    (fun h order _ r hs threads hnew hrows =>
      ⟨Layout.inherits_drawRow hs threads hnew hrows.1, hrows.2.drawRow h _ order r⟩)
    (fun rows move hrows => ⟨(Layout.contents_shift rows move).symm ▸ hrows.1, hrows.2.shift move⟩)
    hadmits

/-- Two segments that are in two rows stand in the same order in both. If they are primary strands in
both, then their lanes are in the same order as well. -/
theorem uncrossed_run {config : Config} {calls : List Call}
    (hadmits : Graph.Admits { config } calls) :
    let g := Graph.run { config } calls
    ∀ (i j : Nat) (upper lower : Row), i < j → g.row? i = some upper → g.row? j = some lower →
      upper.segments.Nodup ∧ lower.segments.Nodup ∧
      ∀ a ∈ upper.drawn, ∀ b ∈ upper.drawn, ∀ a' ∈ lower.drawn, ∀ b' ∈ lower.drawn,
        a'.segment = a.segment → b'.segment = b.segment →
        (upper.segments.idxOf a.segment < upper.segments.idxOf b.segment ↔
          lower.segments.idxOf a.segment < lower.segments.idxOf b.segment) ∧
        (a.sharing = .primary → b.sharing = .primary →
          a'.sharing = .primary → b'.sharing = .primary → (a.lane < b.lane ↔ a'.lane < b'.lane)) := by
  intro g i j upper lower hij hupper hlower
  have threads := (intact_run hadmits).threads
  obtain ⟨inherits, rises⟩ := inherits_run hadmits
  have hnodup : upper.segments.Nodup :=
    upper.segments_eq ▸ (Layout.threadsRow_of_getElem? threads hupper).nodup
  have hnodup' : lower.segments.Nodup :=
    lower.segments_eq ▸ (Layout.threadsRow_of_getElem? threads hlower).nodup
  refine ⟨hnodup, hnodup', fun a ha b hb a' ha' b' hb' heq heq' => ?_⟩
  have hmem {row : Row} {x : Drawn} (hx : x ∈ row.drawn) : x.segment ∈ row.segments :=
    List.mem_map_of_mem hx
  have horder : upper.segments.idxOf a.segment < upper.segments.idxOf b.segment ↔
      lower.segments.idxOf a.segment < lower.segments.idxOf b.segment :=
    Layout.idxOf_lt_idxOf_iff inherits threads hij.le hupper hlower (hmem ha) (hmem hb)
      (heq ▸ hmem ha') (heq' ▸ hmem hb')
  refine ⟨horder, fun hprimary hprimary' hbelow hbelow' => ?_⟩
  rw [(rises upper (Array.mem_of_getElem? hupper)).lane_lt_iff hnodup ha hb hprimary hprimary',
    horder, ← heq, ← heq',
    (rises lower (Array.mem_of_getElem? hlower)).lane_lt_iff hnodup' ha' hb' hbelow hbelow']

/-- Three lines side by side, of which the left one ends before another commit comes. -/
def narrowingCalls : List Call := [
  .add (.repeated 1) [.repeated 2],
  .add (.repeated 3) [.repeated 9],
  .add (.repeated 4) [.repeated 8],
  .cache 0 0,
  .add (.repeated 2) [],
  .add (.repeated 5) [],
  .complete,
  .cache 0 4]

/-- The two other lines move to the left and stay side by side. -/
theorem uncrossed_run_narrowingCalls :
    Graph.Admits { config := .minimal } narrowingCalls ∧
      let g := Graph.run { config := .minimal } narrowingCalls
      ∃ upper lower left a b a' b', g.row? 2 = some upper ∧ g.row? 4 = some lower ∧
        upper.drawn = [left, a, b] ∧ lower.drawn = [a', b'] ∧
        a'.segment = a.segment ∧ b'.segment = b.segment ∧
        a.lane = 1 ∧ b.lane = 2 ∧ a'.lane = 0 ∧ a'.lane < b'.lane := by
  have hclimbs : History.Climbs false {} narrowingCalls := by decide +kernel
  have hadmits : Graph.Admits { config := .minimal } narrowingCalls :=
    admits_of_climbs (.refl _) hclimbs
  have hfirst : Graph.run { config := .minimal } narrowingCalls = _ :=
    run_cache_remember (narrowingCalls.take 3) (narrowingCalls.drop 4) [0, 2, 4] 0 0
      (by decide +kernel)
  have hrun : Graph.run { config := .minimal } narrowingCalls = _ :=
    hfirst.trans (run_cache_remember ((narrowingCalls.drop 4).take 3) [] [0, 2, 4, 1, 6] 0 4
      (by decide +kernel))
  have hupper : (Graph.run { config := .minimal } narrowingCalls).row? 2 = some {
      revision := 4
      drawn := [⟨⟨0, 0, 1, ⟨3, 0⟩⟩, 0, .primary⟩, ⟨⟨1, 2, 3, ⟨2, 2⟩⟩, 1, .primary⟩,
        ⟨⟨2, 4, 5, ⟨4, 4⟩⟩, 2, .primary⟩]
      revisionLane := 2 } := by
    rw [hrun]
    decide +kernel
  have hlower : (Graph.run { config := .minimal } narrowingCalls).row? 4 = some {
      revision := 6
      drawn := [⟨⟨1, 2, 3, ⟨2, 2⟩⟩, 0, .primary⟩, ⟨⟨2, 4, 5, ⟨4, 4⟩⟩, 1, .primary⟩]
      revisionLane := 2 } := by
    rw [hrun]
    decide +kernel
  obtain ⟨-, -, hlines⟩ := uncrossed_run hadmits 2 4 _ _ (by decide) hupper hlower
  obtain ⟨-, hlanes⟩ := hlines ⟨⟨1, 2, 3, ⟨2, 2⟩⟩, 1, .primary⟩ (by decide)
    ⟨⟨2, 4, 5, ⟨4, 4⟩⟩, 2, .primary⟩ (by decide) ⟨⟨1, 2, 3, ⟨2, 2⟩⟩, 0, .primary⟩ (by decide)
    ⟨⟨2, 4, 5, ⟨4, 4⟩⟩, 1, .primary⟩ (by decide) rfl rfl
  exact ⟨hadmits, _, _, _, _, _, _, _, hupper, hlower, rfl, rfl, rfl, rfl, rfl, rfl, rfl,
    (hlanes rfl rfl rfl rfl).1 (by decide)⟩

end Graph

end CommitLanes
