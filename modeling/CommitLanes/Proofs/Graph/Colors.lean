import CommitLanes.Proofs.Graph.Continuing
import CommitLanes.Proofs.Layout.Colors
import Mathlib.Data.List.Chain

/-! # Colors of branching lines

What branches off a commit is told apart by its color. The branches are set against the leftmost line
that arrives, but it is the oldest one that goes on. So a branch can have the color of the line that
goes on, if that is not the leftmost one. -/

namespace CommitLanes

/-- Each strand that starts in the row differs in color from the one to its left and, where lines
arrive, from the leftmost one, which goes on with one of them. -/
def Row.Contrasts (row : Row) : Prop :=
  (colors row.starting).IsChain (· ≠ ·) ∧
    (row.arriving ≠ [] → ∀ first rest, row.starting = first :: rest → first.line.color ∉ colors rest)

/-- Where the branches differ from each other, it is enough that none has the color of the strand to
the left of them all. -/
private theorem Row.contrasts_of_notMem {row : Row} {first : Strand} {rest : List Strand}
    (hstarting : row.starting = first :: rest) (hrest : (colors rest).IsChain (· ≠ ·))
    (hfirst : first.line.color ∉ colors rest) : row.Contrasts := by
  refine ⟨?_, fun _ first' rest' hstarting' => ?_⟩
  · rw [hstarting, colors_cons]
    refine List.isChain_cons.2 ⟨fun color hcolor heq => ?_, hrest⟩
    rw [heq] at hfirst
    exact hfirst (List.mem_of_mem_head? hcolor)
  · obtain ⟨rfl, rfl⟩ := List.cons.inj (hstarting.symm.trans hstarting')
    exact hfirst

namespace Graph

theorem colors_layout_run {config : Config} {calls : List Call} (hvalid : config.Valid)
    (hadmits : Graph.Admits { config } calls) :
    ∀ x ∈ (Graph.run { config } calls).layout.contents, ColorsRow x.1 x.2 := by
  refine layout_run (P := fun rows => ∀ x ∈ rows.contents, ColorsRow x.1 x.2)
    (fun _ hx => absurd hx List.not_mem_nil) ?_ ?_ ?_ hadmits
  · intro rows n hcolors x hx
    rw [Layout.contents_take] at hx
    exact hcolors x (List.mem_of_mem_take hx)
  · intro h order rows r hs threads hnew hcolors
    exact Layout.colorsRow_drawRow hvalid.1 hs threads hnew hcolors
  · intro rows move hcolors
    rw [Layout.contents_shift]
    exact hcolors

/-- In every published row where no line arrives the strands that start differ in color from those to
their left. Where lines arrive the leftmost strand that starts goes on with one of them. The others
differ from the leftmost line that arrives and from those to their left. So one can have the color of
the line that goes on only if that is another line than the leftmost. -/
theorem colors_run {config : Config} {calls : List Call} (hvalid : config.Valid)
    (hadmits : Graph.Admits { config } calls) :
    let g := Graph.run { config } calls
    ∀ (k : Nat) (row : Row), g.row? k = some row →
      (row.arriving = [] → row.Contrasts) ∧
      ∀ trunk others first rest, row.arriving = trunk :: others → row.starting = first :: rest →
        (∃ a ∈ row.arriving, a.line = first.line) ∧
        (trunk.line.color :: colors rest).IsChain (· ≠ ·) ∧ trunk.line.color ∉ colors rest ∧
        (row.Contrasts ↔ first.line.color ∉ colors rest) ∧
        (first.line.color = trunk.line.color → row.Contrasts) := by
  intro g k row hrow
  have hcontent := Layout.content_of_getElem? hrow
  have hcolors : ColorsRow row.revision row.strands :=
    colors_layout_run hvalid hadmits _ (List.mem_of_getElem? hcontent)
  have hcontinues : ContinuesRow _ row.revision row.strands :=
    (continues_layout_run hadmits).get hcontent
  refine ⟨fun harriving => ⟨?_, fun hsome => absurd harriving hsome⟩, ?_⟩
  · apply hcolors.opens
    simpa using List.filter_eq_nil_iff.1 harriving
  · intro trunk others first rest harriving hstarting
    obtain ⟨hchain, htrunk⟩ := hcolors.branches trunk others first rest harriving hstarting
    have harrives := List.mem_filter.1 (harriving ▸ List.mem_cons_self : trunk ∈ row.arriving)
    have hcontrasts : row.Contrasts ↔ first.line.color ∉ colors rest := by
      refine ⟨fun hcontrasts => hcontrasts.2 ?_ first rest hstarting, fun hfirst => ?_⟩
      · rw [harriving]
        exact List.cons_ne_nil _ _
      · exact Row.contrasts_of_notMem hstarting hchain.tail hfirst
    refine ⟨?_, hchain, htrunk, hcontrasts, fun heq => hcontrasts.2 (heq ▸ htrunk)⟩
    obtain ⟨a, ha, hends, hline⟩ := hcontinues.leftmost first rest hstarting
      ⟨trunk, harrives.1, of_decide_eq_true harrives.2⟩
    exact ⟨a, List.mem_filter.2 ⟨ha, decide_eq_true hends⟩, hline⟩

/-- Two lines arrive at a merge, the older one of them to the right. -/
def overtakenCalls : List Call := [
  .add (.repeated 1) [.repeated 2],
  .add (.repeated 2) [.repeated 3, .repeated 4],
  .add (.repeated 5) [.repeated 4],
  .add (.repeated 4) [.repeated 6, .repeated 9],
  .cache 0 3]

private theorem admits_overtakenCalls : Graph.Admits { config := .minimal } overtakenCalls := by
  have hclimbs : History.Climbs false {} overtakenCalls := by decide +kernel
  exact admits_of_climbs (.refl _) hclimbs

private theorem row_overtakenCalls :
    (Graph.run { config := .minimal } overtakenCalls).row? 3 = some {
      revision := 3
      drawn := [⟨⟨1, 1, 2, ⟨3, 0⟩⟩, 0, .primary⟩, ⟨⟨2, 1, 3, ⟨4, 3⟩⟩, 1, .primary⟩,
        ⟨⟨4, 3, 5, ⟨1, 4⟩⟩, 1, .differentEnd⟩, ⟨⟨5, 3, 6, ⟨1, 6⟩⟩, 1, .differentEnd⟩,
        ⟨⟨3, 4, 3, ⟨1, 4⟩⟩, 1, .differentStart⟩]
      revisionLane := 1 } := by
  have hrun : Graph.run { config := .minimal } overtakenCalls = _ :=
    run_cache_remember (overtakenCalls.take 4) [] [0, 1, 4, 3] 0 3 (by decide +kernel)
  rw [hrun]
  decide +kernel

/-- The line on the right goes on, and the branch has its color. -/
theorem colors_run_overtakenCalls :
    Config.minimal.Valid ∧ Graph.Admits { config := .minimal } overtakenCalls ∧
      ∃ row trunk other first second,
        (Graph.run { config := .minimal } overtakenCalls).row? 3 = some row ∧
        row.arriving = [trunk, other] ∧ row.starting = [first, second] ∧
        (∃ a ∈ row.arriving, a.line = first.line) ∧ first.line = other.line ∧
        second.line.color ≠ trunk.line.color ∧ second.line.color = other.line.color ∧
        ¬ row.Contrasts := by
  have hvalid : Config.minimal.Valid := by decide
  obtain ⟨-, hbranches⟩ := colors_run hvalid admits_overtakenCalls 3 _ row_overtakenCalls
  obtain ⟨hline, -, htrunk, hcontrasts, -⟩ := hbranches _ _ _ _ rfl rfl
  refine ⟨hvalid, admits_overtakenCalls, _, _, _, _, _, row_overtakenCalls, rfl, rfl, hline, rfl,
    fun heq => htrunk (heq ▸ List.mem_cons_self), rfl, ?_⟩
  rw [hcontrasts]
  decide

/-- A branch can have the color of the line that goes on. -/
theorem not_contrasts_run :
    ¬ ∀ (config : Config) (calls : List Call), config.Valid → Graph.Admits { config } calls →
      ∀ (k : Nat) (row : Row), (Graph.run { config } calls).row? k = some row → row.Contrasts := by
  intro hall
  have hcontrasts := hall .minimal overtakenCalls (by decide) admits_overtakenCalls 3 _
    row_overtakenCalls
  exact hcontrasts.2 (by decide) _ _ rfl (by decide)

end Graph

end CommitLanes
