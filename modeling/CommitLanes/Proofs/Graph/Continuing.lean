import CommitLanes.Proofs.Graph.CrossingWindow
import CommitLanes.Proofs.Layout.Continuing

/-! # Lines that keep their colors

Where lines arrive at a commit one of them goes on, to the parent whose segment is leftmost. That is
the first parent as long as segments are drawn in the order of parents. Where crossing reduction
changes their order the line goes on to another parent, and the first one starts a line. -/

namespace CommitLanes

/-- The leftmost segment that starts in a row is the first of those that do. -/
private theorem Row.start?_eq_head? (row : Row) : row.start? = row.starts.head? := by
  unfold Row.start? Row.starts Row.strands
  rw [List.head?_map, List.head?_filter, List.find?_map, Option.map_map]
  rfl

private theorem Row.exists_mem_strands (row : Row) {P : Strand → Prop} :
    (∃ a ∈ row.strands, P a) ↔ ∃ a ∈ row.drawn, P a.toStrand := by
  simp [Row.strands]

theorem Row.start?_eq_some_iff {row : Row} (hnodup : row.segments.Nodup) {b : Drawn}
    (hb : b ∈ row.drawn) : row.start? = some b.segment ↔
      (row.strands.filter fun strand => strand.child = row.revision).head? = some b.toStrand := by
  rw [row.start?_eq_head?, Row.starts, List.head?_map, Option.map_eq_some_iff]
  constructor
  · rintro ⟨first, hfirst, hsegment⟩
    have hmem := (List.mem_filter.1 (List.mem_of_mem_head? hfirst)).1
    rw [row.segments_eq] at hnodup
    rw [hfirst, List.inj_on_of_nodup_map hnodup hmem (List.mem_map_of_mem hb) hsegment]
  · intro hfirst
    exact ⟨b.toStrand, hfirst, rfl⟩

/-! ## Segments in the order of parents -/

/-- Rows list the segments that start there in the order of the parents. -/
structure ParentOrdered (h : History) (contents : List (Rev × List Strand)) : Prop where
  threads : Threads h contents
  starts : ∀ x ∈ contents, (x.2.filter fun strand => strand.child = x.1).map (·.segment) =
    (h.revision x.1).starts

namespace Graph

private theorem stable_parentOrdered : Stable fun h rows => ParentOrdered h rows.contents where
  init := ⟨threads_nil, fun _ hx => absurd hx List.not_mem_nil⟩
  still still listed := by
    refine ⟨listed.threads.of_still still, fun x hx => ?_⟩
    rw [still.toSameLinks.starts]
    exact listed.starts x hx
  arrived {h _ _ _ child} _ _ harrived hnew listed := by
    refine ⟨listed.threads.of_arrived harrived, fun x hx => ?_⟩
    have hcompleted := listed.threads.arrived x.1 (List.mem_map_of_mem hx)
    rw [harrived.starts x.1 (History.ne_of_completed hcompleted hnew)]
    exact listed.starts x hx

theorem parentOrdered_cache {g : Graph} (hs : g.Sound) (hreduce : g.config.reduceCrossings = false)
    (listed : ParentOrdered g.history g.layout.contents) (current last : Nat) :
    ParentOrdered (g.cache current last).history (g.cache current last).layout.contents := by
  have still := still_cache g current last
  have hsound := still.sound hs.history
  obtain ⟨keep, stop, redrawn⟩ := redrawn_cache g current last
  have hlisted := stable_parentOrdered.still still listed
  have hdrawn := redrawn.induction_of_threads
    (P := fun rows => ∀ x ∈ rows.contents,
      (x.2.filter fun strand => strand.child = x.1).map (·.segment) =
        ((g.cache current last).history.revision x.1).starts)
    hsound (hs.topological_order_cache current last) hlisted.threads ?_ ?_ ?_
  · exact ⟨hdrawn.1, hdrawn.2⟩
  · intro n x hx
    rw [Layout.contents_take] at hx
    exact hlisted.starts x (List.mem_of_mem_take hx)
  · intro rows r threads hnew hrows x hx
    obtain ⟨strands, heq, -, hstarts⟩ := Layout.exists_strands_drawRow hsound threads hnew
    rw [heq] at hx
    rcases List.mem_append.1 hx with hx | hx
    · exact hrows x hx
    · rw [List.mem_singleton.1 hx]
      exact hstarts.trans (Layout.startsAt_eq hreduce _ _ _ _)
  · intro rows move hrows
    rw [Layout.contents_shift]
    exact hrows

theorem parentOrdered_run {config : Config} {calls : List Call}
    (hadmits : Graph.Admits { config } calls) (honce : Once calls)
    (hreduce : config.reduceCrossings = false) :
    ParentOrdered (Graph.run { config } calls).history
      (Graph.run { config } calls).layout.contents := by
  apply stable_parentOrdered.run ?_ hadmits honce
  intro g current last hs hconfig hlisted
  exact parentOrdered_cache hs (hconfig ▸ hreduce) hlisted current last

/-! ## The line that goes on -/

theorem continues_layout_run {config : Config} {calls : List Call}
    (hadmits : Graph.Admits { config } calls) :
    Continues (Graph.run { config } calls).layout.contents := by
  refine layout_run (P := fun rows => Continues rows.contents) .nil ?_ ?_ ?_ hadmits
  · intro rows n continues
    rw [← List.take_append_drop n rows.contents] at continues
    rw [Layout.contents_take]
    exact Each.of_append continues
  · intro h order rows r hs threads hnew continues
    exact Layout.continues_drawRow hs threads hnew continues
  · intro rows move continues
    rw [Layout.contents_shift]
    exact continues

/-- In every published row where lines arrive the leftmost of the segments that start there, and none
of the others, is drawn as part of a line that arrives. Without crossing reduction, and if no commit is
added again, it is the segment to the first parent. -/
theorem continues_run {config : Config} {calls : List Call}
    (hadmits : Graph.Admits { config } calls) :
    let g := Graph.run { config } calls
    ∀ (k : Nat) (row : Row), g.row? k = some row →
      ((∃ a ∈ row.drawn, a.parent = row.revision) →
        ∀ b ∈ row.drawn, b.child = row.revision →
          ((∃ a ∈ row.drawn, a.parent = row.revision ∧ a.line = b.line) ↔
            row.start? = some b.segment)) ∧
      (config.reduceCrossings = false → Once calls →
        row.start? = (g.history.revision row.revision).starts.head?) := by
  intro g k row hrow
  have threads := (intact_run hadmits).threads
  have hthreads := Layout.threadsRow_of_getElem? threads hrow
  have hcontent := Layout.content_of_getElem? hrow
  refine ⟨fun harrives b hb hchild => ?_, fun hreduce honce => ?_⟩
  · have hcontinues : ContinuesRow _ row.revision row.strands :=
      (continues_layout_run hadmits).get hcontent
    rw [List.map_take, Layout.fst_contents] at hcontinues
    have hnodup : row.segments.Nodup := row.segments_eq ▸ hthreads.nodup
    rw [Row.start?_eq_some_iff hnodup hb, ← hcontinues.exists_line_iff hthreads
      (row.exists_mem_strands.2 harrives) (List.mem_map_of_mem hb) hchild]
    exact (row.exists_mem_strands
      (P := fun a => a.parent = row.revision ∧ a.line = b.line)).symm
  · have hlisted := parentOrdered_run hadmits honce hreduce
    rw [Row.start?_eq_head?]
    exact congrArg List.head? (hlisted.starts _ (List.mem_of_getElem? hcontent))

/-- A commit, its child and its two parents, of which the second one arrives first. -/
def crossedCalls : List Call := [
  .add (.repeated 1) [.repeated 2],
  .add (.repeated 2) [.repeated 3, .repeated 4],
  .add (.repeated 4) [],
  .add (.repeated 3) [],
  .complete,
  .cache 0 3]

/-- The graph in which the segment to the second parent is put first. -/
def crossed : Graph := Graph.run { config := farSighted } crossedCalls

private theorem admits_crossedCalls : Graph.Admits { config := farSighted } crossedCalls := by
  have hclimbs : History.Climbs false {} crossedCalls := by decide +kernel
  exact admits_of_climbs (.refl _) hclimbs

private theorem run_crossedCalls : crossed =
    ((Graph.run { config := farSighted } (crossedCalls.take 5)).remember [0, 1, 3, 2]).cache 0 3 :=
  run_cache_remember (crossedCalls.take 5) [] [0, 1, 3, 2] 0 3 (by decide +kernel)

private theorem row_crossed : crossed.row? 1 = some {
    revision := 1
    drawn := [⟨⟨0, 0, 1, ⟨3, 0⟩⟩, 0, .primary⟩, ⟨⟨2, 1, 3, ⟨3, 0⟩⟩, 0, .differentEnd⟩,
      ⟨⟨1, 1, 2, ⟨4, 2⟩⟩, 0, .differentEnd⟩]
    revisionLane := 0 } := by
  rw [run_crossedCalls]
  decide +kernel

/-- The line goes on to the second parent. -/
theorem continues_run_crossedCalls :
    Graph.Admits { config := farSighted } crossedCalls ∧
      ∃ row a second first, crossed.row? 1 = some row ∧ row.drawn = [a, second, first] ∧
        a.parent = row.revision ∧ second.child = row.revision ∧ first.child = row.revision ∧
        (crossed.history.revision row.revision).starts = [first.segment, second.segment] ∧
        row.start? = some second.segment ∧
        (∃ a ∈ row.drawn, a.parent = row.revision ∧ a.line = second.line) ∧
        ¬ ∃ a ∈ row.drawn, a.parent = row.revision ∧ a.line = first.line := by
  obtain ⟨hcontinues, -⟩ := continues_run admits_crossedCalls 1 _ row_crossed
  have hstarts : (crossed.history.revision 1).starts = [1, 2] := by
    rw [run_crossedCalls]
    decide +kernel
  have hline := hcontinues ⟨_, List.mem_cons_self, rfl⟩
  exact ⟨admits_crossedCalls, _, _, _, _, row_crossed, rfl, rfl, rfl, rfl, hstarts, rfl,
    (hline ⟨⟨2, 1, 3, ⟨3, 0⟩⟩, 0, .differentEnd⟩ (by decide) rfl).2 rfl,
    fun hfirst => absurd ((hline ⟨⟨1, 1, 2, ⟨4, 2⟩⟩, 0, .differentEnd⟩ (by decide) rfl).1 hfirst)
      (by decide)⟩

/-- The segment to the first parent need not be part of a line that arrives. -/
theorem not_first_continues :
    ¬ ∀ (config : Config) (calls : List Call), config.Valid → Graph.Admits { config } calls →
      Once calls →
      let g := Graph.run { config } calls
      ∀ (k : Nat) (row : Row), g.row? k = some row → (∃ a ∈ row.drawn, a.parent = row.revision) →
        ∀ s, (g.history.revision row.revision).starts.head? = some s →
          ∃ b ∈ row.drawn, b.segment = s ∧
            ∃ a ∈ row.drawn, a.parent = row.revision ∧ a.line = b.line := by
  intro hall
  have hstarts : (crossed.history.revision 1).starts.head? = some 1 := by
    rw [run_crossedCalls]
    decide +kernel
  have hfirst := hall farSighted crossedCalls (by decide) admits_crossedCalls (by decide) 1 _
    row_crossed ⟨_, List.mem_cons_self, rfl⟩ 1 hstarts
  revert hfirst
  decide

end Graph

end CommitLanes
