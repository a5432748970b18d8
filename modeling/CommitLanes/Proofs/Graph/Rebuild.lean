import CommitLanes.Proofs.Graph.Publish
import CommitLanes.Proofs.Layout.Rebuild

/-! # Published rows are those of a layout drawn anew

Without crossing reduction and straightening it does not show in what is published how it came
about: rows that were kept from earlier layouts are those that would be drawn now. -/

namespace CommitLanes

namespace Graph

open Layout

variable {g : Graph} {config : Config}

/-- What is published is what comes of drawing the top of the row order anew. -/
theorem Sound.layout_cache_eq_rebuild (hs : g.Sound) (hreduce : g.config.reduceCrossings = false)
    (hlook : g.config.laneLookAhead = 0) (faithful : Faithful g.history g.config g.layout)
    (current last : Nat) :
    ∃ stop ≤ (g.cache current last).order.length, (g.cache current last).layout =
      rebuild (g.cache current last).history g.config ((g.cache current last).order.take stop) := by
  obtain ⟨keep, stop, redrawn⟩ := redrawn_cache g current last
  have hstill := still_cache g current last
  obtain ⟨hpart, -⟩ := hs.order_cache current last
  have hclosed : ChildClosed (g.cache current last).history
      ((g.cache current last).order.take keep) := by
    apply (hstill.sound hs.history).childClosed
    rw [hstill.sorted]
    exact (List.take_prefix keep _).trans hpart
  have hkept := faithful.of_still hreduce hs.history.wellLinked hstill
  exact ⟨stop, redrawn.stop_le, redrawn.eq_rebuild hreduce hlook hkept hclosed⟩

theorem Sound.faithful_cache (hs : g.Sound) (hreduce : g.config.reduceCrossings = false)
    (hlook : g.config.laneLookAhead = 0) (faithful : Faithful g.history g.config g.layout)
    (current last : Nat) :
    Faithful (g.cache current last).history g.config (g.cache current last).layout := by
  obtain ⟨stop, -, heq⟩ := hs.layout_cache_eq_rebuild hreduce hlook faithful current last
  rw [heq]
  apply faithful_rebuild hreduce
  intro r hr
  exact (hs.topological_order_cache current last).arrived r (List.mem_of_mem_take hr)

/-- The layout that is published is the one that would be published if none had been before. -/
theorem Sound.extend?_none_cache (hs : g.Sound) (hreduce : g.config.reduceCrossings = false)
    (hlook : g.config.laneLookAhead = 0) (faithful : Faithful g.history g.config g.layout)
    (current last : Nat) {order : List Rev}
    (horder : order = (g.cache current last).order ∨ order = (g.cache current last).history.sorted)
    {row : Nat} (hsize : (g.cache current last).layout.size = row + 1) (completed : Bool) :
    extend? (g.cache current last).history g.config order row completed none =
      some (g.cache current last).layout := by
  obtain ⟨stop, hstop, heq⟩ := hs.layout_cache_eq_rebuild hreduce hlook faithful current last
  obtain ⟨hpart, -⟩ := hs.order_cache current last
  -- Both orders begin with the revisions of the rows that are published.
  have hbegins : (g.cache current last).order <+: order := by
    rcases horder with rfl | rfl
    · exact List.prefix_rfl
    · rw [(still_cache g current last).sorted]
      exact hpart
  rw [heq, size_rebuild, List.length_take, Nat.min_eq_left hstop] at hsize
  subst hsize
  have htake : order.take (row + 1) = (g.cache current last).order.take (row + 1) := by
    obtain ⟨more, rfl⟩ := hbegins
    exact List.take_append_of_le_length hstop
  rw [extend?_none hreduce hlook _ (hstop.trans hbegins.length_le), htake, heq]

/-- There is no row without a commit. -/
private theorem Sound.size_cache_le_count (hs : g.Sound) (current last : Nat) :
    (g.cache current last).layout.size ≤ g.count := by
  have hprefix := (hs.revisions_cache_isPrefix current last).length_le
  rwa [Layout.length_revisions, History.length_sorted] at hprefix

/-- If there is anything to show then something is published. -/
private theorem Sound.layout_cache_pos (hs : g.Sound) (hreduce : g.config.reduceCrossings = false)
    (current last : Nat) (hpos : 0 < (g.cache current last).count) :
    0 < (g.cache current last).layout.size := by
  have hsize := hs.le_size_cache (.inr hreduce) current last
  rw [count_cache] at hpos
  omega

private theorem stable_faithful (hreduce : config.reduceCrossings = false) :
    Stable fun h rows => h.Sound ∧ Faithful h config rows where
  init := ⟨History.sound_empty, faithful_empty _ config⟩
  still := by
    intro h k rows hstill ⟨hs, faithful⟩
    exact ⟨hstill.sound hs, faithful.of_still hreduce hs.wellLinked hstill⟩
  arrived := by
    intro h h' rows name child hs hs' harrived hnew ⟨_, faithful⟩
    exact ⟨hs', faithful.of_arrived hreduce hs harrived hnew⟩

/-- Whenever rows are published they are, all together, those that would be published down to the same
row if there had been none before, by the order as it is remembered or by the whole order. -/
theorem rebuild_run (hreduce : config.reduceCrossings = false) (hlook : config.laneLookAhead = 0)
    {calls : List Call} {call : Call} (hadmits : Graph.Admits { config } (calls ++ [call]))
    (honce : Once (calls ++ [call]))
    (hpublishes : call.Publishes (Graph.run { config } calls).history) :
    let g := Graph.run { config } (calls ++ [call])
    (0 < g.count → 0 < g.layout.size) ∧
      ∀ order, order = g.order ∨ order = g.history.sorted → ∀ row, g.layout.size = row + 1 →
        extend? g.history config order row g.completed none = some g.layout := by
  have hcache {g : Graph} (current last : Nat) (hs : g.Sound) (hconfig : g.config = config)
      (hP : g.history.Sound ∧ Faithful g.history config g.layout) :
      (g.cache current last).history.Sound ∧
        Faithful (g.cache current last).history config (g.cache current last).layout := by
    subst hconfig
    exact ⟨(still_cache g current last).sound hs.history,
      hs.faithful_cache hreduce hlook hP.2 current last⟩
  obtain ⟨before, current, last, hs, rfl, ⟨-, faithful⟩, heq⟩ :=
    (stable_faithful hreduce).exists_cache hcache hadmits honce hpublishes
  intro g
  have hg : g = before.cache current last := heq
  rw [hg]
  refine ⟨hs.layout_cache_pos hreduce current last, fun order horder row hsize => ?_⟩
  exact hs.extend?_none_cache hreduce hlook faithful current last horder hsize _

theorem rebuild_run_forkCalls :
    Graph.Admits { config := .minimal } (forkCalls ++ [.cache 0 4]) ∧
      Once (forkCalls ++ [.cache 0 4]) ∧
      let g := Graph.run { config := .minimal } (forkCalls ++ [.cache 0 4])
      g.layout.size = 5 ∧
        extend? g.history .minimal g.history.sorted 4 g.completed none = some g.layout := by
  have hclimbs : History.Climbs false {} (forkCalls ++ [.cache 0 4]) := by decide +kernel
  have hadmits : Graph.Admits { config := .minimal } (forkCalls ++ [.cache 0 4]) :=
    admits_of_climbs (.refl _) hclimbs
  have honce : Once (forkCalls ++ [.cache 0 4]) := by decide
  have hsize : (Graph.run { config := .minimal } (forkCalls ++ [.cache 0 4])).layout.size = 5 := by
    have hs : (Graph.run { config := .minimal } forkCalls).Sound :=
      (sound_new _).run (admits_forkCalls _ rfl)
    have hle := hs.size_cache_le_count 0 4
    have hge := hs.le_size_cache (.inr (by rw [config_run]; rfl)) 0 4
    rw [count_forkCalls _ rfl] at hle hge
    rw [run_append]
    exact Nat.le_antisymm hle hge
  have hreduce : Config.minimal.reduceCrossings = false := rfl
  have hlook : Config.minimal.laneLookAhead = 0 := rfl
  obtain ⟨-, hrebuilt⟩ := rebuild_run hreduce hlook hadmits honce trivial
  exact ⟨hadmits, honce, hsize, hrebuilt _ (.inr rfl) 4 hsize⟩

end Graph

end CommitLanes
