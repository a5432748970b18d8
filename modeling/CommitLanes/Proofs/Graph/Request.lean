import CommitLanes.Proofs.Graph.Publish
import CommitLanes.Proofs.Graph.RowOrder

/-! # Rows that are asked for

A call that publishes leaves rows that show the top of the order, and as many as were asked for, unless
crossing reduction holds rows back while commits may still come. In that case the order has to reach
further down than the rows do, and whether it does depends on what else was asked for before. -/

namespace CommitLanes

/-- The row through which a call that publishes asks for rows. -/
def Call.through : Call → Nat
  | .cache current last => max current last
  | _ => Graph.refreshedRows

namespace Graph

variable {g : Graph}

/-! ## The rows that are published -/

/-- A call that publishes does so at its end, when the commit has arrived if it adds one. -/
theorem Sound.exists_cache (hs : g.Sound) {call : Call} (hadmissible : call.Admissible g.history)
    (hac : (g.perform call).history.Acyclic) (hpublishes : call.Publishes g.history) :
    ∃ (before : Graph) (current last : Nat), before.Sound ∧ before.config = g.config ∧
      max current last = call.through ∧ g.perform call = before.cache current last := by
  cases ha : call.arrival? g.config.onlyFirstParent with
  | some a =>
    obtain ⟨hadmits, hlands⟩ := hadmissible.admits ha
    have harrive := (still_perform_arrival ha).toSameLinks.symm.acyclic hac
    have hlinked := (Call.publishes_iff ha).1 hpublishes
    refine ⟨(g.arrive a).distrustOrder, 0, refreshedRows,
      hs.distrusted_arrive hadmits hlands harrive, config_arrive g a, ?_, ?_⟩
    · cases call with
      | add | insert => exact Nat.zero_max _
      | setHead | complete | clear | ordered | rowOf | cache | highlight => cases ha
    · rw [perform_arrival ha, hlinked]
      rfl
  | none =>
    cases call with
    | add | insert => cases ha
    | cache current last => exact ⟨g, current, last, hs, rfl, rfl, rfl⟩
    | setHead | complete | clear | ordered | rowOf | highlight => exact hpublishes.elim

/-- After a call that publishes the rows show the completed revisions in the order that a fresh sort
gives. Where no rows are held back there are as many as were asked for, so that a commit with a row
among these is found there. -/
theorem published_run {config : Config} {calls : List Call} {call : Call}
    (hadmits : Graph.Admits { config } (calls ++ [call]))
    (hpublishes : call.Publishes (Graph.run { config } calls).history) :
    let g := Graph.run { config } (calls ++ [call])
    (∀ i row, g.row? i = some row → g.history.sorted[i]? = some row.revision) ∧
      (g.completed = true ∨ config.reduceCrossings = false →
        min g.count (call.through + 1) ≤ g.layout.size ∧
          ∀ id i, (g.rowOf? id).1 = some i → i ≤ call.through →
            ∃ row, g.row? i = some row ∧ (g.history.revision row.revision).id = id) := by
  intro g
  obtain ⟨hcalls, hadmissible, hac, -⟩ := admits_append.1 hadmits
  have hs : g.Sound := (sound_new config).run hadmits
  obtain ⟨before, current, last, hbefore, hconfig, hthrough, heq⟩ :=
    ((sound_new config).run hcalls).exists_cache hadmissible hac hpublishes
  rw [config_run] at hconfig
  have hg : g = before.cache current last := (run_append _ calls [call]).trans heq
  have hrows (i : Nat) (row : Row) (hrow : g.row? i = some row) :
      g.history.sorted[i]? = some row.revision := by
    have hrevision : g.layout.revisions[i]? = some row.revision := by
      have hget : g.layout[i]? = some row := hrow
      simp [Layout.revisions, hget]
    obtain ⟨more, hmore⟩ := hbefore.revisions_cache_isPrefix current last
    rw [← hg] at hmore
    have hsorted : g.history.sorted = before.history.sorted :=
      hg ▸ (still_cache before current last).sorted
    rw [hsorted, ← hmore, List.getElem?_append_left (List.getElem?_eq_some_iff.1 hrevision).1]
    exact hrevision
  refine ⟨hrows, fun hopen => ?_⟩
  have hsize : min g.count (call.through + 1) ≤ g.layout.size := by
    rw [hg, completed_cache] at hopen
    rw [hg, count_cache, ← hthrough]
    exact hbefore.le_size_cache (hconfig ▸ hopen) current last
  refine ⟨hsize, fun id i hi hle => ?_⟩
  -- The commit is the revision at this place of the order, and the row shows it.
  obtain ⟨r, hr, hid⟩ := hs.rowOf?_eq_some_iff.1 hi
  rw [hs.atRow?_eq] at hr
  have hcount : i < g.count := by
    have hlt := (List.getElem?_eq_some_iff.1 hr).1
    rwa [History.length_sorted] at hlt
  have hlt : i < g.layout.size := by omega
  have hrow : g.row? i = some g.layout[i] := Array.getElem?_eq_getElem hlt
  refine ⟨_, hrow, ?_⟩
  rw [← hid, Option.some.inj ((hrows i _ hrow).symm.trans hr)]

theorem published_run_forkCalls :
    Graph.Admits { config := .minimal } (forkCalls ++ [.cache 0 4]) ∧
      let g := Graph.run { config := .minimal } (forkCalls ++ [.cache 0 4])
      min g.count 5 ≤ g.layout.size ∧
        ∃ row, g.row? 4 = some row ∧ (g.history.revision row.revision).id = .repeated 4 := by
  have hclimbs : History.Climbs false {} (forkCalls ++ [.cache 0 4]) := by decide +kernel
  have hadmits : Graph.Admits { config := .minimal } (forkCalls ++ [.cache 0 4]) :=
    admits_of_climbs (.refl _) hclimbs
  have hs := (sound_new .minimal).run hadmits
  have hg : Graph.run { config := .minimal } (forkCalls ++ [.cache 0 4]) =
      (Graph.run { config := .minimal } forkCalls).cache 0 4 := run_append _ _ _
  have hindex : ((Graph.run { config := .minimal } (forkCalls ++ [.cache 0 4])).rowOf?
      (.repeated 4)).1 = some 4 := by
    rw [hs.rowOf?_eq, hg, (still_cache _ 0 4).sorted, (still_cache _ 0 4).toSameLinks.find?,
      sorted_forkCalls .minimal rfl, (still_forkCalls .minimal rfl).toSameLinks.find?]
    decide +kernel
  obtain ⟨-, hcovers⟩ := published_run hadmits trivial
  obtain ⟨hsize, hfound⟩ := hcovers (.inr rfl)
  exact ⟨hadmits, hsize, hfound _ 4 hindex (le_refl 4)⟩

/-! ## Rows that are held back -/

/-- The order that is used is the one that is remembered, or all of it. -/
theorem order_rank_eq (g : Graph) (row : Nat) :
    (g.rank row).order =
      if g.history.ranking.serves (min g.count (row + 1)) then g.order else g.history.sorted := by
  have horder : (g.rank row).order = Ranking.order (History.ranking
      (if g.history.ranking.serves (min g.count (row + 1)) then g.history
        else g.history.rerank)) := rfl
  rw [horder]
  split <;> rfl

theorem le_length_order_rank (g : Graph) (row : Nat) :
    min g.count (row + 1) ≤ (g.rank row).order.length := by
  rw [order_rank_eq]
  split
  · next hserves =>
    simp only [Ranking.serves, Bool.and_eq_true, decide_eq_true_eq] at hserves
    exact hserves.2
  · exact (min_le_left _ _).trans_eq g.history.length_sorted.symm

/-- An order that is remembered does not get shorter. -/
theorem length_order_le_rank (g : Graph) (row : Nat) :
    min g.count g.order.length ≤ (g.rank row).order.length := by
  rw [order_rank_eq]
  split
  · exact min_le_right _ _
  · exact (min_le_left _ _).trans_eq g.history.length_sorted.symm

section Loading

variable (hloading : g.completed = false)
include hloading

private theorem target_of_loading (row : Nat) : g.target row = row + g.config.lookAhead := by
  unfold target
  simp [hloading]

variable (hreduce : g.config.reduceCrossings = true)
include hreduce

/-- A row is published if the order reaches as far below it as crossing reduction looks, or if it was
there and is kept. -/
private theorem lt_size_cache_iff {current last row : Nat}
    (hrow : row = max current last + g.config.lookAhead) :
    row < (g.cache current last).layout.size ↔
      row + g.config.crossingLookAhead < (g.cache current last).order.length ∨
        row < (g.layout.keep g.config (g.cache current last).order).size := by
  have hextension := extension_cache g current last
  rw [target_of_loading hloading, ← hrow] at hextension
  have hlast : g.config.lastRow? g.completed (g.cache current last).order.length =
      if g.config.crossingLookAhead < (g.cache current last).order.length then
        some ((g.cache current last).order.length - 1 - g.config.crossingLookAhead)
      else none := by
    unfold Config.lastRow?
    simp [hloading, hreduce]
  split at hlast
  · have hsize := hextension.size_eq hlast
    omega
  · have hsize := hextension.size_eq_of_none hlast
    omega

private theorem lt_size_cache_of_lt_order {current last row : Nat}
    (hrow : row = max current last + g.config.lookAhead)
    (hcount : row + g.config.crossingLookAhead < g.count)
    (horder : row + g.config.crossingLookAhead < g.order.length) :
    row < (g.cache current last).layout.size := by
  have hlength := length_order_le_rank g (g.target (max current last))
  have hcache : (g.cache current last).order = (g.rank (g.target (max current last))).order :=
    order_cache g current last
  rw [← hcache] at hlength
  rw [lt_size_cache_iff hloading hreduce hrow]
  exact .inl (by omega)

/-- A row for which enough commits are there to look down on is published if it is asked for, unless
the order is one that is remembered and that reaches this row and not as far below it. To ask for the
order that far down before helps. -/
theorem lt_size_cache_iff_serves {current last row : Nat}
    (hrow : row = max current last + g.config.lookAhead)
    (hcount : row + g.config.crossingLookAhead < g.count) :
    (row < (g.cache current last).layout.size ↔
      (g.history.ranking.serves (row + 1) = true →
        row + g.config.crossingLookAhead < g.order.length ∨
          row < (g.layout.keep g.config g.order).size)) ∧
      row < ((g.ordered (row + g.config.crossingLookAhead)).2.cache current last).layout.size := by
  constructor
  · have horder : (g.cache current last).order = _ :=
      (order_cache g current last).trans (order_rank_eq g _)
    rw [target_of_loading hloading, ← hrow, Nat.min_eq_right (by omega)] at horder
    rw [lt_size_cache_iff hloading hreduce hrow, horder]
    split
    · next hserves => simp [hserves]
    · next hserves =>
      -- All commits are ordered anew.
      have hlength : g.history.sorted.length = g.count := g.history.length_sorted
      simp [hserves, hlength, hcount]
  · have hknown := le_length_order_rank g (row + g.config.crossingLookAhead)
    rw [Nat.min_eq_right hcount] at hknown
    exact lt_size_cache_of_lt_order (g := g.rank _) hloading hreduce hrow
      (hcount.trans_eq (count_rank g _).symm) hknown

end Loading

/-- Crossing reduction looks at one row below. -/
def shortSighted : Config := { Config.minimal with reduceCrossings := true, crossingLookAhead := 1 }

/-- Rows are asked for between the arrivals of two commits. -/
def interruptedCalls : List Call := [.add (.repeated 1) [], .cache 0 0, .add (.repeated 2) []]

/-- The graph that remembers the order of the first commit alone. -/
def interrupted : Graph := Graph.run { config := shortSighted } interruptedCalls

theorem lt_size_cache_iff_serves_interrupted :
    (interrupted.completed = false ∧ 1 < interrupted.count) ∧
      (interrupted.cache 0 0).layout.size = 0 ∧
      0 < ((interrupted.ordered 1).2.cache 0 0).layout.size := by
  have hloading : interrupted.completed = false := by decide +kernel
  have hreduce : interrupted.config.reduceCrossings = true := by decide +kernel
  have hcount : 1 < interrupted.count := by decide +kernel
  have hrow : 0 = max 0 0 + interrupted.config.lookAhead := by decide +kernel
  have hwindow : interrupted.config.crossingLookAhead = 1 := by decide +kernel
  have hserves : interrupted.history.ranking.serves 1 = true := by decide +kernel
  have hshort : interrupted.order.length = 1 := by decide +kernel
  have hnone : (interrupted.layout.keep interrupted.config interrupted.order).size = 0 := by
    decide +kernel
  obtain ⟨hiff, hpublished⟩ := lt_size_cache_iff_serves hloading hreduce hrow (by rwa [hwindow])
  rw [hwindow, hshort, hnone] at hiff
  rw [hwindow] at hpublished
  refine ⟨⟨hloading, hcount⟩, ?_, hpublished⟩
  rw [← Nat.le_zero, ← Nat.not_lt, hiff]
  exact fun hreaches => absurd (hreaches hserves) (by decide)

/-- The rows that are asked for may be missing although enough commits are there. -/
theorem not_lt_size_cache :
    ¬ ∀ (config : Config) (calls : List Call) (current last : Nat), config.Valid →
      Graph.Admits { config } calls → config.reduceCrossings = true →
      let g := Graph.run { config } calls
      let row := max current last + config.lookAhead
      g.completed = false → row + config.crossingLookAhead < g.count →
        row + 1 ≤ (g.cache current last).layout.size := by
  intro hall
  have hclimbs : History.Climbs false {} interruptedCalls := by decide +kernel
  have hadmits : Graph.Admits { config := shortSighted } interruptedCalls :=
    admits_of_climbs (.refl _) hclimbs
  have hloading : interrupted.completed = false := by decide +kernel
  have hcount : 1 < interrupted.count := by decide +kernel
  have hsize := hall shortSighted interruptedCalls 0 0 (by decide) hadmits rfl hloading hcount
  have hnone : (interrupted.cache 0 0).layout.size = 0 := by decide +kernel
  exact absurd (hsize.trans_eq hnone) (Nat.not_succ_le_zero _)

end Graph

end CommitLanes
