import CommitLanes.Proofs.Graph.Intact
import CommitLanes.Proofs.Layout.Inherit

/-! # How far crossing reduction looks

The segments that start in a row are put in an order that depends on the rows shortly below. Rows are
drawn by the order that is remembered, and where this ends early so does the window of the last rows.
While commits may still come, a row is held back until its window is ordered. Once all are there it is
drawn with what there is of the window, however many commits could be ordered. -/

namespace CommitLanes

namespace Window

/-- Where only the first `n` rows are ordered the window ends with them. -/
theorem ofRow_take (h : History) (order : List Rev) (n row lookAhead : Nat) :
    ofRow h (order.take n) row lookAhead = ofRow h order row (min lookAhead (n - row)) := by
  have hbelow : ((order.take n).drop (row + 1)).take (lookAhead - 1) =
      (order.drop (row + 1)).take (min lookAhead (n - row) - 1) := by
    rw [List.drop_take, List.take_take]
    congr 1
    omega
  unfold ofRow
  rw [hbelow]

/-- A window that ends after all rows is the one that ends with them. -/
private theorem ofRow_min (h : History) {order : List Rev} {n row lookAhead : Nat}
    (hn : min order.length (row + lookAhead) ≤ n) :
    ofRow h order row (min lookAhead (n - row)) = ofRow h order row lookAhead := by
  have hbelow : (order.drop (row + 1)).take (min lookAhead (n - row) - 1) =
      (order.drop (row + 1)).take (lookAhead - 1) := by
    rw [List.take_eq_take_iff, List.length_drop]
    omega
  unfold ofRow
  rw [hbelow]

end Window

namespace Layout

/-- While commits may still come, no row is drawn whose window is not ordered. -/
private theorem Extension.add_lt_length {h : History} {config : Config} {order : List Rev}
    {last : Nat} {old rows : Layout} (extension : Extension h config order last false old rows)
    (hreduce : config.reduceCrossings = true) {k : Nat}
    (hk : (old.keep config order).size ≤ k) (hlt : k < rows.size) :
    k + config.crossingLookAhead < order.length := by
  cases hlast : config.lastRow? false order.length with
  | none =>
    have hsize := extension.size_eq_of_none hlast
    omega
  | some possible =>
    have hsize := extension.size_eq hlast
    simp only [Config.lastRow?, hreduce, Bool.not_true, Bool.or_self, Bool.false_eq_true, if_false,
      Option.ite_none_right_eq_some, Option.some.injEq] at hlast
    omega

/-- No row is drawn below the one that is asked for. -/
private theorem Extension.le_last {h : History} {config : Config} {order : List Rev} {last : Nat}
    {completed : Bool} {old rows : Layout}
    (extension : Extension h config order last completed old rows) {k : Nat}
    (hk : (old.keep config order).size ≤ k) (hlt : k < rows.size) : k ≤ last := by
  cases hlast : config.lastRow? completed order.length with
  | none =>
    have hsize := extension.size_eq_of_none hlast
    omega
  | some possible =>
    have hsize := extension.size_eq hlast
    omega

end Layout

namespace Graph

variable {g : Graph}

/-- The segments that start at a revision, as crossing reduction puts them in row `k` when it sees
`lookAhead` rows of the order of all commits. -/
def startsBy (g : Graph) (k lookAhead : Nat) (r : Rev) : List Seg :=
  (Window.ofRow g.history g.history.sorted k lookAhead).sort (g.history.revision r).starts

/-- Row `k` is drawn by the call, and not kept from before. -/
structure Draws (g : Graph) (current last k : Nat) (row : Row) : Prop where
  kept_le : (g.layout.keep g.config (g.cache current last).order).size ≤ k
  row : (g.cache current last).row? k = some row

private theorem Draws.lt {current last k : Nat} {row : Row} (draws : g.Draws current last k row) :
    k < (g.cache current last).layout.size :=
  (Array.getElem?_eq_some_iff.1 draws.row).1

section Cache

variable (hs : g.Sound) (threads : Threads g.history g.layout.contents)
  (hreduce : g.config.reduceCrossings = true) {current last k : Nat} {row : Row}
  (draws : g.Draws current last k row)
include hs threads hreduce draws

/-- The window of a row that is drawn ends with the order that is used. -/
private theorem starts_of_draws :
    row.starts = (g.cache current last).startsBy k
      (min g.config.crossingLookAhead ((g.cache current last).order.length - k)) row.revision := by
  have hstill := still_cache g current last
  obtain ⟨hleads, -⟩ := hs.order_cache current last
  rw [← hstill.sorted] at hleads
  have hstarts := (extension_cache g current last).starts_eq (hstill.sound hs.history)
    (hs.topological_order_cache current last) (threads.of_still hstill) draws.kept_le draws.row
  rw [hstarts]
  unfold Layout.startsAt startsBy
  rw [if_pos hreduce, ← Window.ofRow_take, ← List.prefix_iff_eq_take.1 hleads]

/-- If the order that is used reaches far enough then the window is a full one. -/
private theorem starts_of_draws_of_le
    (hreach : min g.count (k + g.config.crossingLookAhead) ≤ (g.cache current last).order.length) :
    row.starts =
      (g.cache current last).startsBy k g.config.crossingLookAhead row.revision := by
  rw [starts_of_draws hs threads hreduce draws]
  unfold startsBy
  have hlength := (g.cache current last).history.length_sorted
  have hcount : (g.cache current last).history.count = g.count := count_cache g current last
  rw [Window.ofRow_min]
  rwa [hlength, hcount]

end Cache

/-- How many rows are ordered when rows are asked for: those that are remembered, if they serve, or
else all. -/
def reach (g : Graph) (current last : Nat) : Nat :=
  if g.history.ranking.serves (min g.count (g.target (max current last) + 1)) then g.order.length
  else g.count

theorem length_order_cache (g : Graph) (current last : Nat) :
    (g.cache current last).order.length = g.reach current last := by
  have horder : (g.cache current last).order = _ :=
    (order_cache g current last).trans (order_rank_eq g _)
  have hlength : g.history.sorted.length = g.count := g.history.length_sorted
  rw [horder, apply_ite List.length, hlength]
  rfl

/-- An order that was asked for before is used in full. -/
private theorem le_length_order_cache_ordered (g : Graph) (row current last : Nat) :
    min g.count (row + 1) ≤ ((g.ordered row).2.cache current last).order.length := by
  have hknown : min g.count (row + 1) ≤ (g.ordered row).2.order.length :=
    le_length_order_rank g row
  have hused : min (g.ordered row).2.count (g.ordered row).2.order.length ≤
      ((g.ordered row).2.cache current last).order.length :=
    (order_cache _ current last).symm ▸ length_order_le_rank _ _
  have hcount : (g.ordered row).2.count = g.count := count_rank g row
  omega

/-- Rows are drawn at most down to the one that is asked for, so an order that was asked for further
down before ends below their windows. -/
private theorem le_length_order_of_draws {current last k lookAhead : Nat} {row : Row}
    (draws : (g.ordered (g.target (max current last) + lookAhead)).2.Draws current last k row) :
    min g.count (k + lookAhead) ≤
      ((g.ordered (g.target (max current last) + lookAhead)).2.cache current last).order.length := by
  have hlong := le_length_order_cache_ordered g (g.target (max current last) + lookAhead) current last
  generalize heq : (g.ordered (g.target (max current last) + lookAhead)).2 = asked at draws hlong ⊢
  have hle : k ≤ asked.target (max current last) :=
    (extension_cache asked current last).le_last draws.kept_le draws.lt
  have htarget : asked.target (max current last) = g.target (max current last) := by
    unfold target
    rw [← heq, show (g.ordered _).2.count = g.count from count_rank g _]
    rfl
  omega

/-- To ask for the order is always admitted. -/
private theorem admits_concat_ordered {config : Config} {calls : List Call}
    (hadmits : Graph.Admits { config } calls) (row : Nat) :
    Graph.Admits { config } (calls ++ [.ordered row]) := by
  have hs := (sound_new config).run hadmits
  have hstill := History.still_rank (Graph.run { config } calls).history row
  exact admits_append.2 ⟨hadmits, trivial, hstill.toSameLinks.acyclic hs.history.ordered.acyclic,
    trivial⟩

/-- The window of a row that is drawn ends with the rows that are ordered then. It is a full one while
commits may still come, and also if the order was asked for further down before. -/
theorem starts_run {config : Config} {calls : List Call} (hadmits : Graph.Admits { config } calls)
    (hreduce : config.reduceCrossings = true) (current last : Nat) :
    let g := Graph.run { config } calls
    let asked := (g.ordered (g.target (max current last) + config.crossingLookAhead)).2
    (∀ k row, g.Draws current last k row →
      row.starts = (g.cache current last).startsBy k
          (min config.crossingLookAhead (g.reach current last - k)) row.revision ∧
        (g.completed = false ∨
            min g.count (k + config.crossingLookAhead) ≤ g.reach current last →
          row.starts =
            (g.cache current last).startsBy k config.crossingLookAhead row.revision)) ∧
      ∀ k row, asked.Draws current last k row →
        row.starts =
          (asked.cache current last).startsBy k config.crossingLookAhead row.revision := by
  intro g asked
  have hconfig : g.config = config := config_run _ calls
  have hs : g.Sound := (sound_new config).run hadmits
  have hthreads : Threads g.history g.layout.contents := (intact_run hadmits).threads
  have hreach := length_order_cache g current last
  refine ⟨fun k row draws => ⟨?_, fun hfull => ?_⟩, fun k row draws => ?_⟩
  · have hstarts := starts_of_draws hs hthreads (hconfig ▸ hreduce) draws
    rwa [hreach, hconfig] at hstarts
  · have hstarts := starts_of_draws_of_le hs hthreads (hconfig ▸ hreduce) draws
    rw [hreach, hconfig] at hstarts
    rcases hfull with hloading | hle
    · have hextension := extension_cache g current last
      rw [hloading, hconfig] at hextension
      have hlt := hextension.add_lt_length hreduce (hconfig ▸ draws.kept_le) draws.lt
      exact hstarts ((min_le_right _ _).trans (hreach ▸ hlt.le))
    · exact hstarts hle
  · have hasked := admits_concat_ordered hadmits
      (g.target (max current last) + config.crossingLookAhead)
    have hrun : Graph.run { config } (calls ++ [.ordered _]) = asked := run_append _ calls _
    have hsasked : asked.Sound := hrun ▸ (sound_new config).run hasked
    have hthreads : Threads asked.history asked.layout.contents :=
      hrun ▸ (intact_run hasked).threads
    have hconfig' : asked.config = config := hconfig
    have hstarts := starts_of_draws_of_le hsasked hthreads (hconfig' ▸ hreduce) draws
    rw [hconfig'] at hstarts
    have hcount : asked.count = g.count := count_rank g _
    exact hstarts (hcount ▸ le_length_order_of_draws draws)

/-- Crossing reduction looks at two rows below. -/
def farSighted : Config := { Config.minimal with reduceCrossings := true, crossingLookAhead := 3 }

/-- A row is asked for when one commit is there, and then its parents come. -/
def nearsightedCalls : List Call := [
  .add (.repeated 1) [.repeated 2, .repeated 3],
  .ordered 0,
  .add (.repeated 3) [],
  .add (.repeated 2) [],
  .complete]

/-- The graph that remembers the order of the first commit alone, while the order of all puts the
second parent first. -/
def nearsighted : Graph := Graph.run { config := farSighted } nearsightedCalls

private theorem admits_nearsightedCalls :
    Graph.Admits { config := farSighted } nearsightedCalls := by
  have hclimbs : History.Climbs false {} nearsightedCalls := by decide +kernel
  exact admits_of_climbs (.refl _) hclimbs

private theorem draws_nearsighted : nearsighted.Draws 0 0 0 {
    revision := 0
    drawn := [⟨⟨0, 0, 1, ⟨3, 0⟩⟩, 0, .primary⟩, ⟨⟨1, 0, 2, ⟨2, 0⟩⟩, 0, .differentEnd⟩]
    revisionLane := 0 } where
  kept_le := Nat.le_zero.2 (by decide +kernel)
  row := by decide +kernel

/-- The row is drawn as if there were no rows below it. -/
theorem starts_run_nearsighted :
    Graph.Admits { config := farSighted } nearsightedCalls ∧ nearsighted.completed = true ∧
      ∃ row, nearsighted.Draws 0 0 0 row ∧
        row.starts = (nearsighted.cache 0 0).startsBy 0 1 row.revision := by
  have hcompleted : nearsighted.completed = true := by decide +kernel
  have hreach : nearsighted.reach 0 0 = 1 := by decide +kernel
  obtain ⟨hrows, -⟩ := starts_run admits_nearsightedCalls rfl 0 0
  have hstarts : _ = (nearsighted.cache 0 0).startsBy 0 (min 3 (nearsighted.reach 0 0 - 0)) 0 :=
    (hrows 0 _ draws_nearsighted).1
  rw [hreach] at hstarts
  exact ⟨admits_nearsightedCalls, hcompleted, _, draws_nearsighted, hstarts⟩

/-- The window of a row need not be a full one, although all commits are there when it is added. -/
theorem not_starts_eq_startsBy :
    ¬ ∀ (config : Config) (calls : List Call) (current last : Nat), config.Valid →
      Graph.Admits { config } calls → config.reduceCrossings = true →
      let g := Graph.run { config } calls
      g.completed = true → ∀ k row, g.layout.size ≤ k → (g.cache current last).row? k = some row →
        row.starts =
          (g.cache current last).startsBy k config.crossingLookAhead row.revision := by
  intro hall
  have hcompleted : nearsighted.completed = true := by decide +kernel
  have hstarts := hall farSighted nearsightedCalls 0 0 (by decide) admits_nearsightedCalls rfl
    hcompleted 0 _ (Nat.le_zero.2 (by decide +kernel)) draws_nearsighted.row
  have hsorted : (nearsighted.cache 0 0).history.sorted = [0, 2, 1] :=
    History.sorted_eq_of_pairwise (by decide +kernel) (by decide +kernel)
  have hfull : (nearsighted.cache 0 0).startsBy 0 3 0 = [1, 0] := by
    rw [startsBy, hsorted]
    decide +kernel
  exact absurd (hstarts.trans hfull) (by decide)

end Graph

end CommitLanes
