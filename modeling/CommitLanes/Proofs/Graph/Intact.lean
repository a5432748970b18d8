import CommitLanes.Proofs.Graph.Request
import CommitLanes.Proofs.Layout.Check

/-! # Published rows

Between two calls that publish, rows may fall behind the history: a commit that is added again can
have links that no row shows. They stay intact all the same. What a row passes on is in the next row,
and its lanes are shared by those strands that belong together. -/

namespace CommitLanes

namespace Graph

variable {g : Graph} {call : Call}

/-- Rows pass their strands on and share their lanes as they should. -/
structure Intact (g : Graph) : Prop where
  threads : Threads g.history g.layout.contents
  shares : g.layout.Shares g.config.mergeLanes

section Step

variable (hs : g.Sound) (hadmissible : call.Admissible g.history)
  (hac : (g.perform call).history.Acyclic)
include hs hadmissible hac

/-- No call but the one that forgets everything takes anything back. -/
theorem threads_perform (hclear : call ≠ .clear) {contents : List (Rev × List Strand)}
    (threads : Threads g.history contents) : Threads (g.perform call).history contents := by
  cases outcome_perform g call with
  | @arrived _ a ha still => exact threads.of_arrived (arrived_perform hs hadmissible hac ha)
  | cleared => exact absurd rfl hclear
  | still _ _ still => exact threads.of_still still

/-- Rows are drawn by an order of the history as it is then. -/
theorem topological_perform (hpublishes : call.Publishes g.history) :
    Topological (g.perform call).history (g.perform call).order := by
  obtain ⟨before, current, last, hbefore, -, -, heq⟩ := hs.exists_cache hadmissible hac hpublishes
  rw [heq]
  exact hbefore.topological_order_cache current last

theorem intact_perform (intact : g.Intact) : (g.perform call).Intact := by
  have hconfig := config_perform g call
  cases publication_perform g call with
  | extended hpublishes extension =>
    have hclear : call ≠ .clear := by
      rintro rfl
      exact hpublishes
    obtain ⟨keep, stop, redrawn⟩ := extension.exists_redrawn
    have hhistory := (hs.perform hadmissible hac).history
    have htop := topological_perform hs hadmissible hac hpublishes
    have hthreads := threads_perform hs hadmissible hac hclear intact.threads
    refine ⟨redrawn.threads hhistory htop hthreads, ?_⟩
    rw [hconfig]
    exact redrawn.shares intact.shares
  | cleared heq =>
    refine ⟨?_, ?_⟩
    · rw [heq]
      exact threads_nil
    · rw [heq]
      exact Layout.shares_empty _
  | kept _ hclear heq =>
    refine ⟨?_, ?_⟩
    · rw [heq]
      exact threads_perform hs hadmissible hac hclear intact.threads
    · rw [heq, hconfig]
      exact intact.shares

end Step

theorem intact_run {config : Config} {calls : List Call} (hadmits : Graph.Admits { config } calls) :
    (Graph.run { config } calls).Intact :=
  (sound_new config).run_induction (P := fun _ g => g.Intact) ⟨threads_nil, Layout.shares_empty _⟩
    (fun _ _ hs intact hadmissible hac => intact_perform hs hadmissible hac intact) hadmits

/-- What holds of no rows, of every part of rows from the top, and is kept by one more row and by a
shift, holds of all rows that are ever published. -/
theorem layout_run {config : Config} {P : Layout → Prop} (empty : P #[])
    (top : ∀ rows n, P rows → P (rows.take n))
    (draw : ∀ h order rows r, h.Sound → Threads h (Layout.contents rows) → r ∉ rows.revisions →
      P rows → P (rows.drawRow h config order r))
    (shift : ∀ rows move, P rows → P (rows.shift move)) {calls : List Call}
    (hadmits : Graph.Admits { config } calls) : P (Graph.run { config } calls).layout := by
  refine ((sound_new config).run_induction
    (P := fun _ g => g.config = config ∧ g.Intact ∧ P g.layout)
    ⟨rfl, ⟨threads_nil, Layout.shares_empty _⟩, empty⟩ ?_ hadmits).2.2
  rintro calls call hs ⟨hconfig, intact, hP⟩ hadmissible hac
  generalize Graph.run { config } calls = g at hs hconfig intact hP hadmissible hac ⊢
  refine ⟨(config_perform g call).trans hconfig, intact_perform hs hadmissible hac intact, ?_⟩
  cases publication_perform g call with
  | extended hpublishes extension =>
    have hclear : call ≠ .clear := by
      rintro rfl
      exact hpublishes
    obtain ⟨keep, stop, redrawn⟩ := extension.exists_redrawn
    rw [hconfig] at redrawn
    have hhistory := (hs.perform hadmissible hac).history
    exact (redrawn.induction_of_threads hhistory (topological_perform hs hadmissible hac hpublishes)
      (threads_perform hs hadmissible hac hclear intact.threads) (fun n => top _ n hP)
      (fun rows r => draw _ _ rows r hhistory) shift).2
  | cleared heq =>
    rw [heq]
    exact empty
  | kept _ _ heq =>
    rw [heq]
    exact hP

/-! ## The check -/

/-- The check never finds a fault, however long ago rows were published. The first row has no line
from above. What does not end in a row is in the next one, and primary strands have lanes of their
own. A layout of all rows passes nothing on to a commit that is loaded. The rows show different
commits that are loaded. -/
theorem checkLayout_run {config : Config} {calls : List Call}
    (hadmits : Graph.Admits { config } calls) :
    let g := Graph.run { config } calls
    g.checkLayout = .ok () ∧
      (∀ row, g.row? 0 = some row → ∀ strand ∈ row.drawn, strand.child = row.revision) ∧
      (∀ i row below, g.row? i = some row → g.row? (i + 1) = some below →
        ∀ strand ∈ row.drawn, strand.parent ≠ row.revision →
          ∃ next ∈ below.drawn, next.toStrand = strand.toStrand) ∧
      (∀ i row, g.row? i = some row → row.drawn.Pairwise fun a b =>
        a.sharing = .primary → b.sharing = .primary → a.lane ≠ b.lane) ∧
      (g.completed = true → g.layout.size = g.count → ∀ row, g.layout.back? = some row →
        ∀ strand ∈ row.drawn, strand.parent ≠ row.revision →
          (g.history.revision strand.parent).completed = false) ∧
      g.layout.revisions.Nodup ∧
      (∀ r ∈ g.layout.revisions, (g.history.revision r).completed = true) ∧
      g.layout.size ≤ g.count := by
  intro g
  have hs : g.Sound := (sound_new config).run hadmits
  have hw := hs.history.wellLinked
  obtain ⟨threads, shares⟩ : g.Intact := intact_run hadmits
  have hall : (g.completed && decide (g.layout.size = g.count)) = true →
      g.layout.size = g.history.arrived.length := by
    intro h
    exact of_decide_eq_true (Bool.and_eq_true_iff.1 h).2
  have hcoherent := Layout.coherent_of_threads threads hw shares hall
  refine ⟨Layout.check_eq_ok_iff.2 hcoherent, hcoherent.first, ?_, hcoherent.separates, ?_, ?_, ?_,
    Layout.size_le_of_threads threads hw⟩
  · exact fun i row below hrow hbelow strand hmem hgoes =>
      Layout.exists_below_of_threads threads hrow hbelow hmem hgoes
  · exact fun _ hsize row hrow strand hmem hgoes =>
      Layout.completed_eq_false_of_threads threads hw hsize hrow hmem hgoes
  · rw [← Layout.fst_contents]
    exact threads.nodup
  · rw [← Layout.fst_contents]
    exact threads.arrived

/-- All commits are loaded and published, and then two of them are added again with a parent more. -/
def staleCalls : List Call := [
  .add (.repeated 1) [.repeated 2],
  .add (.repeated 2) [],
  .cache 0 1,
  .add (.repeated 2) [.repeated 3],
  .add (.repeated 1) [.repeated 2, .repeated 3],
  .complete]

/-- The rows lack the new segments, and the check passes them. -/
theorem checkLayout_run_staleCalls :
    Graph.Admits { config := .minimal } staleCalls ∧
      let g := Graph.run { config := .minimal } staleCalls
      g.completed = true ∧ g.layout.size = g.count ∧
        g.layout.map Row.segments = #[[0], [0]] ∧ (g.history.revision 0).starts = [0, 2] ∧
        g.checkLayout = .ok () ∧ g.layout.revisions.Nodup := by
  have hclimbs : History.Climbs false {} staleCalls := by decide +kernel
  have hadmits : Graph.Admits { config := .minimal } staleCalls := admits_of_climbs (.refl _) hclimbs
  have hrun : Graph.run { config := .minimal } staleCalls = _ :=
    run_cache_remember (staleCalls.take 2) (staleCalls.drop 3) [0, 1] 0 1 (by decide +kernel)
  obtain ⟨hcheck, -, -, -, -, hnodup, -, -⟩ := checkLayout_run hadmits
  refine ⟨hadmits, ?_, ?_, ?_, ?_, hcheck, hnodup⟩ <;> rw [hrun]
  · decide +kernel
  · decide +kernel
  · decide +kernel
  · decide +kernel

/-! ## Lanes -/

/-- Two segments are drawn in one lane of the row above row `k`. -/
def MetAbove (g : Graph) (k : Nat) (s t : Seg) : Prop :=
  ∃ i row lane, k = i + 1 ∧ g.row? i = some row ∧ row.lane? s = some lane ∧ row.lane? t = some lane

private theorem met_above?_iff {k : Nat} {s t : Seg} :
    Met (g.layout.above? k) s t ↔ g.MetAbove k s t := by
  unfold Met MetAbove row?
  cases k with
  | zero => simp [Layout.above?]
  | succ k => simp [Layout.above?]

/-- In every published row the strands that touch the revision are drawn in its lane and no others
are. Two strands share a lane if both touch the revision, or else, with merging on, if both pass it
on their way to the same parent. The leftmost strand of a lane is its primary one. Another one in the
lane of the revision tells at which end it differs, and another one that passes by coincides with
the primary one if the two came in one lane from the row above. -/
theorem lanes_run {config : Config} {calls : List Call} (hadmits : Graph.Admits { config } calls) :
    let g := Graph.run { config } calls
    ∀ (k : Nat) (row : Row), g.row? k = some row →
      row.segments.Nodup ∧
      (∀ b ∈ row.drawn, b.lane = row.revisionLane ↔ b.touches row.revision) ∧
      ∀ (left : List Drawn) (b : Drawn) (right : List Drawn), row.drawn = left ++ b :: right →
        (∀ a ∈ left, a.lane = b.lane ↔
          (a.touches row.revision ∧ b.touches row.revision) ∨
            (config.mergeLanes ∧ ¬ a.touches row.revision ∧ ¬ b.touches row.revision ∧
              a.parent = b.parent)) ∧
        (b.sharing = .primary ↔ ∀ a ∈ left, a.lane ≠ b.lane) ∧
        (b.sharing ≠ .primary → b.parent = row.revision → b.sharing = .differentStart) ∧
        (b.sharing ≠ .primary → b.child = row.revision → b.sharing = .differentEnd) ∧
        ∀ a ∈ left, a.lane = b.lane → a.sharing = .primary → ¬ b.touches row.revision →
          (g.MetAbove k a.segment b.segment → b.sharing = .entire) ∧
            (¬ g.MetAbove k a.segment b.segment → b.sharing = .differentStart) := by
  intro g k row hrow
  have hthreads := Layout.threadsRow_of_getElem? (intact_run hadmits).threads hrow
  have hshares := (intact_run hadmits).shares k row hrow
  rw [config_run] at hshares
  refine ⟨row.segments_eq ▸ hthreads.nodup, hshares.lane_eq_iff, fun left b right heq => ?_⟩
  have hb := hshares.each left b right heq
  refine ⟨hb.lane_eq_iff, hb.primary_iff, hb.ending, fun hnot hstarts => ?_, ?_⟩
  · -- No segment ends where it starts.
    have hmem : b ∈ row.drawn := heq ▸ List.mem_append_right left List.mem_cons_self
    have hne := (hthreads.runs _ (List.mem_map_of_mem hmem)).parent_ne
    exact hb.starting hnot hstarts (hstarts ▸ hne)
  · intro a ha hsame hprimary hpasses
    simpa only [met_above?_iff] using hb.passing hpasses a ha hsame hprimary

/-- Strands on the way to one parent are drawn in one lane. -/
def merging : Config := { Config.minimal with mergeLanes := true }

/-- Three commits with one parent, and then another one that has none. -/
def passingCalls : List Call := [
  .add (.repeated 1) [.repeated 5],
  .add (.repeated 2) [.repeated 5],
  .add (.repeated 3) [.repeated 5],
  .add (.repeated 4) [],
  .cache 0 3]

/-- All three strands pass the row in one lane, and two of them came in that lane. -/
theorem lanes_run_passingCalls :
    Graph.Admits { config := merging } passingCalls ∧
      let g := Graph.run { config := merging } passingCalls
      ∃ row a b c, g.row? 3 = some row ∧ row.drawn = [a, b, c] ∧ a.lane = b.lane ∧ a.lane = c.lane ∧
        g.MetAbove 3 a.segment b.segment ∧ b.sharing = .entire ∧
        ¬ g.MetAbove 3 a.segment c.segment ∧ c.sharing = .differentStart := by
  have hclimbs : History.Climbs false {} passingCalls := by decide +kernel
  have hadmits : Graph.Admits { config := merging } passingCalls := admits_of_climbs (.refl _) hclimbs
  have hrun : Graph.run { config := merging } passingCalls = _ :=
    run_cache_remember (passingCalls.take 4) [] [0, 2, 3, 4] 0 3 (by decide +kernel)
  have habove : (Graph.run { config := merging } passingCalls).row? 2 = some {
      revision := 3
      drawn := [⟨⟨0, 0, 1, ⟨4, 0⟩⟩, 0, .primary⟩, ⟨⟨1, 2, 1, ⟨7, 2⟩⟩, 0, .differentStart⟩,
        ⟨⟨2, 3, 1, ⟨6, 3⟩⟩, 1, .primary⟩]
      revisionLane := 1 } := by
    rw [hrun]
    decide +kernel
  have hrow : (Graph.run { config := merging } passingCalls).row? 3 = some {
      revision := 4
      drawn := [⟨⟨0, 0, 1, ⟨4, 0⟩⟩, 0, .primary⟩, ⟨⟨1, 2, 1, ⟨7, 2⟩⟩, 0, .entire⟩,
        ⟨⟨2, 3, 1, ⟨6, 3⟩⟩, 0, .differentStart⟩]
      revisionLane := 1 } := by
    rw [hrun]
    decide +kernel
  have hmet : (Graph.run { config := merging } passingCalls).MetAbove 3 0 1 :=
    ⟨2, _, 0, rfl, habove, rfl, rfl⟩
  have hapart : ¬ (Graph.run { config := merging } passingCalls).MetAbove 3 0 2 := by
    rintro ⟨i, row, lane, hi, hrow, hfirst, hthird⟩
    cases hi
    cases habove.symm.trans hrow
    exact absurd (hfirst.trans hthird.symm) (by decide)
  obtain ⟨-, -, hstrands⟩ := lanes_run hadmits 3 _ hrow
  obtain ⟨-, -, -, -, hsecond⟩ := hstrands [_] _ [_] rfl
  obtain ⟨-, -, -, -, hthird⟩ := hstrands [_, _] _ [] rfl
  exact ⟨hadmits, _, _, _, _, hrow, rfl, rfl, rfl, hmet,
    (hsecond _ List.mem_cons_self rfl rfl (by decide)).1 hmet, hapart,
    (hthird _ List.mem_cons_self rfl rfl (by decide)).2 hapart⟩

end Graph

end CommitLanes
