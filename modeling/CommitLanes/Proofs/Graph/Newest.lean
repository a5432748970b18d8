import CommitLanes.Proofs.Graph.Request
import CommitLanes.Proofs.History.Newest
import CommitLanes.Proofs.Layout.Margin

/-! # New commits in a graph

A commit that is added goes below all that is not an ancestor of it. Where commits always arrive ahead
of their parents, as they do from a log, that is below all that has arrived, and then rows are in the
order of arrival and none of them is ever drawn again. -/

namespace CommitLanes

namespace Graph

variable {g : Graph}

/-- In every graph that can be reached a commit that is added gets the first score after all those
given out, whether or not it was known, and then only its ancestors are further down. -/
theorem newest_run {config : Config} {calls : List Call} (hadmits : Graph.Admits { config } calls) :
    let g := Graph.run { config } calls
    (∀ r < g.history.revisions.size, g.history.score r ≤ g.history.maxScore) ∧
      ∀ id parents, (g.add id parents).history.Acyclic →
        ∃ r, (g.add id parents).history.find? id = some r ∧
          (g.add id parents).history.score r = g.history.maxScore + 1 ∧
          ∀ q < (g.add id parents).history.revisions.size, q ≠ r →
            ¬ (g.add id parents).history.IsAncestor r q →
            (g.add id parents).history.score q < (g.add id parents).history.score r := by
  intro g
  have hs : g.Sound := (sound_new config).run hadmits
  refine ⟨hs.bounded, fun id parents hac => ?_⟩
  have harrival : (Call.add id parents).arrival? g.config.onlyFirstParent =
      some { id, parents, onlyFirst := g.config.onlyFirstParent } := rfl
  have hcall : (Call.add id parents).Admissible g.history := trivial
  have hstill : History.Still _ (g.add id parents).history := still_perform_arrival harrival
  have harrived : History.Arrived id _ g.history (g.add id parents).history :=
    arrived_perform hs hcall hac harrival
  have hsound : (g.add id parents).Sound := hs.perform hcall hac
  obtain ⟨apart, hscore⟩ := History.arrive_newest hs.history hs.bounded rfl
    (hstill.toSameLinks.symm.acyclic hac)
  rw [← hstill.score] at hscore
  have hlt := hsound.history.wellLinked.lt_of_completed ((harrived.completed _).2 (.inl rfl))
  refine ⟨_, ?_, hscore, fun q hq hne hancestor => ?_⟩
  · rw [← hsound.history.wellLinked.find?_id hlt, harrived.child_id]
  · rw [hstill.toSameLinks.isAncestor] at hancestor
    rw [hstill.toSameLinks.size] at hq
    rw [hscore, hstill.score]
    rcases lt_or_ge q g.history.revisions.size with hold | hnew
    · rw [apart.unmoved q hold hne hancestor]
      exact Int.lt_add_one_of_le (hs.bounded q hold)
    · rcases apart.known q hq hnew with heq | ha
      · exact absurd heq hne
      · exact absurd ha hancestor

/-- A commit that has arrived before gets another parent, after a row was inserted. -/
theorem newest_run_forkCalls :
    let g := Graph.run { config := .minimal } forkCalls
    let g' := g.add (.repeated 4) [.repeated 5]
    Graph.Admits { config := .minimal } forkCalls ∧ g'.history.Acyclic ∧
      (∀ r < g.history.revisions.size, g.history.score r ≤ g.history.maxScore) ∧
      ∃ r, g'.history.find? (.repeated 4) = some r ∧
        g'.history.score r = g.history.maxScore + 1 ∧
        ∀ q < g'.history.revisions.size, q ≠ r → ¬ g'.history.IsAncestor r q →
          g'.history.score q < g'.history.score r := by
  intro g g'
  have hclimbs : History.Climbs false {} (forkCalls ++ [.add (.repeated 4) [.repeated 5]]) := by
    decide +kernel
  have hadmits : Graph.Admits { config := .minimal }
      (forkCalls ++ [.add (.repeated 4) [.repeated 5]]) := admits_of_climbs (.refl _) hclimbs
  obtain ⟨hcalls, -, hac, -⟩ := admits_append.1 hadmits
  obtain ⟨hbounded, hnewest⟩ := newest_run hcalls
  exact ⟨hcalls, hac, hbounded, hnewest (.repeated 4) [.repeated 5] hac⟩

end Graph

/-! ## Logs -/

/-- The call adds a commit for the first time and ahead of all its parents, or it asks for rows or
sets marks. -/
def Call.Follows (added : List CommitId) : Call → Prop
  | .add id parents => id ∉ added ∧ ∀ p ∈ parents, p ∉ added
  | .insert _ _ _ => False
  | .clear => False
  | _ => True

instance (added : List CommitId) : (call : Call) → Decidable (call.Follows added)
  | .add id parents => inferInstanceAs (Decidable (id ∉ added ∧ ∀ p ∈ parents, p ∉ added))
  | .insert _ _ _ | .clear => .isFalse id
  | .setHead _ | .complete | .ordered _ | .rowOf _ | .cache _ _ | .highlight _ => .isTrue trivial

/-- No commit is added twice or after one of its parents. -/
def Log (calls : List Call) : Prop :=
  Each (fun before call => call.Follows (before.filterMap Call.id?)) calls

instance (calls : List Call) : Decidable (Log calls) :=
  inferInstanceAs (Decidable (Each (fun before call => call.Follows (before.filterMap Call.id?)) calls))

namespace Graph

variable {g : Graph} {added : List CommitId} {call : Call}

/-- The commits `added` have arrived in this order, and this is the order of scores and of rows. -/
structure Logged (added : List CommitId) (g : Graph) : Prop extends Sound g where
  consistent : g.history.Consistent
  names : g.history.names = added
  sequential : g.history.Sequential
  order : g.order <+: g.history.arrived
  rows : g.layout.revisions <+: g.order

private theorem logged_new (config : Config) : Logged [] { config } where
  toSound := sound_new config
  consistent := History.consistent_empty
  names := rfl
  sequential := History.sequential_empty
  order := List.prefix_rfl
  rows := List.prefix_rfl

private theorem names_of_still {h h' : History} (still : History.Still h h') :
    h'.names = h.names := by
  unfold History.names
  rw [still.arrived]
  exact List.map_congr_left fun r _ => still.toSameLinks.id r

private theorem sequential_of_still {h h' : History} (still : History.Still h h')
    (sequential : h.Sequential) : h'.Sequential := by
  unfold History.Sequential
  simp only [still.arrived, still.score]
  exact sequential

/-- A commit that is added has nothing published. -/
private theorem perform_add (g : Graph) (id : CommitId) (parents : List CommitId) :
    g.perform (.add id parents) =
      g.arrive { id, parents, onlyFirst := g.config.onlyFirstParent } := by
  have harrival : (Call.add id parents).arrival? g.config.onlyFirstParent =
      some { id, parents, onlyFirst := g.config.onlyFirstParent } := rfl
  rw [perform_arrival harrival, if_pos]
  by_contra hlinked
  exact (Call.publishes_iff (h := g.history) harrival).2 (Bool.eq_false_of_not_eq_true hlinked)

theorem order_arrive (g : Graph) (a : History.Arrival) :
    (g.arrive a).order = (g.history.arrive a).ranking.order := by
  unfold arrive checkOut
  split <;> rfl

namespace Logged

/-- What neither moves commits nor takes rows back. -/
private theorem of_still {g' : Graph} (logged : Logged added g) (hs : g'.Sound)
    (still : History.Still g.history g'.history) (horder : g'.order <+: g.history.arrived)
    (hrows : g'.layout.revisions <+: g'.order) : Logged added g' where
  toSound := hs
  consistent := logged.consistent.of_sameLinks still.toSameLinks
  names := (names_of_still still).trans logged.names
  sequential := sequential_of_still still logged.sequential
  order := still.arrived ▸ horder
  rows := hrows

/-- An order that is computed anew goes on with the one before. -/
theorem order_rank (logged : Logged added g) (row : Nat) :
    g.order <+: (g.rank row).order ∧ (g.rank row).order <+: g.history.arrived := by
  rw [order_rank_eq, logged.sequential.sorted_eq]
  split
  · exact ⟨List.prefix_rfl, logged.order⟩
  · exact ⟨logged.order, List.prefix_rfl⟩

theorem order_cache (logged : Logged added g) (current last : Nat) :
    g.order <+: (g.cache current last).order ∧
      (g.cache current last).order <+: g.history.arrived := by
  rw [Graph.order_cache]
  exact logged.order_rank _

/-- No row that is published is drawn again. -/
theorem keep_cache (logged : Logged added g) (current last : Nat) :
    g.layout.keep g.config (g.cache current last).order = g.layout :=
  Layout.keep_eq_self (logged.rows.trans (logged.order_cache current last).1)

theorem rows_cache (logged : Logged added g) (current last : Nat) :
    g.layout.revisions <+: (g.cache current last).layout.revisions ∧
      (g.cache current last).layout.revisions <+: (g.cache current last).order := by
  obtain ⟨keep, stop, redrawn⟩ := redrawn_cache g current last
  have hagrees := logged.rows.trans (logged.order_cache current last).1
  have hsize := (extension_cache g current last).size_le hagrees
  have hnext : (g.cache current last).layout.revisions <+: (g.cache current last).order := by
    rw [redrawn.revisions]
    exact List.take_prefix _ _
  refine ⟨List.prefix_of_prefix_length_le hagrees hnext ?_, hnext⟩
  simpa using hsize

/-- A commit that comes ahead of its parents is listed last, and those before it stay in place. -/
theorem arrive (logged : Logged added g) {a : History.Arrival} (ahead : a.Ahead g.history)
    (hplain : a.insertion = none) (hs : (g.arrive a).Sound) :
    Logged (added ++ [a.id]) (g.arrive a) := by
  have still := still_arrive g a
  have hc := logged.consistent
  have hac := ahead.acyclic hc logged.history.settled logged.history.ordered.acyclic
  have hadmits : g.history.Admits a.id a.insertion := by simp [History.Admits, hplain]
  have horder : (g.arrive a).order = g.order :=
    (order_arrive g a).trans (History.order_arrive logged.history hadmits hac)
  have hnames : (g.history.arrive a).names = added ++ [a.id] := by
    rw [hc.names_arrive, if_neg ahead.new, logged.names]
  exact {
    toSound := hs
    consistent := (hc.arrive a).of_sameLinks still.toSameLinks
    names := (names_of_still still).trans hnames
    sequential := sequential_of_still still
      (logged.sequential.arrive ahead logged.history logged.bounded hc hplain)
    order := by
      rw [horder, still.arrived, ahead.arrived_eq hc]
      exact logged.order.trans (List.prefix_append _ _)
    rows := by
      rw [horder, layout_arrive]
      exact logged.rows }

section Perform

variable (logged : Logged added g) (hfollows : call.Follows added)
include logged hfollows

/-- The commit of a call comes ahead of its parents, and everything else leaves scores alone. -/
private theorem outcome : (∃ a : History.Arrival, call.id? = some a.id ∧ a.insertion = none ∧
      a.Ahead g.history ∧ g.perform call = g.arrive a) ∨
    call.id? = none ∧ History.Still g.history (g.perform call).history := by
  cases houtcome : outcome_perform g call with
  | @arrived call a ha still =>
    cases call with
    | add id parents =>
      rw [← logged.names] at hfollows
      exact .inl ⟨{ id, parents, onlyFirst := g.config.onlyFirstParent }, rfl, rfl,
        ⟨hfollows.1, hfollows.2⟩, perform_add g id parents⟩
    | insert => exact hfollows.elim
    | setHead | complete | clear | ordered | rowOf | cache | highlight => cases ha
  | cleared heq => exact hfollows.elim
  | still hnone hclear still => exact .inr ⟨hnone, still⟩

theorem sound_perform : (g.perform call).Sound := by
  have hs := logged.history
  apply logged.toSound.perform
  · cases call with
    | insert => exact hfollows.elim
    | add | setHead | complete | clear | ordered | rowOf | cache | highlight => trivial
  · rcases logged.outcome hfollows with ⟨a, -, -, ahead, heq⟩ | ⟨-, still⟩
    · rw [heq]
      apply (still_arrive g a).toSameLinks.acyclic
      exact ahead.acyclic logged.consistent hs.settled hs.ordered.acyclic
    · exact still.toSameLinks.acyclic hs.ordered.acyclic

/-- A commit that has arrived stays where it is. -/
theorem score_perform {r : Rev} (hr : (g.history.revision r).completed = true) :
    ((g.perform call).history.revision r).completed = true ∧
      (g.perform call).history.score r = g.history.score r := by
  have hs := logged.history
  rcases logged.outcome hfollows with ⟨a, -, hplain, ahead, heq⟩ | ⟨-, still⟩
  · have still := still_arrive g a
    have hmem : r ∈ (g.history.arrive a).arrived := by
      rw [ahead.arrived_eq logged.consistent]
      exact List.mem_append_left _ ((hs.wellLinked.mem_arrived r).2 hr)
    rw [heq, still.toSameLinks.completed, still.score]
    exact ⟨((logged.consistent.arrive a).mem_arrived r).1 hmem,
      ahead.score_eq hs logged.bounded logged.consistent hplain hr⟩
  · rw [still.toSameLinks.completed, still.score]
    exact ⟨hr, rfl⟩

theorem perform : Logged (added ++ call.id?.toList) (g.perform call) := by
  have hsound := logged.sound_perform hfollows
  rcases logged.outcome hfollows with ⟨a, hid, hplain, ahead, heq⟩ | ⟨hnone, still⟩
  · rw [heq] at hsound ⊢
    rw [hid]
    exact logged.arrive ahead hplain hsound
  · rw [hnone, Option.toList_none, List.append_nil]
    have hrank (row : Nat) := logged.order_rank row
    cases call with
    | add | insert => cases hnone
    | clear => exact hfollows.elim
    | setHead | complete => exact logged.of_still hsound still logged.order logged.rows
    | ordered row =>
      exact logged.of_still hsound still (hrank row).2 (logged.rows.trans (hrank row).1)
    | rowOf id =>
      have hcases : g.perform (.rowOf id) = g.rank g.count ∨ g.perform (.rowOf id) = g := by
        unfold Graph.perform rowOf?
        dsimp only
        split
        · exact .inl rfl
        · exact .inr rfl
      rcases hcases with heq | heq
      · rw [heq] at hsound still ⊢
        exact logged.of_still hsound still (hrank _).2 (logged.rows.trans (hrank _).1)
      · rw [heq]
        exact logged
    | cache current last =>
      exact logged.of_still hsound still (logged.order_cache current last).2
        (logged.rows_cache current last).2
    | highlight id =>
      have horder : (g.perform (.highlight id)).order = g.order := by
        unfold Graph.perform Graph.highlight History.highlight
        dsimp only
        split <;> rfl
      apply logged.of_still hsound still
      · rw [horder]
        exact logged.order
      · rw [horder]
        exact logged.rows

theorem rows_perform : g.layout.revisions <+: (g.perform call).layout.revisions := by
  cases publication_perform g call with
  | extended hpublishes =>
    cases call with
    | cache current last => exact (logged.rows_cache current last).1
    | insert => exact hfollows.elim
    | add | setHead | complete | clear | ordered | rowOf | highlight => exact hpublishes.elim
  | cleared => exact hfollows.elim
  | kept hnot hclear heq => rw [heq]

end Perform

/-- What arrives ahead of its parents moves nothing that is there, however long the log goes on. -/
theorem run {calls : List Call}
    (hlog : Each (fun before call => call.Follows (added ++ before.filterMap Call.id?)) calls)
    (logged : Logged added g) :
    Logged (added ++ calls.filterMap Call.id?) (g.run calls) ∧
      g.layout.revisions <+: (g.run calls).layout.revisions ∧
      ∀ r, (g.history.revision r).completed = true →
        ((g.run calls).history.revision r).completed = true ∧
          (g.run calls).history.score r = g.history.score r := by
  induction calls using List.reverseRecOn with
  | nil => exact ⟨by simpa using logged, List.prefix_rfl, fun r hr => ⟨hr, rfl⟩⟩
  | append_singleton calls call ih =>
    obtain ⟨hcalls, hrows, hscores⟩ := ih hlog.of_append
    have hfollows := hlog calls call [] rfl
    rw [run_append]
    refine ⟨?_, hrows.trans (hcalls.rows_perform hfollows), fun r hr => ?_⟩
    · rw [List.filterMap_append, ← List.append_assoc]
      have hnames : [call].filterMap Call.id? = call.id?.toList := by
        cases hid : call.id? <;> simp [hid]
      rw [hnames]
      exact hcalls.perform hfollows
    · obtain ⟨hcompleted, hscore⟩ := hscores r hr
      obtain ⟨hstill, hsame⟩ := hcalls.score_perform hfollows hcompleted
      exact ⟨hstill, hsame.trans hscore⟩

end Logged

/-- All commits are listed in the order of their arrival. -/
private theorem Logged.ordered_eq (logged : Logged added g) :
    (g.ordered g.count).1 = g.history.arrived := by
  obtain ⟨n, hn, horder⟩ := logged.toSound.ordered_eq_take g.count
  have hcount : g.history.arrived.length = g.count := rfl
  rw [horder, logged.sequential.sorted_eq]
  apply List.take_of_length_le
  omega

theorem logged_run {config : Config} {calls : List Call} (hlog : Log calls) :
    Logged (calls.filterMap Call.id?) (Graph.run { config } calls) := by
  have each : Each (fun before call => call.Follows ([] ++ before.filterMap Call.id?)) calls := hlog
  exact ((logged_new config).run each).1

/-- In a log scores are given out once and for all, rows are in the order of arrival, and a row that
is published is never taken back. -/
theorem log_run {config : Config} {calls more : List Call} (hlog : Log (calls ++ more)) :
    let g := Graph.run { config } calls
    let g' := Graph.run { config } (calls ++ more)
    (∀ r, (g.history.revision r).completed = true →
        (g'.history.revision r).completed = true ∧ g'.history.score r = g.history.score r) ∧
      (g.ordered g.count).1.map (fun r => (g.history.revision r).id) = calls.filterMap Call.id? ∧
      (∀ current last, g.layout.keep config (g.cache current last).order = g.layout) ∧
      g.layout.revisions <+: g'.layout.revisions := by
  intro g g'
  have hfirst : Logged (calls.filterMap Call.id?) g := logged_run hlog.of_append
  have hrest : Each (fun before call =>
      call.Follows (calls.filterMap Call.id? ++ before.filterMap Call.id?)) more := by
    intro before call after heq
    rw [← List.filterMap_append]
    exact hlog (calls ++ before) call after (by rw [heq, List.append_assoc])
  have hrun : g' = g.run more := run_append _ calls more
  obtain ⟨-, hrows, hscores⟩ := hfirst.run hrest
  rw [hrun]
  refine ⟨hscores, ?_, fun current last => ?_, hrows⟩
  · rw [hfirst.ordered_eq]
    exact hfirst.names
  · have hconfig : g.config = config := config_run _ calls
    rw [← hconfig]
    exact hfirst.keep_cache current last

/-- A merge that arrives ahead of its two parents, which share a parent that arrives last, with rows
asked for in between. -/
def logCalls : List Call := [
  .add (.repeated 1) [.repeated 2, .repeated 3],
  .cache 0 1,
  .add (.repeated 3) [.repeated 4],
  .ordered 1,
  .add (.repeated 2) [.repeated 4, .repeated 2]]

theorem log_run_logCalls :
    let g := Graph.run { config := .minimal } logCalls
    let g' := Graph.run { config := .minimal } (logCalls ++ [.cache 0 2, .add (.repeated 4) []])
    Log (logCalls ++ [.cache 0 2, .add (.repeated 4) []]) ∧
      (g.history.revision 0).completed = true ∧ g'.history.score 0 = g.history.score 0 ∧
      (g.ordered g.count).1.map (fun r => (g.history.revision r).id) =
        [.repeated 1, .repeated 3, .repeated 2] ∧
      g.layout.revisions = [0] ∧ g.layout.revisions <+: g'.layout.revisions := by
  intro g g'
  have hlog : Log (logCalls ++ [.cache 0 2, .add (.repeated 4) []]) := by decide +kernel
  obtain ⟨hscores, horder, -, hrows⟩ := @log_run .minimal _ _ hlog
  have hcompleted :
      ((Graph.run { config := .minimal } logCalls).history.revision 0).completed = true := by
    decide +kernel
  have hpublished : (Graph.run { config := .minimal } logCalls).layout.revisions = [0] := by
    decide +kernel
  exact ⟨hlog, hcompleted, (hscores 0 hcompleted).2, horder, hpublished, hrows⟩

end Graph

end CommitLanes
