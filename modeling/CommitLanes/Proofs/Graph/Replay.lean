import CommitLanes.Proofs.Graph.Runs

/-! # Runs as histories see them

Of all calls only those that add commits or forget them change a history in earnest. Whether a run is
admitted can be told from these alone, and so can the history that it leads to. -/

namespace CommitLanes

open History (Still)

/-- The history that a call makes of a history, but for marks and the row order. -/
def Call.replay (onlyFirst : Bool) (h : History) (call : Call) : History :=
  match call.arrival? onlyFirst with
  | some a => h.arrive a
  | none => if call = .clear then {} else h

theorem Call.still_replay {onlyFirst : Bool} {h k : History} (still : Still h k) (call : Call) :
    Still (call.replay onlyFirst h) (call.replay onlyFirst k) := by
  unfold replay
  cases call.arrival? onlyFirst with
  | some a => exact still.arrive a
  | none =>
    dsimp only
    split
    · exact .refl _
    · exact still

/-- Marks do not decide what is admitted. -/
private theorem Call.Admissible.still {h k : History} (still : Still h k) {call : Call}
    (hadmissible : call.Admissible h) : call.Admissible k := by
  cases call with
  | insert id parents insertion =>
    intro hfind
    rw [still.toSameLinks.find?] at hfind
    obtain ⟨⟨hrange, hfits⟩, front, hfront, hscore⟩ := hadmissible hfind
    have hsize := still.toSameLinks.size
    refine ⟨⟨hrange, fun r hr hlt => ?_⟩, front, hsize ▸ hfront, (still.score front).trans hscore⟩
    -- Scores are the same, so that the same ones are moved.
    rw [still.score] at hlt ⊢
    exact hfits r (hsize ▸ hr) hlt
  | add | setHead | complete | clear | ordered | rowOf | cache | highlight => trivial

instance (h : History) (call : Call) : Decidable (call.Admissible h) :=
  match call with
  | .insert id _ insertion =>
    inferInstanceAs (Decidable (h.find? id = none → insertion.Opens h ∧ insertion.Lands h))
  | .add .. | .setHead _ | .complete | .clear | .ordered _ | .rowOf _ | .cache .. | .highlight _ =>
    .isTrue trivial

namespace Graph

theorem still_replay_perform (g : Graph) (call : Call) :
    Still (call.replay g.config.onlyFirstParent g.history) (g.perform call).history := by
  unfold Call.replay
  cases outcome_perform g call with
  | arrived ha still =>
    rw [ha]
    exact still
  | cleared heq => exact .refl _
  | still hnone hclear still =>
    rw [Call.id?_eq_arrival? g.config.onlyFirstParent, Option.map_eq_none_iff] at hnone
    rw [hnone]
    dsimp only
    rw [if_neg hclear]
    exact still

end Graph

/-- The history that a run makes of a history, but for marks and the row order. -/
def History.replay (onlyFirst : Bool) (h : History) (calls : List Call) : History :=
  calls.foldl (fun h call => call.replay onlyFirst h) h

/-- Every call is admissible, and all scores rise from children to parents. -/
def History.Climbs (onlyFirst : Bool) : History → List Call → Prop
  | _, [] => True
  | h, call :: rest =>
    call.Admissible h ∧ (call.replay onlyFirst h).Ordered ∧
      (call.replay onlyFirst h).Climbs onlyFirst rest

instance History.decidableClimbs (onlyFirst : Bool) :
    ∀ h calls, Decidable (History.Climbs onlyFirst h calls)
  | _, [] => .isTrue trivial
  | h, call :: rest =>
    @instDecidableAnd _ _ _ (@instDecidableAnd _ _ _
      (decidableClimbs onlyFirst (call.replay onlyFirst h) rest))

namespace Graph

/-- The history of a run is known from its calls, whatever is asked for in between. -/
theorem still_replay_run {g : Graph} {h : History} (still : Still h g.history) (calls : List Call) :
    Still (h.replay g.config.onlyFirstParent calls) (g.run calls).history := by
  induction calls generalizing g h with
  | nil => exact still
  | cons call rest ih =>
    have hnext := (Call.still_replay still call).trans (still_replay_perform g call)
    rw [run_cons, ← config_perform g call]
    exact ih (config_perform g call ▸ hnext)

/-- Graphs whose histories differ in marks only stay that way. -/
private theorem still_perform_of_still {g k : Graph} (still : Still g.history k.history)
    (hconfig : k.config.onlyFirstParent = g.config.onlyFirstParent) (call : Call) :
    Still (g.perform call).history (k.perform call).history := by
  have hk := still_replay_perform k call
  rw [hconfig] at hk
  exact (still_replay_perform g call).symm.trans ((Call.still_replay still call).trans hk)

theorem still_run_of_still {g k : Graph} (still : Still g.history k.history)
    (hconfig : k.config.onlyFirstParent = g.config.onlyFirstParent) (calls : List Call) :
    Still (g.run calls).history (k.run calls).history := by
  have hk := still_replay_run still calls
  rw [hconfig] at hk
  exact (still_replay_run (.refl _) calls).symm.trans hk

/-- What is admitted depends on nothing else of the configuration. -/
theorem Admits.of_still {g k : Graph} (still : Still g.history k.history)
    (hconfig : k.config.onlyFirstParent = g.config.onlyFirstParent) {calls : List Call}
    (hadmits : g.Admits calls) : k.Admits calls := by
  induction calls generalizing g k with
  | nil => trivial
  | cons call rest ih =>
    obtain ⟨hadmissible, hac, hrest⟩ := hadmits
    have hnext := still_perform_of_still still hconfig call
    refine ⟨hadmissible.still still, hnext.toSameLinks.acyclic hac, ih hnext ?_ hrest⟩
    rw [config_perform, config_perform]
    exact hconfig

/-- Histories whose scores rise from children to parents have no cycles. -/
theorem admits_of_climbs {g : Graph} {h : History} (still : Still h g.history) {calls : List Call}
    (hclimbs : h.Climbs g.config.onlyFirstParent calls) : g.Admits calls := by
  induction calls generalizing g h with
  | nil => trivial
  | cons call rest ih =>
    obtain ⟨hadmissible, hordered, hrest⟩ := hclimbs
    have hnext := (Call.still_replay still call).trans (still_replay_perform g call)
    refine ⟨hadmissible.still still, hnext.toSameLinks.acyclic hordered.acyclic, ih hnext ?_⟩
    rw [config_perform]
    exact hrest

/-- A merge whose parents are a fork, with rows asked for in between and a row for local changes
inserted in front of all of it. -/
def forkCalls : List Call := [
  .add (.repeated 1) [.repeated 2, .repeated 3],
  .cache 0 0,
  .add (.repeated 2) [.repeated 4],
  .add (.repeated 3) [.repeated 4, .repeated 4],
  .ordered 2,
  .insert .workTree [.repeated 1] ⟨1, 2⟩,
  .cache 0 3,
  .add (.repeated 4) [],
  .rowOf (.repeated 3)]

theorem admits_forkCalls (config : Config) (hall : config.onlyFirstParent = false) :
    Graph.Admits { config } forkCalls := by
  have hclimbs : History.Climbs config.onlyFirstParent {} forkCalls := by
    rw [hall]
    decide +kernel
  exact admits_of_climbs (.refl _) hclimbs

theorem once_forkCalls : Once forkCalls := by decide

theorem still_forkCalls (config : Config) (hall : config.onlyFirstParent = false) :
    (History.replay false {} forkCalls).Still (Graph.run { config } forkCalls).history := by
  have hstill := still_replay_run (g := { config }) (.refl _) forkCalls
  rwa [hall] at hstill

theorem count_forkCalls (config : Config) (hall : config.onlyFirstParent = false) :
    (Graph.run { config } forkCalls).count = 5 := by
  have hreplay : (History.replay false {} forkCalls).arrived.length = 5 := by decide +kernel
  exact (congrArg List.length (still_forkCalls config hall).arrived).trans hreplay

end Graph

end CommitLanes
