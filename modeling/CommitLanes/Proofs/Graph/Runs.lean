import CommitLanes.Graph.Run
import CommitLanes.Proofs.History.Arrivals

/-! # Runs that are admitted

The runs of a graph that its callers promise: links make no cycle, and an insertion that takes
effect is placed in front of a revision that there is and makes room for itself. What such a run
does to the history is one of three things: a commit arrives, all is forgotten, or nothing moves. -/

namespace CommitLanes

/-- The commit that a call adds. -/
def Call.arrival? (onlyFirst : Bool) : Call → Option History.Arrival
  | .add id parents => some { id, parents, onlyFirst }
  | .insert id parents insertion => some { id, parents, insertion := some insertion, onlyFirst }
  | _ => none

/-- The name of the commit that a call adds. -/
def Call.id? : Call → Option CommitId
  | .add id _ => some id
  | .insert id _ _ => some id
  | _ => none

/-- An insertion that takes effect is placed in front of a revision that there is and makes room
for itself. -/
def Call.Admissible (h : History) : Call → Prop
  | .insert id _ insertion => h.find? id = none → insertion.Opens h ∧ insertion.Lands h
  | _ => True

/-- No commit is added twice. -/
def Once (calls : List Call) : Prop := (calls.filterMap Call.id?).Nodup

instance (calls : List Call) : Decidable (Once calls) := inferInstanceAs (Decidable (List.Nodup _))

theorem Call.id?_eq_arrival? (onlyFirst : Bool) (call : Call) :
    call.id? = (call.arrival? onlyFirst).map (·.id) := by
  cases call <;> rfl

theorem Call.Admissible.admits {h : History} {call : Call} {onlyFirst : Bool} {a : History.Arrival}
    (hadmissible : call.Admissible h) (ha : call.arrival? onlyFirst = some a) :
    h.Admits a.id a.insertion ∧ h.Lands a.id a.insertion := by
  cases call with
  | insert id parents insertion =>
    cases ha
    refine ⟨fun place hplace hfind => ?_, fun place hplace hfind => ?_⟩
    · cases hplace
      exact (hadmissible hfind).1
    · cases hplace
      exact (hadmissible hfind).2
  | add id parents =>
    cases ha
    exact ⟨fun _ hplace => (nomatch hplace), fun _ hplace => (nomatch hplace)⟩
  | setHead | complete | clear | ordered | rowOf | cache | highlight => cases ha

namespace Graph

open History (Still)

/-- Every call of the run is admissible and leaves the links without a cycle. -/
def Admits : Graph → List Call → Prop
  | _, [] => True
  | g, call :: rest =>
    call.Admissible g.history ∧ (g.perform call).history.Acyclic ∧ (g.perform call).Admits rest

theorem admits_append {g : Graph} {calls more : List Call} :
    g.Admits (calls ++ more) ↔ g.Admits calls ∧ (g.run calls).Admits more := by
  induction calls generalizing g with
  | nil => simp [Admits]
  | cons call rest ih => simp [Admits, ih, and_assoc]

/-- What holds at first and is kept by every admitted call holds after every admitted run. -/
private theorem run_induction {g : Graph} {P : List Call → Graph → Prop} (init : P [] g)
    (step : ∀ calls call, P calls (g.run calls) → call.Admissible (g.run calls).history →
      ((g.run calls).perform call).history.Acyclic →
      P (calls ++ [call]) ((g.run calls).perform call))
    {calls : List Call} (hadmits : g.Admits calls) : P calls (g.run calls) := by
  induction calls using List.reverseRecOn with
  | nil => exact init
  | append_singleton calls call ih =>
    obtain ⟨hcalls, hcall, hac, -⟩ := admits_append.1 hadmits
    rw [run_append]
    exact step calls call (ih hcalls) hcall hac

/-! ## What a call does to the history -/

theorem history_cache (g : Graph) (current last : Nat) :
    (g.cache current last).history = g.history.rank (g.target (max current last)) := by
  unfold cache
  dsimp only
  split <;> rfl

theorem still_checkOut (g : Graph) (id : CommitId) (r : Rev) :
    Still g.history (g.checkOut id r).history := by
  unfold checkOut
  split
  · refine ⟨Array.ext (by simp [History.modify]) fun i hi hi' => ?_, rfl, rfl, rfl, rfl, rfl⟩
    simp only [History.modify, Array.getElem_map, Array.getElem_modify]
    split <;> rfl
  · exact .refl _

theorem still_highlight (h : History) (id : CommitId) : Still h (h.highlight id) := by
  have hnone := History.still_setRelatives h []
  unfold History.highlight
  dsimp only
  split
  · exact hnone.trans (History.still_setRelatives _ _)
  · exact hnone

/-- The graph right after a commit has arrived. -/
def arrive (g : Graph) (a : History.Arrival) : Graph :=
  { g with history := g.history.arrive a }.checkOut a.id (g.history.added a).revision

theorem perform_arrival {g : Graph} {call : Call} {a : History.Arrival}
    (ha : call.arrival? g.config.onlyFirstParent = some a) :
    g.perform call =
      if (g.history.added a).linked then g.arrive a
      else (g.arrive a).distrustOrder.cache 0 refreshedRows := by
  cases call with
  | add id parents =>
    cases ha
    rfl
  | insert id parents insertion =>
    cases ha
    rfl
  | setHead | complete | clear | ordered | rowOf | cache | highlight => cases ha

theorem still_arrive (g : Graph) (a : History.Arrival) :
    Still (g.history.arrive a) (g.arrive a).history :=
  still_checkOut { g with history := g.history.arrive a } _ _

theorem still_distrustOrder (g : Graph) : Still g.history g.distrustOrder.history :=
  ⟨rfl, rfl, rfl, rfl, rfl, rfl⟩

theorem still_cache (g : Graph) (current last : Nat) :
    Still g.history (g.cache current last).history := by
  rw [history_cache]
  exact History.still_rank _ _

theorem still_rowOf? (g : Graph) (id : CommitId) : Still g.history (g.rowOf? id).2.history := by
  unfold rowOf?
  split
  · exact History.still_rank _ _
  · exact .refl _

theorem still_perform_arrival {g : Graph} {call : Call} {a : History.Arrival}
    (ha : call.arrival? g.config.onlyFirstParent = some a) :
    Still (g.history.arrive a) (g.perform call).history := by
  rw [perform_arrival ha]
  split
  · exact still_arrive g a
  · exact (still_arrive g a).trans ((still_distrustOrder _).trans (still_cache _ _ _))

/-- How the history of a graph comes out of a call. -/
inductive Outcome (g : Graph) (h' : History) : Call → Prop
  | arrived {call : Call} {a : History.Arrival}
    (ha : call.arrival? g.config.onlyFirstParent = some a)
    (still : Still (g.history.arrive a) h') : Outcome g h' call
  | cleared (heq : h' = {}) : Outcome g h' .clear
  | still {call : Call} (hnone : call.id? = none) (hclear : call ≠ .clear)
    (still : Still g.history h') : Outcome g h' call

theorem outcome_perform (g : Graph) (call : Call) :
    Outcome g (g.perform call).history call := by
  cases ha : call.arrival? g.config.onlyFirstParent with
  | some a => exact .arrived ha (still_perform_arrival ha)
  | none =>
    have hnone : call.id? = none := by rw [Call.id?_eq_arrival?, ha]; rfl
    cases call with
    | add | insert => cases ha
    | clear => exact .cleared rfl
    | setHead | complete => exact .still hnone nofun (.refl _)
    | ordered row => exact .still hnone nofun (History.still_rank _ row)
    | rowOf id => exact .still hnone nofun (still_rowOf? g id)
    | cache current last => exact .still hnone nofun (still_cache g current last)
    | highlight id => exact .still hnone nofun (still_highlight g.history id)

/-! ## What holds after every admitted run -/

/-- The history is sound, no score is above those given out, and the row order that is remembered
holds. -/
structure Sound (g : Graph) : Prop where
  history : g.history.Sound
  bounded : g.history.Bounded
  ranked : g.history.Ranked

theorem sound_new (config : Config) : Sound { config } :=
  ⟨History.sound_empty, fun r hr => absurd hr (Nat.not_lt_zero r), .of_stale rfl⟩

theorem ranked_cache {g : Graph} (hs : g.history.Sound) (hr : g.history.Ranked)
    (current last : Nat) : (g.cache current last).history.Ranked := by
  rw [history_cache]
  exact History.ranked_rank hs.wellLinked.arrived_nodup hr _

theorem Sound.distrusted_arrive {g : Graph} (hs : g.Sound) {a : History.Arrival}
    (hadmits : g.history.Admits a.id a.insertion) (hlands : g.history.Lands a.id a.insertion)
    (hac : (g.history.arrive a).Acyclic) : (g.arrive a).distrustOrder.Sound := by
  have hstill := (still_arrive g a).trans (still_distrustOrder (g.arrive a))
  exact ⟨hstill.sound (History.arrive_sound hs.history hadmits hac),
    hstill.bounded (History.arrive_bounded hs.history hadmits hlands hac hs.bounded), .of_stale rfl⟩

/-- A commit that completes in a place that it had before is the one case in which the order is no
longer right, and then it is forgotten. -/
theorem ranked_perform {g : Graph} (hs : g.Sound) {call : Call}
    (hadmissible : call.Admissible g.history) (hac : (g.perform call).history.Acyclic) :
    (g.perform call).history.Ranked := by
  cases ha : call.arrival? g.config.onlyFirstParent with
  | some a =>
    obtain ⟨hadmits, hlands⟩ := hadmissible.admits ha
    have harrive := (still_perform_arrival ha).toSameLinks.symm.acyclic hac
    rw [perform_arrival ha]
    split
    · -- A commit that gets a place either comes after all that is ordered or disturbs the order.
      next hlinked =>
      have hranked := History.arrive_ranked hs.history hadmits harrive hs.bounded hs.ranked hlinked
      have hranking : (g.arrive a).history.ranking = (g.history.arrive a).ranking := by
        unfold arrive checkOut
        split <;> rfl
      have hsound := History.arrive_sound hs.history hadmits harrive
      exact (still_arrive g a).ranked hsound hranking hranked
    · -- The rows are drawn by an order that is computed anew.
      have hdistrust := hs.distrusted_arrive hadmits hlands harrive
      exact ranked_cache hdistrust.history hdistrust.ranked _ _
  | none =>
    have hrank (row : Nat) := History.ranked_rank hs.history.wellLinked.arrived_nodup hs.ranked row
    cases call with
    | add | insert => cases ha
    | clear => exact .of_stale rfl
    | setHead | complete => exact hs.ranked
    | ordered row => exact hrank row
    | rowOf id =>
      unfold perform rowOf?
      dsimp only
      split
      · exact hrank _
      · exact hs.ranked
    | cache current last => exact ranked_cache hs.history hs.ranked current last
    | highlight id =>
      refine (still_highlight g.history id).ranked hs.history ?_ hs.ranked
      unfold History.highlight
      dsimp only
      split <;> rfl

theorem Sound.perform {g : Graph} (hs : g.Sound) {call : Call}
    (hadmissible : call.Admissible g.history) (hac : (g.perform call).history.Acyclic) :
    (g.perform call).Sound := by
  have hranked := ranked_perform hs hadmissible hac
  cases outcome_perform g call with
  | @arrived _ a ha still =>
    obtain ⟨hadmits, hlands⟩ := hadmissible.admits ha
    have harrive := still.toSameLinks.symm.acyclic hac
    have hsound := History.arrive_sound hs.history hadmits harrive
    have hbounded := History.arrive_bounded hs.history hadmits hlands harrive hs.bounded
    exact ⟨still.sound hsound, still.bounded hbounded, hranked⟩
  | cleared heq => exact ⟨History.sound_empty, fun r hr => absurd hr (Nat.not_lt_zero r), hranked⟩
  | still hnone hclear still => exact ⟨still.sound hs.history, still.bounded hs.bounded, hranked⟩

theorem Sound.run {g : Graph} (hs : g.Sound) {calls : List Call} (hadmits : g.Admits calls) :
    (g.run calls).Sound :=
  run_induction (P := fun _ g => g.Sound) hs
    (fun _ _ hprevious hadmissible hac => hprevious.perform hadmissible hac) hadmits

/-- What holds at first and is kept by every admitted call of a sound graph holds after every admitted
run. -/
theorem Sound.run_induction {g : Graph} (hs : g.Sound) {P : List Call → Graph → Prop} (init : P [] g)
    (step : ∀ (calls : List Call) (call : Call), (g.run calls).Sound → P calls (g.run calls) →
      call.Admissible (g.run calls).history → ((g.run calls).perform call).history.Acyclic →
      P (calls ++ [call]) ((g.run calls).perform call))
    {calls : List Call} (hadmits : g.Admits calls) : P calls (g.run calls) := by
  refine (Graph.run_induction (P := fun calls g => g.Sound ∧ P calls g) ⟨hs, init⟩ ?_ hadmits).2
  rintro calls call ⟨hprevious, hP⟩ hadmissible hac
  exact ⟨hprevious.perform hadmissible hac, step calls call hprevious hP hadmissible hac⟩

/-! ## Runs that add no commit twice -/

@[simp] theorem config_cache (g : Graph) (current last : Nat) :
    (g.cache current last).config = g.config := by
  unfold cache
  dsimp only
  split <;> rfl

@[simp] theorem config_arrive (g : Graph) (a : History.Arrival) : (g.arrive a).config = g.config := by
  unfold arrive checkOut
  split <;> rfl

@[simp] theorem config_perform (g : Graph) (call : Call) : (g.perform call).config = g.config := by
  cases ha : call.arrival? g.config.onlyFirstParent with
  | some a =>
    rw [perform_arrival ha]
    split
    · exact config_arrive g a
    · exact (config_cache _ _ _).trans (config_arrive g a)
  | none =>
    cases call with
    | add | insert => cases ha
    | setHead | complete | clear | ordered | highlight => rfl
    | rowOf id =>
      unfold perform rowOf?
      dsimp only
      split <;> rfl
    | cache current last => exact config_cache g current last

/-- All commits that are completed are listed. -/
def Lists (names : List CommitId) (h : History) : Prop :=
  ∀ r, (h.revision r).completed = true → (h.revision r).id ∈ names

/-- A commit that the call adds has not arrived before. -/
def Fresh (g : Graph) (call : Call) : Prop :=
  ∀ a, call.arrival? g.config.onlyFirstParent = some a →
    (g.history.revision (g.history.added a).revision).completed = false

section Step

variable {g : Graph} {call : Call} (hs : g.Sound) (hadmissible : call.Admissible g.history)
  (hac : (g.perform call).history.Acyclic)
include hs hadmissible hac

theorem arrived_perform {a : History.Arrival}
    (ha : call.arrival? g.config.onlyFirstParent = some a) :
    History.Arrived a.id (g.history.added a).revision g.history (g.perform call).history := by
  have hstill := still_perform_arrival ha
  exact (History.arrive_arrived hs.history (hadmissible.admits ha).1
    (hstill.toSameLinks.symm.acyclic hac)).still hstill

theorem lists_perform {names : List CommitId} (hlists : Lists names g.history) :
    Lists (names ++ [call].filterMap Call.id?) (g.perform call).history := by
  intro r hr
  rw [List.mem_append]
  cases outcome_perform g call with
  | @arrived _ a ha still =>
    have harrived := arrived_perform hs hadmissible hac ha
    rcases (harrived.completed r).1 hr with rfl | hold
    · -- It is the commit of this call.
      right
      have hid : call.id? = some a.id := by rw [Call.id?_eq_arrival?, ha]; rfl
      simp [hid, harrived.child_id]
    · have hlt := hs.history.wellLinked.completed_lt ((hs.history.wellLinked.mem_arrived r).2 hold)
      rw [harrived.id r hlt]
      exact .inl (hlists r hold)
  | cleared heq =>
    -- Nothing is left that could be completed.
    exact absurd hr (by simp [perform, clear, History.revision]; rfl)
  | still hnone hclear still =>
    rw [still.toSameLinks.completed] at hr
    rw [still.toSameLinks.id]
    exact .inl (hlists r hr)

private theorem fresh_of_lists {names : List CommitId} (hlists : Lists names g.history)
    (hnew : ∀ id ∈ call.id?, id ∉ names) : Fresh g call := by
  intro a ha
  have harrived := arrived_perform hs hadmissible hac ha
  rw [Bool.eq_false_iff]
  -- If it had arrived then it would be listed by the name that it still has.
  intro hold
  have hlt := hs.history.wellLinked.completed_lt ((hs.history.wellLinked.mem_arrived _).2 hold)
  apply hnew a.id
  · rw [Call.id?_eq_arrival?, ha]
    rfl
  · rw [← harrived.child_id, harrived.id _ hlt]
    exact hlists _ hold

end Step

theorem once_append {calls : List Call} {call : Call} (honce : Once (calls ++ [call])) :
    Once calls ∧ ∀ id ∈ call.id?, id ∉ calls.filterMap Call.id? := by
  unfold Once at honce ⊢
  rw [List.filterMap_append, List.nodup_append] at honce
  refine ⟨honce.1, fun id hid hmem => honce.2.2 id hmem id ?_ rfl⟩
  simpa using hid

@[simp] theorem config_run (g : Graph) (calls : List Call) : (g.run calls).config = g.config := by
  induction calls generalizing g with
  | nil => rfl
  | cons call rest ih => exact (ih (g.perform call)).trans (config_perform g call)

theorem lists_run {config : Config} {calls : List Call} (hadmits : Graph.Admits { config } calls) :
    Lists (calls.filterMap Call.id?) (Graph.run { config } calls).history := by
  refine (sound_new config).run_induction
    (P := fun calls g => Lists (calls.filterMap Call.id?) g.history) (fun r hr => absurd hr ?_)
    (fun calls call hs hlists hadmissible hac => ?_) hadmits
  · simp [History.revision]
    rfl
  · rw [List.filterMap_append]
    exact lists_perform hs hadmissible hac hlists

/-- The last call of a run that adds no commit twice adds none that has arrived. -/
theorem fresh_run {config : Config} {calls : List Call} {call : Call}
    (hadmits : Graph.Admits { config } (calls ++ [call])) (honce : Once (calls ++ [call])) :
    Fresh (Graph.run { config } calls) call := by
  obtain ⟨hcalls, hadmissible, hac, -⟩ := admits_append.1 hadmits
  obtain ⟨-, hnew⟩ := once_append honce
  exact fresh_of_lists ((sound_new config).run hcalls) hadmissible hac (lists_run hcalls) hnew

/-- What holds at first and is kept by every admitted call that adds no commit again holds after every
admitted run that adds no commit twice. -/
theorem run_induction_once {config : Config} {P : Graph → Prop} (init : P { config })
    (step : ∀ (g : Graph) (call : Call), g.Sound → g.config = config → P g →
      call.Admissible g.history → (g.perform call).history.Acyclic → Fresh g call →
      P (g.perform call))
    {calls : List Call} (hadmits : Graph.Admits { config } calls) (honce : Once calls) :
    P (Graph.run { config } calls) := by
  induction calls using List.reverseRecOn with
  | nil => exact init
  | append_singleton calls call ih =>
    obtain ⟨hcalls, hadmissible, hac, -⟩ := admits_append.1 hadmits
    have hprevious := ih hcalls (once_append honce).1
    have hfresh := fresh_run hadmits honce
    rw [run_append]
    exact step _ call ((sound_new config).run hcalls) (config_run _ calls) hprevious hadmissible hac
      hfresh

end Graph

end CommitLanes
