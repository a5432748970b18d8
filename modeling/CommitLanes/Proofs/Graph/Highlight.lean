import CommitLanes.Proofs.Graph.Runs
import CommitLanes.Proofs.History.Highlight

/-! # The highlighted branch of a graph

A graph does not remember which commit was highlighted, only the marks that came of it. After any run
they are the marks that the last commit highlighted would get if it were highlighted once more. -/

namespace CommitLanes

namespace Graph

open History (Consistent Highlighted SameLinks SameRelatives)

variable {g g' : Graph} {focus : Option CommitId} {call : Call}

/-- The name that is highlighted after a call if it was `focus` before. No name is highlighted if an
unknown one is asked for. -/
def focusAfter (g : Graph) (focus : Option CommitId) : Call → Option CommitId
  | .highlight id => if g.history.find? id = none then none else some id
  | .clear => none
  | _ => focus

/-- The name that is highlighted after a list of calls if it was `focus` before. -/
def focusFrom : Graph → Option CommitId → List Call → Option CommitId
  | _, focus, [] => focus
  | g, focus, call :: rest => focusFrom (g.perform call) (g.focusAfter focus call) rest

/-- The name in focus is known, and the relatives are the revision of that name and its ancestors. -/
structure Focused (g : Graph) (focus : Option CommitId) : Prop where
  consistent : g.history.Consistent
  known : ∀ id ∈ focus, g.history.find? id ≠ none
  highlighted : Highlighted g.history (focus.bind g.history.find?)

theorem focused_new (config : Config) : Focused { config } none where
  consistent := History.consistent_empty
  known id hid := absurd hid (Option.not_mem_none id)
  highlighted := History.highlighted_empty

namespace Focused

/-- What changes no links and no relatives does not matter. -/
private theorem of_same (focused : Focused g focus) (links : SameLinks g.history g'.history)
    (same : SameRelatives g.history g'.history) : Focused g' focus where
  consistent := focused.consistent.of_sameLinks links
  known id hid := by
    rw [links.find?]
    exact focused.known id hid
  highlighted := by
    rw [funext links.find?]
    exact focused.highlighted.of_same same

/-- A commit that arrives takes no name from another one. -/
theorem of_arrive (focused : Focused g focus) {a : History.Arrival}
    (heq : g'.history = g.history.arrive a) : Focused g' focus where
  consistent := heq ▸ focused.consistent.arrive a
  known id hid := by
    obtain ⟨q, hq⟩ := Option.ne_none_iff_exists'.1 (focused.known id hid)
    rw [heq, focused.consistent.find?_arrive a hq]
    exact Option.some_ne_none q
  highlighted := by
    have hbind : focus.bind g'.history.find? = focus.bind g.history.find? := by
      refine Option.bind_congr fun id hid => ?_
      obtain ⟨q, hq⟩ := Option.ne_none_iff_exists'.1 (focused.known id hid)
      rw [heq, focused.consistent.find?_arrive a hq, hq]
    rw [hbind, heq]
    exact focused.highlighted.arrive focused.consistent a

theorem rank (focused : Focused g focus) (row : Nat) : Focused (g.rank row) focus :=
  focused.of_same (History.still_rank g.history row).toSameLinks
    (History.sameRelatives_rank g.history row)

theorem cache (focused : Focused g focus) (current last : Nat) :
    Focused (g.cache current last) focus := by
  refine focused.of_same (still_cache g current last).toSameLinks ?_
  rw [history_cache]
  exact History.sameRelatives_rank _ _

theorem arrive (focused : Focused g focus) (a : History.Arrival) : Focused (g.arrive a) focus := by
  have harrived : Focused { g with history := g.history.arrive a } focus := focused.of_arrive rfl
  refine harrived.of_same (still_arrive g a).toSameLinks ?_
  unfold Graph.arrive checkOut
  split
  · exact History.sameRelatives_modify _ (fun _ => rfl) fun _ => rfl
  · exact .refl _

/-- What is highlighted does not depend on what was highlighted before. -/
theorem highlight (focused : Focused g focus) (id : CommitId) :
    Focused (g.highlight id) (if g.history.find? id = none then none else some id) where
  consistent := focused.consistent.of_sameLinks (still_highlight g.history id).toSameLinks
  known name hname := by
    have hfind := (still_highlight g.history id).toSameLinks.find? name
    split at hname
    · exact absurd hname (Option.not_mem_none name)
    · next hknown =>
      cases hname
      exact hfind.trans_ne hknown
  highlighted := by
    have hfind : (if g.history.find? id = none then none else some id).bind
        (g.highlight id).history.find? = g.history.find? id := by
      split
      · next hunknown => exact hunknown.symm
      · exact (still_highlight g.history id).toSameLinks.find? id
    rw [hfind]
    exact History.highlighted_highlight focused.consistent.toWellLinked id

theorem perform (focused : Focused g focus) (call : Call) :
    Focused (g.perform call) (g.focusAfter focus call) := by
  cases ha : call.arrival? g.config.onlyFirstParent with
  | some a =>
    have hfocus : g.focusAfter focus call = focus := by
      cases call with
      | add | insert => rfl
      | setHead | complete | clear | ordered | rowOf | cache | highlight => cases ha
    have harrived := focused.arrive a
    have hdistrusted : Focused (g.arrive a).distrustOrder focus :=
      harrived.of_same (still_distrustOrder _).toSameLinks (.of_revisions_eq rfl)
    rw [perform_arrival ha, hfocus]
    split
    · exact harrived
    · exact hdistrusted.cache 0 refreshedRows
  | none =>
    cases call with
    | add | insert => cases ha
    | setHead | complete => exact focused.of_same (.refl _) (.refl _)
    | clear => exact (focused_new g.config).of_same (.refl _) (.refl _)
    | ordered row => exact focused.rank row
    | rowOf id =>
      unfold Graph.perform rowOf?
      dsimp only
      split
      · exact focused.rank g.count
      · exact focused
    | cache current last => exact focused.cache current last
    | highlight id => exact focused.highlight id

theorem run (focused : Focused g focus) (calls : List Call) :
    Focused (g.run calls) (g.focusFrom focus calls) := by
  induction calls generalizing g focus with
  | nil => exact focused
  | cons call rest ih => exact ih (focused.perform call)

end Focused

/-- After any run the name that is highlighted is known, and the relatives are the revision of that
name and its ancestors. There are none if no name is highlighted. -/
theorem relative_run (config : Config) (calls : List Call) :
    let g := Graph.run { config } calls
    (∀ id ∈ focusFrom { config } none calls, ∃ q, g.history.find? id = some q) ∧
      ∀ r, (g.history.revision r).relative = true ↔
        ∃ id ∈ focusFrom { config } none calls, ∃ q, g.history.find? id = some q ∧
          (r = q ∨ g.history.IsAncestor q r) := by
  intro g
  have focused : Focused g _ := (focused_new config).run calls
  refine ⟨fun id hid => Option.ne_none_iff_exists'.1 (focused.known id hid), fun r => ?_⟩
  rw [focused.highlighted.relative_iff]
  constructor
  · rintro ⟨q, hq, hline⟩
    obtain ⟨id, hid, hfind⟩ := Option.bind_eq_some_iff.1 hq
    exact ⟨id, hid, q, hfind, hline⟩
  · rintro ⟨id, hid, q, hfind, hline⟩
    exact ⟨q, Option.bind_eq_some_iff.2 ⟨id, hid, hfind⟩, hline⟩

/-- A parent becomes a relative with its link, and so does the parent of a parent. -/
example : (Graph.run { config := .minimal } [
    .add (.repeated 1) [.repeated 2],
    .highlight (.repeated 1),
    .add (.repeated 3) [],
    .add (.repeated 2) [.repeated 4]]).history.relatives = [0, 1, 3] := by decide +kernel

end Graph

end CommitLanes
