import CommitLanes.Proofs.Graph.Highlight
import CommitLanes.Proofs.Graph.RowOrder
import CommitLanes.Proofs.History.Inserting

/-! # Inserted rows in a graph

A row that is inserted gets a place of its own in front of all that has the score it is given or a
higher one. A score is not a revision: several commits may share one, and then the row is above all
of them. -/

namespace CommitLanes

namespace Graph

open History (Arrival Inserted)

variable {g : Graph} {id front : CommitId} {parents : List CommitId} {insertion : Insertion}

/-- The row of a commit is the number of completed revisions before it. -/
private theorem Sound.rowOf?_eq_countP (hs : g.Sound) {r : Rev}
    (hid : (g.history.revision r).id = id) (hcompleted : (g.history.revision r).completed = true) :
    (g.rowOf? id).1 = some (g.history.arrived.countP (g.history.Before · r)) := by
  have hw := hs.history.wellLinked
  obtain ⟨row, hrow⟩ := List.mem_iff_getElem?.1
    (History.mem_sorted.2 ((hw.mem_arrived r).2 hcompleted))
  rw [History.countP_before hw.arrived_nodup hrow]
  refine hs.rowOf?_eq_some_iff.2 ⟨r, ?_, hid⟩
  rw [hs.atRow?_eq]
  exact hrow

theorem still_insert (g : Graph) (id : CommitId) (parents : List CommitId) (insertion : Insertion) :
    History.Still (g.history.arrive ⟨id, parents, some insertion, g.config.onlyFirstParent⟩)
      (g.insert id parents insertion).history := by
  have harrival : (Call.insert id parents insertion).arrival? g.config.onlyFirstParent =
      some ⟨id, parents, some insertion, g.config.onlyFirstParent⟩ := rfl
  exact still_perform_arrival harrival

section Insert

variable (inserts : Arrival.Inserts ⟨id, parents, some insertion, g.config.onlyFirstParent⟩
  insertion g.history)
include inserts

theorem inserted_insert (hc : g.history.Consistent) :
    Inserted id insertion g.history (g.insert id parents insertion).history :=
  (History.inserted_arrive inserts hc).of_still (still_insert g id parents insertion)

private theorem range_pos_of_inserts : 0 < insertion.range :=
  (Int.natCast_nonneg _).trans_lt inserts.room

/-- The call is one that is admitted. -/
theorem admits_insert (hs : g.Sound) (hc : g.history.Consistent) (hlands : insertion.Lands g.history) :
    Graph.Admits g [.insert id parents insertion] := by
  have still := still_insert g id parents insertion
  have hordered := History.ordered_arrive_of_inserts inserts hc hs.history.ordered
  exact ⟨fun _ => ⟨inserts.opens, hlands⟩, still.toSameLinks.acyclic hordered.acyclic, trivial⟩

/-- The row is above all revisions that have the score it is given. -/
theorem rowOf?_insert (hs : g.Sound) (hc : g.history.Consistent) {r : Rev}
    (hfind : g.history.find? front = some r) (hcompleted : (g.history.revision r).completed = true)
    (hscore : insertion.score = g.history.score r) :
    ∃ row, ((g.insert id parents insertion).rowOf? id).1 = some row ∧
      ((g.insert id parents insertion).rowOf? front).1 = some (row + 1 + g.history.ties r) := by
  have hw := hs.history.wellLinked
  obtain ⟨hr, rfl⟩ := hw.find?_eq_some_iff.1 hfind
  obtain ⟨hadmissible, hac, -⟩ := admits_insert inserts hs hc ⟨r, hr, hscore.symm⟩
  have hs' : (g.insert id parents insertion).Sound := hs.perform hadmissible hac
  have hw' := hs'.history.wellLinked
  have harrived : History.Arrived id _ g.history (g.insert id parents insertion).history :=
    arrived_perform hs hadmissible hac rfl
  rw [inserts.enroll_eq.1] at harrived
  have inserted := inserted_insert inserts hc
  have hrange := range_pos_of_inserts inserts
  have hnew : (g.history.revision g.history.revisions.size).completed = false := by
    rw [History.revision_of_le le_rfl]
    rfl
  have hcount := History.countP_arrived hw hw' harrived.completed hnew
  refine ⟨g.history.arrived.countP (g.history.score · < insertion.score), ?_, ?_⟩
  · have hrow := hs'.rowOf?_eq_countP harrived.child_id ((harrived.completed _).2 (.inl rfl))
    rw [hrow, hcount, inserted.countP_before_new hrange hw,
      decide_eq_false (History.Before.irrefl _)]
    rfl
  · have hrow := hs'.rowOf?_eq_countP (inserted.id r hr) ((harrived.completed r).2 (.inr hcompleted))
    rw [hrow, hcount, inserted.countP_before_old hrange hw hr, History.countP_before_eq, hscore,
      decide_eq_true (inserted.before_new hrange hr hscore.le), if_pos rfl, Nat.add_right_comm]

end Insert

/-! ## After any run -/

/-- The graph keeps its names, whatever was asked of it before. -/
theorem consistent_run (config : Config) (calls : List Call) :
    (Graph.run { config } calls).history.Consistent :=
  ((focused_new config).run calls).consistent

/-- An insertion with room for its parents, none of which is above the score it is given, opens a gap
of its range and puts nothing but itself and the parents that become known into it. -/
theorem gap_insert (config : Config) (calls : List Call) :
    let g := Graph.run { config } calls
    ∀ (id : CommitId) (parents : List CommitId) (insertion : Insertion),
      g.history.find? id = none → insertion.Opens g.history → parents.length < insertion.range →
      (∀ p ∈ parents, p ≠ id → ∀ q, g.history.find? p = some q →
        insertion.score ≤ g.history.score q) →
      let h := g.history
      let h' := (g.insert id parents insertion).history
      let new := h.revisions.size
      (∀ r < new, (h'.revision r).id = (h.revision r).id ∧ h'.score r =
        if h.score r < insertion.score then h.score r - insertion.range else h.score r) ∧
      (h'.find? id = some new ∧ h'.score new = insertion.score - insertion.range) ∧
      (∀ r < h'.revisions.size, new < r → h'.IsParent new r ∧
        insertion.score - insertion.range < h'.score r ∧ h'.score r < insertion.score) ∧
      (∀ r < h'.revisions.size, ∀ q < h'.revisions.size, new < r → new < q →
        h'.score r = h'.score q → r = q) ∧
      (∀ r < new, ∀ q < new, h'.score r < h'.score q ↔ h.score r < h.score q) ∧
      (h.Distinct → h'.Distinct) := by
  intro g id parents insertion hfind hopens hroom hahead h h' new
  have hc : h.Consistent := consistent_run config calls
  have inserts : Arrival.Inserts ⟨id, parents, some insertion, g.config.onlyFirstParent⟩ insertion h :=
    ⟨rfl, hfind, hopens, hroom, hahead⟩
  have inserted : Inserted id insertion h h' := inserted_insert inserts hc
  have hrange := range_pos_of_inserts inserts
  have hc' : h'.Consistent :=
    (((focused_new config).run calls).perform (.insert id parents insertion)).consistent
  have hnew : h'.find? id = some new :=
    hc'.find?_eq_some_iff.2 ⟨inserted.size_lt, inserted.start_id⟩
  refine ⟨fun r hr => ⟨inserted.id r hr, inserted.shifted r hr⟩, ⟨hnew, inserted.start⟩,
    fun r hr hlt => ⟨inserted.linked r hr hlt, inserted.inside r hr hlt⟩, ?_,
    fun r hr q hq => inserted.score_lt_iff hrange hr hq, inserted.distinct hrange⟩
  · intro r hr q hq hnewr hnewq heq
    -- Of two parents the one that is named first is above the other one.
    rcases Nat.lt_trichotomy r q with hlt | hself | hgt
    · exact absurd heq (inserted.rises r q hnewr hlt hq).ne
    · exact hself
    · exact absurd heq.symm (inserted.rises q r hnewq hgt hr).ne

/-- A merge of two commits that have a parent in common. -/
def mergeCalls : List Call := [
  .add (.repeated 1) [.repeated 2, .repeated 3],
  .add (.repeated 2) [.repeated 4],
  .add (.repeated 3) [.repeated 4, .repeated 5]]

/-- Behind the row places are left empty for a parent that is known, for the row itself and for a parent
that is named again. -/
theorem gap_insert_mergeCalls :
    let g := Graph.run { config := .minimal } mergeCalls
    let parents : List CommitId := [.repeated 2, .repeated 7, .index, .repeated 7, .repeated 8]
    let h' := (g.insert .index parents ⟨4, 6⟩).history
    (g.history.find? .index = none ∧ Insertion.Opens ⟨4, 6⟩ g.history ∧ (parents.length : Int) < 6 ∧
      ∀ p ∈ parents, p ≠ .index → ∀ q, g.history.find? p = some q → 4 ≤ g.history.score q) ∧
      (∀ r < 5, (h'.revision r).id = (g.history.revision r).id ∧ h'.score r =
        if g.history.score r < 4 then g.history.score r - 6 else g.history.score r) ∧
      (h'.find? .index = some 5 ∧ h'.score 5 = 4 - 6) ∧
      (∀ r < h'.revisions.size, 5 < r → h'.IsParent 5 r ∧ 4 - 6 < h'.score r ∧ h'.score r < 4) ∧
      h'.Distinct := by
  intro g parents h'
  have hsize : g.history.revisions.size = 5 := by decide +kernel
  have hfind : g.history.find? .index = none := by decide +kernel
  have hopens : Insertion.Opens ⟨4, 6⟩ g.history := by decide +kernel
  have hroom : (parents.length : Int) < 6 := by decide
  have hahead : ∀ p ∈ parents, p ≠ .index → ∀ q ∈ g.history.find? p, 4 ≤ g.history.score q := by
    decide +kernel
  have hdistinct : g.history.Distinct := by decide +kernel
  obtain ⟨hold, hnew, hinside, -, -, hkeeps⟩ :=
    gap_insert .minimal mergeCalls .index parents ⟨4, 6⟩ hfind hopens hroom hahead
  rw [hsize] at hold hnew hinside
  exact ⟨⟨hfind, hopens, hroom, hahead⟩, hold, hnew, hinside, hkeeps hdistinct⟩

/-- A row that is inserted at the score of a commit is directly in front of all commits that have this
score, and so it is directly in front of the one that became known first of them. -/
theorem in_front_insert {config : Config} {calls : List Call}
    (hadmits : Graph.Admits { config } calls) :
    let g := Graph.run { config } calls
    ∀ (id front : CommitId) (parents : List CommitId) (insertion : Insertion) (r : Rev),
      g.history.find? front = some r → (g.history.revision r).completed = true →
      g.history.find? id = none → (∀ p ∈ parents, p = front ∨ g.history.find? p = none) →
      insertion.score = g.history.score r → parents.length < insertion.range →
      insertion.Opens g.history →
      let g' := g.insert id parents insertion
      (∃ row, (g'.rowOf? id).1 = some row ∧
        (g'.rowOf? front).1 = some (row + 1 + g.history.ties r)) ∧
      ((∃ row, (g'.rowOf? id).1 = some row ∧ (g'.rowOf? front).1 = some (row + 1)) ↔
        ∀ q, (g.history.revision q).completed = true → g.history.score q = g.history.score r →
          r ≤ q) := by
  intro g id front parents insertion r hfront hcompleted hfind hnames hscore hroom hopens g'
  have hs : g.Sound := (sound_new config).run hadmits
  have hahead : ∀ p ∈ parents, p ≠ id → ∀ q, g.history.find? p = some q →
      insertion.score ≤ g.history.score q := by
    intro p hp _ q hq
    rcases hnames p hp with rfl | hunknown
    · rw [Option.some.inj (hq.symm.trans hfront), hscore]
    · exact absurd (hq.symm.trans hunknown) (Option.some_ne_none q)
  obtain ⟨row, hrow, hfrontRow⟩ := rowOf?_insert ⟨rfl, hfind, hopens, hroom, hahead⟩ hs
    (consistent_run config calls) hfront hcompleted hscore
  refine ⟨⟨row, hrow, hfrontRow⟩, ?_⟩
  rw [← History.ties_eq_zero_iff hs.history.wellLinked]
  constructor
  · rintro ⟨row', hrow', hfrontRow'⟩
    obtain rfl : row = row' := Option.some.inj (hrow.symm.trans hrow')
    have hsame := Option.some.inj (hfrontRow.symm.trans hfrontRow')
    omega
  · intro hties
    rw [hties] at hfrontRow
    exact ⟨row, hrow, hfrontRow⟩

/-- Two commits that are linked as parents of a third one when both have arrived. -/
def laterMergeCalls : List Call := [
  .add (.repeated 1) [],
  .add (.repeated 2) [],
  .add (.repeated 3) [.repeated 1, .repeated 2]]

private theorem admits_laterMergeCalls : Graph.Admits { config := .minimal } laterMergeCalls := by
  have hclimbs : History.Climbs false {} laterMergeCalls := by decide +kernel
  exact admits_of_climbs (.refl _) hclimbs

/-- The row is in front of the second commit, but the first one has the same score. -/
theorem in_front_insert_laterMergeCalls :
    let g := Graph.run { config := .minimal } laterMergeCalls
    let parents : List CommitId := [.repeated 2, .repeated 7, .workTree, .repeated 7]
    let g' := g.insert .workTree parents ⟨4, 5⟩
    (Graph.Admits { config := .minimal } laterMergeCalls ∧
      g.history.find? (.repeated 2) = some 1 ∧ (g.history.revision 1).completed = true ∧
      g.history.find? .workTree = none ∧
      (∀ p ∈ parents, p = .repeated 2 ∨ g.history.find? p = none) ∧
      4 = g.history.score 1 ∧ (parents.length : Int) < 5 ∧ Insertion.Opens ⟨4, 5⟩ g.history) ∧
      (∃ row, (g'.rowOf? .workTree).1 = some row ∧
        (g'.rowOf? (.repeated 2)).1 = some (row + 1 + 1)) ∧
      ¬ ∃ row, (g'.rowOf? .workTree).1 = some row ∧ (g'.rowOf? (.repeated 2)).1 = some (row + 1) := by
  intro g parents g'
  have hfront : g.history.find? (.repeated 2) = some 1 := by decide +kernel
  have hcompleted : (g.history.revision 1).completed = true := by decide +kernel
  have hfind : g.history.find? .workTree = none := by decide +kernel
  have hnames : ∀ p ∈ parents, p = .repeated 2 ∨ g.history.find? p = none := by decide +kernel
  have hscore : 4 = g.history.score 1 := by decide +kernel
  have hroom : (parents.length : Int) < 5 := by decide
  have hopens : Insertion.Opens ⟨4, 5⟩ g.history := by decide +kernel
  have hties : g.history.ties 1 = 1 := by decide +kernel
  obtain ⟨hrows, hdirectly⟩ := in_front_insert admits_laterMergeCalls .workTree (.repeated 2) parents ⟨4, 5⟩ 1
    hfront hcompleted hfind hnames hscore hroom hopens
  rw [hties] at hrows
  refine ⟨⟨admits_laterMergeCalls, hfront, hcompleted, hfind, hnames, hscore, hroom, hopens⟩, hrows,
    fun hrow => ?_⟩
  have hfirst := hdirectly.1 hrow 0 (by decide +kernel) (by decide +kernel)
  exact absurd hfirst (by decide)

/-- It is not always directly in front of the commit, even if nothing but commits was added before. -/
theorem not_directly_in_front :
    ¬ ∀ (config : Config) (calls : List Call), Graph.Admits { config } calls →
      (∀ call ∈ calls, ∃ id parents, call = .add id parents) →
      let g := Graph.run { config } calls
      ∀ (id front : CommitId) (parents : List CommitId) (insertion : Insertion) (r : Rev),
        g.history.find? front = some r → (g.history.revision r).completed = true →
        g.history.find? id = none → (∀ p ∈ parents, p = front ∨ g.history.find? p = none) →
        insertion.score = g.history.score r → parents.length < insertion.range →
        insertion.Opens g.history →
        let g' := g.insert id parents insertion
        ∃ row, (g'.rowOf? id).1 = some row ∧ (g'.rowOf? front).1 = some (row + 1) := by
  intro hall
  have hadds : ∀ call ∈ laterMergeCalls, ∃ id parents, call = .add id parents := by
    simp [laterMergeCalls]
  let g := Graph.run { config := .minimal } laterMergeCalls
  have hs : g.Sound := (sound_new .minimal).run admits_laterMergeCalls
  have hfind : g.history.find? (.repeated 2) = some 1 := by decide +kernel
  have hcompleted : (g.history.revision 1).completed = true := by decide +kernel
  have hnew : g.history.find? (.repeated 4) = none := by decide +kernel
  have hscore : 4 = g.history.score 1 := by decide +kernel
  have hopens : Insertion.Opens ⟨4, 2⟩ g.history := by decide +kernel
  have hties : g.history.ties 1 = 1 := by decide +kernel
  obtain ⟨row, hrow, hfront⟩ := hall .minimal laterMergeCalls admits_laterMergeCalls hadds
    (.repeated 4) (.repeated 2) [.repeated 2] ⟨4, 2⟩ 1 hfind hcompleted hnew (by decide) hscore
    (by decide) hopens
  have hinserts : Arrival.Inserts ⟨.repeated 4, [.repeated 2], some ⟨4, 2⟩, false⟩ ⟨4, 2⟩ g.history :=
    ⟨rfl, hnew, hopens, by decide, by decide +kernel⟩
  obtain ⟨row', hrow', hfront'⟩ := rowOf?_insert hinserts hs
    (consistent_run .minimal laterMergeCalls) hfind hcompleted hscore
  -- The first commit is in the row between the two.
  rw [hties] at hfront'
  obtain rfl : row = row' := Option.some.inj (hrow.symm.trans hrow')
  have hsame := Option.some.inj (hfront.symm.trans hfront')
  omega

end Graph

end CommitLanes
