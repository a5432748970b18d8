import CommitLanes.Proofs.Graph.Replay

/-! # Rows of commits

What a graph answers about rows is what a sort of all completed revisions would say at that moment,
whether or not it sorts them. -/

namespace CommitLanes

namespace Graph

variable {g : Graph}

/-- The order that is used is a part of the sorted one from the top that is long enough. -/
theorem Sound.ordered_eq_take (hs : g.Sound) (row : Nat) :
    ∃ n, min g.count (row + 1) ≤ n ∧ (g.ordered row).1 = g.history.sorted.take n := by
  obtain ⟨hleads, hlength⟩ :=
    History.order_rank hs.history.wellLinked.arrived_nodup hs.ranked row
  exact ⟨_, hlength, List.prefix_iff_eq_take.1 hleads⟩

theorem Sound.atRow?_eq (hs : g.Sound) (row : Nat) :
    (g.atRow? row).1 = g.history.sorted[row]? := by
  obtain ⟨n, hn, horder⟩ := hs.ordered_eq_take row
  have hlength : g.history.sorted.length = g.count := g.history.length_sorted
  have hrow : (g.atRow? row).1 = (g.ordered row).1[row]? := rfl
  rw [hrow, horder, List.getElem?_take]
  split
  · rfl
  · next hlt =>
    -- A row that the order does not reach is below all rows.
    rw [List.getElem?_eq_none]
    omega

theorem Sound.rowOf?_eq (hs : g.Sound) (id : CommitId) :
    (g.rowOf? id).1 = (g.history.find? id).bind g.history.sorted.idxOf? := by
  obtain ⟨n, hn, horder⟩ := hs.ordered_eq_take g.count
  have hlength : g.history.sorted.length = g.count := g.history.length_sorted
  have hall : (g.rank g.count).order = g.history.sorted := by
    rw [← List.take_of_length_le (l := g.history.sorted) (i := n) (by omega)]
    exact horder
  unfold rowOf?
  cases g.history.find? id with
  | none => rfl
  | some r =>
    dsimp only
    rw [hall]
    rfl

/-- In a list without duplicates the place of a revision and the revision of a place determine each
other. -/
theorem idxOf?_eq_some_iff_getElem? {order : List Rev} (hnodup : order.Nodup) {r : Rev} {row : Nat} :
    order.idxOf? r = some row ↔ order[row]? = some r := by
  rw [List.idxOf?_eq_some_iff, List.getElem?_eq_some_iff]
  constructor
  · rintro ⟨hlt, heq, -⟩
    exact ⟨hlt, heq⟩
  · rintro ⟨hlt, heq⟩
    refine ⟨hlt, heq, fun j hj heq' => ?_⟩
    -- The search stops at no place before this one.
    have hij := (List.getElem_inj hnodup).1 (heq'.trans heq.symm)
    omega

theorem Sound.rowOf?_eq_some_iff (hs : g.Sound) {id : CommitId} {row : Nat} :
    (g.rowOf? id).1 = some row ↔
      ∃ r, (g.atRow? row).1 = some r ∧ (g.history.revision r).id = id := by
  have hw := hs.history.wellLinked
  have hnodup := History.sorted_nodup hw.arrived_nodup
  rw [hs.rowOf?_eq, Option.bind_eq_some_iff]
  constructor
  · rintro ⟨r, hfind, hidx⟩
    refine ⟨r, ?_, (hw.find?_eq_some_iff.1 hfind).2⟩
    rw [hs.atRow?_eq]
    exact (idxOf?_eq_some_iff_getElem? hnodup).1 hidx
  · rintro ⟨r, hrow, hid⟩
    rw [hs.atRow?_eq] at hrow
    have hr := hw.completed_lt (History.mem_sorted.1 (List.mem_of_getElem? hrow))
    refine ⟨r, ?_, (idxOf?_eq_some_iff_getElem? hnodup).2 hrow⟩
    rw [← hid]
    exact hw.find?_id hr

theorem Sound.rowOf?_eq_none_iff (hs : g.Sound) {id : CommitId} :
    (g.rowOf? id).1 = none ↔
      ∀ r, g.history.find? id = some r → (g.history.revision r).completed = false := by
  rw [hs.rowOf?_eq, Option.bind_eq_none_iff]
  apply forall₂_congr
  intro r _
  rw [List.idxOf?_eq_none_iff, History.mem_sorted, hs.history.wellLinked.mem_arrived,
    Bool.not_eq_true]

/-- A revision that comes before another one is in a row further up. -/
private theorem Sound.exists_rows_of_before (hs : g.Sound) {a b : Rev}
    (ha : (g.history.revision a).completed = true) (hb : (g.history.revision b).completed = true)
    (hab : g.history.Before a b) :
    ∃ i j, (g.rowOf? (g.history.revision a).id).1 = some i ∧
      (g.rowOf? (g.history.revision b).id).1 = some j ∧ i < j := by
  have hw := hs.history.wellLinked
  have hrow : ∀ r, (g.history.revision r).completed = true →
      ∃ i, g.history.sorted[i]? = some r ∧ (g.rowOf? (g.history.revision r).id).1 = some i := by
    intro r hr
    obtain ⟨i, hi⟩ := List.mem_iff_getElem?.1
      (History.mem_sorted.2 ((hw.mem_arrived r).2 hr))
    refine ⟨i, hi, hs.rowOf?_eq_some_iff.2 ⟨r, ?_, rfl⟩⟩
    rw [hs.atRow?_eq]
    exact hi
  obtain ⟨i, hi, hrowa⟩ := hrow a ha
  obtain ⟨j, hj, hrowb⟩ := hrow b hb
  refine ⟨i, j, hrowa, hrowb, ?_⟩
  -- Were the rows the other way round then so would be the revisions.
  have hpairwise := History.sorted_pairwise hw.arrived_nodup
  rcases Nat.lt_trichotomy i j with hlt | rfl | hgt
  · exact hlt
  · obtain rfl : a = b := by simpa [hi] using hj
    exact absurd hab (History.Before.irrefl a)
  · obtain ⟨hilt, rfl⟩ := List.getElem?_eq_some_iff.1 hi
    obtain ⟨hjlt, rfl⟩ := List.getElem?_eq_some_iff.1 hj
    exact (hab.asymm (List.pairwise_iff_getElem.1 hpairwise j i hjlt hilt hgt)).elim

/-- After every admitted run the order through a row is what a fresh sort puts first. Names and rows of
completed revisions determine each other, no other names have rows, and parents are below their
children. -/
theorem ordered_run {config : Config} {calls : List Call}
    (hadmits : Graph.Admits { config } calls) :
    let g := Graph.run { config } calls
    (∀ row, ∃ n, min g.count (row + 1) ≤ n ∧ (g.ordered row).1 = g.history.sorted.take n) ∧
      g.history.sorted.Pairwise g.history.Before ∧
      (∀ r, r ∈ g.history.sorted ↔ (g.history.revision r).completed = true) ∧
      (∀ id row, (g.rowOf? id).1 = some row ↔
        ∃ r, (g.atRow? row).1 = some r ∧ (g.history.revision r).id = id) ∧
      (∀ id, (g.rowOf? id).1 = none ↔
        ∀ r, g.history.find? id = some r → (g.history.revision r).completed = false) ∧
      ∀ c p, p ∈ g.history.parents c → (g.history.revision p).completed = true →
        ∃ i j, (g.rowOf? (g.history.revision c).id).1 = some i ∧
          (g.rowOf? (g.history.revision p).id).1 = some j ∧ i < j := by
  intro g
  have hs : g.Sound := (sound_new config).run hadmits
  refine ⟨hs.ordered_eq_take, History.sorted_pairwise hs.history.wellLinked.arrived_nodup,
    fun r => ?_, fun _ _ => hs.rowOf?_eq_some_iff, fun _ => hs.rowOf?_eq_none_iff,
    fun c p hp hcompleted => ?_⟩
  · rw [History.mem_sorted, hs.history.wellLinked.mem_arrived]
  · exact hs.exists_rows_of_before (hs.history.settled c p hp) hcompleted
      (.inl (hs.history.ordered c p hp))

theorem sorted_forkCalls (config : Config) (hall : config.onlyFirstParent = false) :
    (Graph.run { config } forkCalls).history.sorted = [4, 0, 1, 2, 3] := by
  rw [(still_forkCalls config hall).sorted]
  exact History.sorted_eq_of_pairwise (by decide +kernel) (by decide +kernel)

theorem ordered_run_forkCalls :
    Graph.Admits { config := .minimal } forkCalls ∧
      let g := Graph.run { config := .minimal } forkCalls
      (3 ∈ g.history.parents 1 ∧ (g.history.revision 3).completed = true) ∧
        ∃ i j, (g.rowOf? (g.history.revision 1).id).1 = some i ∧
          (g.rowOf? (g.history.revision 3).id).1 = some j ∧ i < j := by
  have hadmits := admits_forkCalls .minimal rfl
  have hparent : 3 ∈ (Graph.run { config := .minimal } forkCalls).history.parents 1 := by
    rw [(still_forkCalls .minimal rfl).toSameLinks.parents]
    decide +kernel
  have hcompleted :
      ((Graph.run { config := .minimal } forkCalls).history.revision 3).completed = true := by
    rw [(still_forkCalls .minimal rfl).toSameLinks.completed]
    decide +kernel
  obtain ⟨-, -, -, -, -, hrows⟩ := ordered_run hadmits
  exact ⟨hadmits, ⟨hparent, hcompleted⟩, hrows 1 3 hparent hcompleted⟩

end Graph

end CommitLanes
