import CommitLanes.Proofs.Graph.Publish

/-! # The lines of published rows

Every line is in exactly the rows between its ends, whatever was published before and however rows
were drawn again. How lines are arranged in lanes has no part in this. -/

namespace CommitLanes

open History (Still)

namespace Layout

variable {h : History} {rows : Layout} {k : Nat} {row : Row}

theorem mem_revisions_take {r : Rev} :
    r ∈ rows.revisions.take k ↔ ∃ i < k, rows[i]?.map (·.revision) = some r := by
  have hget (i : Nat) : rows.revisions[i]? = rows[i]?.map (·.revision) := by
    simp [revisions]
  rw [List.mem_iff_getElem?]
  constructor
  · rintro ⟨i, hi⟩
    rw [List.getElem?_take] at hi
    split at hi
    · next hlt => exact ⟨i, hlt, (hget i).symm.trans hi⟩
    · cases hi
  · rintro ⟨i, hlt, hi⟩
    refine ⟨i, ?_⟩
    rw [List.getElem?_take, if_pos hlt, hget]
    exact hi

/-- What is known of a row of a layout. -/
private theorem spansRow_of_getElem? (spans : Spans h rows.contents) (hrow : rows[k]? = some row) :
    SpansRow h (rows.revisions.take k) row.revision row.strands := by
  have hrow := spans.each.get (content_of_getElem? hrow)
  rwa [List.map_take, fst_contents] at hrow

/-- The segments of a row, in terms of the rows of the layout. -/
private theorem mem_segments_iff (spans : Spans h rows.contents) (hrow : rows[k]? = some row)
    {s : Seg} (hs : s < h.segments.size) :
    s ∈ row.segments ↔
      (∃ j ≤ k, rows[j]?.map (·.revision) = some (h.segment s).child) ∧
        ∀ i < k, rows[i]?.map (·.revision) ≠ some (h.segment s).parent := by
  have hspans := spansRow_of_getElem? spans hrow
  rw [Row.segments_eq, hspans.mem_iff, ← revisions_take_succ hrow, mem_revisions_take, mem_revisions_take]
  simp only [hs, true_and, not_exists, not_and, Nat.lt_succ_iff, ne_eq]

/-- Rows that show the same revisions hold the same segments. -/
private theorem segments_iff_of_revisions_eq {h' : History} {rows' : Layout} {row' : Row}
    (still : Still h h') (spans : Spans h rows.contents) (spans' : Spans h' rows'.contents)
    (heq : rows'.revisions = rows.revisions) (hrow : rows[k]? = some row)
    (hrow' : rows'[k]? = some row') :
    row'.revision = row.revision ∧ ∀ s, s ∈ row'.segments ↔ s ∈ row.segments := by
  have hrevision : row'.revision = row.revision := by
    have hget : rows'.revisions[k]? = rows.revisions[k]? := by rw [heq]
    simpa [revisions, hrow, hrow'] using hget
  have hspans := spansRow_of_getElem? spans hrow
  have hspans' := spansRow_of_getElem? spans' hrow'
  rw [heq, hrevision] at hspans'
  refine ⟨hrevision, fun s => ?_⟩
  rw [Row.segments_eq, Row.segments_eq, hspans'.mem_iff, hspans.mem_iff, still.segments,
    still.toSameLinks.segment]

end Layout

namespace Graph

variable {g : Graph}

/-- Asked for all rows after all commits have been added, a graph publishes all rows. -/
theorem Sound.revisions_cache (hs : g.Sound) (hcompleted : g.completed = true) {current last : Nat}
    (hall : g.count ≤ max current last + 1) :
    (g.cache current last).layout.revisions = g.history.sorted := by
  have hsize := hs.le_size_cache (.inl hcompleted) current last
  rw [Nat.min_eq_left hall, ← Layout.length_revisions] at hsize
  exact (hs.revisions_cache_isPrefix current last).eq_of_length_le
    (g.history.length_sorted.trans_le hsize)

private theorem stable_spans : Stable fun h rows => Spans h rows.contents where
  init := spans_nil
  still still spans := spans.of_still still
  arrived hs hs' harrived hnew spans := spans.of_arrived harrived hs.wellLinked hs'.wellLinked hnew

theorem spans_run {config : Config} {calls : List Call} (hadmits : Graph.Admits { config } calls)
    (honce : Once calls) :
    Spans (Graph.run { config } calls).history (Graph.run { config } calls).layout.contents := by
  refine stable_spans.run ?_ hadmits honce
  intro g current last hs _ spans
  obtain ⟨keep, stop, redrawn⟩ := redrawn_cache g current last
  have hstill := still_cache g current last
  exact redrawn.spans (hstill.sound hs.history).wellLinked (hs.topological_order_cache current last)
    (spans.of_still hstill)

/-- The calls by which all rows are built at the end. -/
def buildCalls (current last : Nat) : List Call := [.complete, .cache current last]

private theorem Sound.admits_buildCalls (hs : g.Sound) (current last : Nat) :
    g.Admits (buildCalls current last) := by
  have hac := hs.history.ordered.acyclic
  have hcached := (still_cache g.complete current last).toSameLinks.acyclic hac
  exact ⟨trivial, hac, trivial, hcached, trivial⟩

private theorem still_buildCalls (g : Graph) (current last : Nat) :
    Still g.history (g.run (buildCalls current last)).history :=
  still_cache g.complete current last

private theorem once_append_buildCalls {calls : List Call} (honce : Once calls)
    (current last : Nat) : Once (calls ++ buildCalls current last) := by
  unfold Once
  rw [List.filterMap_append]
  exact (List.append_nil (calls.filterMap Call.id?)).symm ▸ honce

/-- After a run that builds all rows at the end these are the rows of all completed revisions, and
they hold the segments that they should. -/
theorem built_run {config : Config} {calls : List Call} (hadmits : Graph.Admits { config } calls)
    (honce : Once calls) {current last : Nat}
    (hall : (Graph.run { config } calls).count ≤ max current last + 1) :
    Spans (Graph.run { config } (calls ++ buildCalls current last)).history
        (Graph.run { config } (calls ++ buildCalls current last)).layout.contents ∧
      (Graph.run { config } (calls ++ buildCalls current last)).layout.revisions =
        (Graph.run { config } calls).history.sorted := by
  have hs : (Graph.run { config } calls).Sound := (sound_new config).run hadmits
  have hfull : Graph.Admits { config } (calls ++ buildCalls current last) :=
    admits_append.2 ⟨hadmits, hs.admits_buildCalls current last⟩
  refine ⟨spans_run hfull (once_append_buildCalls honce current last), ?_⟩
  have hcomplete : (Graph.run { config } calls).complete.Sound :=
    ⟨hs.history, hs.bounded, hs.ranked⟩
  rw [run_append]
  exact hcomplete.revisions_cache rfl hall

/-- Every segment is in the rows from that of its child to that of its parent, once in each and the
same in all of them. What the configuration says about lanes does not matter for that: another
graph that went through the same calls has the same revisions and segments in all rows once all of
them are built. -/
theorem span_run {config : Config} {calls : List Call} (hadmits : Graph.Admits { config } calls)
    (honce : Once calls) :
    let g := Graph.run { config } calls
    (∀ (k : Nat) (row : Row), g.layout[k]? = some row →
      (∀ s < g.history.segments.size, s ∈ row.segments ↔
        (∃ j ≤ k, g.layout[j]?.map (·.revision) = some (g.history.segment s).child) ∧
          ∀ i < k, g.layout[i]?.map (·.revision) ≠ some (g.history.segment s).parent) ∧
      row.segments.Nodup ∧
      ∀ strand ∈ row.drawn, strand.segment < g.history.segments.size ∧
        strand.child = (g.history.segment strand.segment).child ∧
        strand.parent = (g.history.segment strand.segment).parent) ∧
    (∀ (i j : Nat) (above below : Row), g.layout[i]? = some above → g.layout[j]? = some below →
      ∀ a ∈ above.drawn, ∀ b ∈ below.drawn, a.segment = b.segment → a.toStrand = b.toStrand) ∧
    ∀ other : Config, other.onlyFirstParent = config.onlyFirstParent →
      ∀ current last, g.count ≤ max current last + 1 →
        let full := g.run [.complete, .cache current last]
        let full' := (Graph.run { config := other } calls).run [.complete, .cache current last]
        full.layout.size = g.count ∧ full'.layout.size = g.count ∧
          (∀ r, (full'.history.revision r).id = (full.history.revision r).id) ∧
          (∀ s, full'.history.segment s = full.history.segment s) ∧
          ∀ (k : Nat) (row row' : Row), full.layout[k]? = some row → full'.layout[k]? = some row' →
            row'.revision = row.revision ∧ ∀ s, s ∈ row'.segments ↔ s ∈ row.segments := by
  intro g
  have spans := spans_run hadmits honce
  refine ⟨fun k row hrow => ⟨fun s hs => Layout.mem_segments_iff spans hrow hs, ?_, ?_⟩, ?_, ?_⟩
  · rw [Row.segments_eq]
    exact (Layout.spansRow_of_getElem? spans hrow).nodup
  · intro strand hmem
    have hspans := Layout.spansRow_of_getElem? spans hrow
    have hstrand : strand.toStrand ∈ row.strands := List.mem_map_of_mem hmem
    exact ⟨((hspans.mem_iff _).1 (List.mem_map_of_mem hstrand)).1, hspans.shows _ hstrand⟩
  · -- The same segment in two rows.
    intro i j above below habove hbelow a ha b hb heq
    have hmem (k : Nat) (row : Row) (hrow : g.layout[k]? = some row) :
        row.content ∈ g.layout.contents :=
      List.mem_of_getElem? (i := k) (by simp [Layout.contents, hrow])
    exact spans.same _ (hmem i above habove) _ (hmem j below hbelow) a.toStrand
      (List.mem_map_of_mem ha) b.toStrand (List.mem_map_of_mem hb) heq
  · -- Another graph with the same calls.
    intro other hother current last hall full full'
    have hinit : Still (Graph.history { config }) (Graph.history { config := other }) := .refl _
    have hstill : Still g.history (Graph.run { config := other } calls).history :=
      still_run_of_still hinit hother calls
    have hcount : (Graph.run { config := other } calls).count = g.count :=
      congrArg List.length hstill.arrived
    obtain ⟨hfull, hrows⟩ := built_run hadmits honce hall
    obtain ⟨hfull', hrows'⟩ := built_run (hadmits.of_still hinit hother) honce (hcount ▸ hall)
    rw [run_append] at hfull hrows hfull' hrows'
    have hsize (rows : Layout) (hrevisions : rows.revisions = g.history.sorted) :
        rows.size = g.count := by
      rw [← Layout.length_revisions, hrevisions]
      exact g.history.length_sorted
    rw [hstill.sorted] at hrows'
    have hbuilt : Still full.history full'.history :=
      (still_buildCalls g current last).symm.trans
        (hstill.trans (still_buildCalls _ current last))
    refine ⟨hsize _ hrows, hsize _ hrows', hbuilt.toSameLinks.id, hbuilt.toSameLinks.segment,
      fun k row row' hrow hrow' => ?_⟩
    have hrevisions := hrows'.trans hrows.symm
    exact Layout.segments_iff_of_revisions_eq hbuilt hfull hfull' hrevisions hrow hrow'

theorem span_run_forkCalls :
    Graph.Admits { config := .comprehensive } forkCalls ∧ Once forkCalls ∧
      ∃ full : Graph, full = (Graph.run { config := .comprehensive } forkCalls).run
          [.complete, .cache 0 4] ∧
        full.layout.size = 5 ∧
        ∀ (k : Nat) (row row' : Row), full.layout[k]? = some row →
          ((Graph.run { config := .minimal } forkCalls).run
            [.complete, .cache 0 4]).layout[k]? = some row' →
          row'.revision = row.revision ∧ ∀ s, s ∈ row'.segments ↔ s ∈ row.segments := by
  have hadmits := admits_forkCalls .comprehensive rfl
  have hcount := count_forkCalls .comprehensive rfl
  obtain ⟨-, -, hbuilt⟩ := span_run hadmits once_forkCalls
  obtain ⟨hsize, -, -, -, hrows⟩ := hbuilt .minimal rfl 0 4 hcount.le
  exact ⟨hadmits, once_forkCalls, _, rfl, hsize.trans hcount, hrows⟩

end Graph

end CommitLanes
