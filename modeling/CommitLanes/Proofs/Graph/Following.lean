import CommitLanes.Proofs.Graph.Intact

/-! # Lines that are followed

A line that is followed from a row to the one below it is found there. A segment that does not end
goes on as it is, and one that ends goes on as the leftmost segment that starts, which cannot end in the
same row. Only where a segment ends and none starts does the line end with it. -/

namespace CommitLanes

namespace Row

variable {row : Row} {strand : Drawn}

private theorem follow_of_mem (hnodup : row.segments.Nodup) (hmem : strand ∈ row.drawn) :
    row.follow strand.segment =
      if strand.parent = row.revision then row.start?.getD strand.segment else strand.segment := by
  rw [follow, find?_of_mem hnodup hmem]

theorem start?_eq_none_iff :
    row.start? = none ↔ ∀ strand ∈ row.drawn, strand.child ≠ row.revision := by
  simp [start?]

private theorem start?_eq_some {s : Seg} (hstart : row.start? = some s) :
    ∃ strand ∈ row.drawn, strand.child = row.revision ∧ strand.segment = s := by
  obtain ⟨strand, hfind, rfl⟩ := Option.map_eq_some_iff.1 hstart
  have hchild := List.find?_some hfind
  rw [decide_eq_true_eq] at hchild
  exact ⟨strand, List.mem_of_find?_eq_some hfind, hchild, rfl⟩

/-- The first strand that starts in a row is the one that counts. -/
private theorem start?_of_split {left right : List Drawn} {first : Drawn}
    (hrow : row.drawn = left ++ first :: right)
    (hleft : ∀ other ∈ left, other.child ≠ row.revision) (hfirst : first.child = row.revision) :
    row.start? = some first.segment := by
  have hnone : left.find? (·.child = row.revision) = none := by
    rw [List.find?_eq_none]
    exact fun other hother => by simpa using hleft other hother
  simp [start?, hrow, List.find?_append, hnone, hfirst]

end Row

namespace Layout

variable {h : History} {rows : Layout} {k : Nat} {row below : Row} {strand : Drawn}

section Threads

variable (threads : Threads h rows.contents) (hrow : rows[k]? = some row)
  (hbelow : rows[k + 1]? = some below) (hmem : strand ∈ row.drawn)
include threads hrow hbelow hmem

private theorem mem_segments_below_of_threads :
    strand.segment ∈ below.segments ↔ strand.parent ≠ row.revision := by
  constructor
  · intro hnext hends
    obtain ⟨next, hnext, hsegment⟩ := List.mem_map.1 hnext
    have here := threadsRow_of_getElem? threads hrow
    have there := threadsRow_of_getElem? threads hbelow
    -- A segment ends at one revision, and no row shows a segment that ends further up.
    have hparent : next.parent = strand.parent := by
      rw [(there.runs _ (List.mem_map_of_mem hnext)).shows.2,
        (here.runs _ (List.mem_map_of_mem hmem)).shows.2]
      exact congrArg (fun s => (h.segment s).parent) hsegment
    have hnotMem := there.parent_notMem _ (List.mem_map_of_mem hnext)
    rw [revisions_take_succ hrow] at hnotMem
    exact hnotMem (List.mem_append_right _ (List.mem_singleton.2 (hparent.trans hends)))
  · intro hgoes
    obtain ⟨next, hnext, heq⟩ := exists_below_of_threads threads hrow hbelow hmem hgoes
    exact List.mem_map.2 ⟨next, hnext, congrArg (·.segment) heq⟩

/-- The line of a segment goes on in the row below unless it ends and no segment starts. -/
private theorem follow_mem_below_of_threads : row.follow strand.segment ∈ below.segments ↔
    ¬ (strand.parent = row.revision ∧ row.start? = none) := by
  have here := threadsRow_of_getElem? threads hrow
  have hnodup : row.segments.Nodup := row.segments_eq ▸ here.nodup
  rw [Row.follow_of_mem hnodup hmem]
  split
  · next hends =>
    cases hstart : row.start? with
    | none => simp [mem_segments_below_of_threads threads hrow hbelow hmem, hends]
    | some s =>
      obtain ⟨first, hfirst, hchild, rfl⟩ := Row.start?_eq_some hstart
      -- What starts at the revision does not end there.
      have hne : first.parent ≠ row.revision :=
        hchild ▸ (here.runs _ (List.mem_map_of_mem hfirst)).parent_ne
      simp [mem_segments_below_of_threads threads hrow hbelow hfirst, hne]
  · next hgoes => simp [mem_segments_below_of_threads threads hrow hbelow hmem, hgoes]

end Threads

end Layout

namespace Graph

/-- In all rows that are ever published the line of a segment goes on in the row below. Only if the
segment ends and none starts in its row is the line not found there. A segment that does not end goes on
as it is, and one that ends goes on as the leftmost segment that starts. -/
theorem follow_run {config : Config} {calls : List Call} (hadmits : Graph.Admits { config } calls) :
    let g := Graph.run { config } calls
    ∀ (k : Nat) (row below : Row), g.row? k = some row → g.row? (k + 1) = some below →
      ∀ strand ∈ row.drawn,
        (row.follow strand.segment ∈ below.segments ↔
          ¬ (strand.parent = row.revision ∧ ∀ other ∈ row.drawn, other.child ≠ row.revision)) ∧
        (strand.parent ≠ row.revision → row.follow strand.segment = strand.segment) ∧
        (strand.parent = row.revision → ∀ left first right, row.drawn = left ++ first :: right →
          (∀ other ∈ left, other.child ≠ row.revision) → first.child = row.revision →
            row.follow strand.segment = first.segment) := by
  intro g k row below hrow hbelow strand hmem
  have threads : Threads g.history g.layout.contents := (intact_run hadmits).threads
  have hnodup : row.segments.Nodup :=
    row.segments_eq ▸ (Layout.threadsRow_of_getElem? threads hrow).nodup
  have hfollow := Row.follow_of_mem hnodup hmem
  refine ⟨?_, fun hgoes => ?_, fun hends left first right hsplit hleft hfirst => ?_⟩
  · rw [← Row.start?_eq_none_iff]
    exact Layout.follow_mem_below_of_threads threads hrow hbelow hmem
  · rw [hfollow, if_neg hgoes]
  · rw [hfollow, if_pos hends, Row.start?_of_split hsplit hleft hfirst, Option.getD_some]

/-- Three commits of which two are parents, and one apart from them. When the rows are there, the last
one of the three gets a parent, too. -/
def extendedCalls : List Call := [
  .add (.repeated 1) [.repeated 2, .repeated 3],
  .add (.repeated 2) [.repeated 3],
  .add (.repeated 3) [],
  .add (.repeated 4) [],
  .cache 0 3,
  .add (.repeated 3) [.repeated 5]]

/-- The graph whose third row lacks a segment that starts there. -/
def extended : Graph := Graph.run { config := .minimal } extendedCalls

private theorem run_extendedCalls : extended =
    (((Graph.run { config := .minimal } (extendedCalls.take 4)).remember [0, 1, 2, 3]).cache 0 3).run
      (extendedCalls.drop 5) :=
  run_cache_remember (extendedCalls.take 4) (extendedCalls.drop 5) [0, 1, 2, 3] 0 3
    (by decide +kernel)

private theorem rows_extended :
    extended.row? 1 = some {
      revision := 1
      drawn := [⟨⟨0, 0, 1, ⟨3, 0⟩⟩, 0, .primary⟩, ⟨⟨2, 1, 2, ⟨3, 0⟩⟩, 0, .differentEnd⟩,
        ⟨⟨1, 0, 2, ⟨2, 0⟩⟩, 1, .primary⟩]
      revisionLane := 0 } ∧
    extended.row? 2 = some {
      revision := 2
      drawn := [⟨⟨2, 1, 2, ⟨3, 0⟩⟩, 0, .primary⟩, ⟨⟨1, 0, 2, ⟨2, 0⟩⟩, 0, .differentStart⟩]
      revisionLane := 0 } ∧
    extended.row? 3 = some { revision := 3, drawn := [], revisionLane := 0 } := by
  rw [run_extendedCalls]
  refine ⟨?_, ?_, ?_⟩
  · decide +kernel
  · decide +kernel
  · decide +kernel

/-- One line goes on with the segment that starts in the second row, and the other one passes by. The
third row has no segment to go on with, though by now the history has one. -/
theorem follow_run_extendedCalls :
    Graph.Admits { config := .minimal } extendedCalls ∧
      ∃ second third last, extended.row? 1 = some second ∧ extended.row? 2 = some third ∧
        extended.row? 3 = some last ∧
        second.follow 0 = 2 ∧ second.follow 0 ∈ third.segments ∧ second.follow 1 = 1 ∧
        third.follow 2 ∉ last.segments ∧ (extended.history.revision third.revision).starts = [3] := by
  have hclimbs : History.Climbs false {} extendedCalls := by decide +kernel
  have hadmits : Graph.Admits { config := .minimal } extendedCalls :=
    admits_of_climbs (.refl _) hclimbs
  obtain ⟨hsecond, hthird, hlast⟩ := rows_extended
  have hstarts : (extended.history.revision 2).starts = [3] := by
    rw [run_extendedCalls]
    decide +kernel
  have hfollow := follow_run hadmits 1 _ _ hsecond hthird
  obtain ⟨hgoes, -, hends⟩ := hfollow _ List.mem_cons_self
  obtain ⟨-, hpasses, -⟩ := hfollow _ (.tail _ (.tail _ (.head _)))
  obtain ⟨hstops, -, -⟩ := follow_run hadmits 2 _ _ hthird hlast _ List.mem_cons_self
  exact ⟨hadmits, _, _, _, hsecond, hthird, hlast, hends rfl [_] _ [_] rfl (by decide) rfl,
    hgoes.2 (by decide), hpasses (by decide), fun hgoes => hstops.1 hgoes (by decide), hstarts⟩

end Graph

end CommitLanes
