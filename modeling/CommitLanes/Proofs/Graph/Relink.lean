import CommitLanes.Proofs.Graph.Intact
import CommitLanes.Proofs.Layout.Margin

/-! # Lines of commits that are added again

A row that is drawn holds all segments that start at its revision. A row that is kept stays as it is,
and whether it is kept depends on its revision alone. So when a commit is added again and linked to
more parents, but stays in its row, the row lacks the new segments until it is drawn again. -/

namespace CommitLanes

namespace Layout

variable {h : History} {config : Config} {order : List Rev} {rows rows' : Layout} {k : Nat}
  {s : Seg}

/-- No row holds a segment that the history does not have. -/
def Known (h : History) (rows : Layout) : Prop :=
  ∀ x ∈ rows.contents, ∀ strand ∈ x.2, strand.segment < h.segments.size

/-- Row `k` lacks segment `s`, which starts at its revision. -/
def Lacks (h : History) (rows : Layout) (k : Nat) (s : Seg) : Prop :=
  ∃ x, rows.contents[k]? = some x ∧ s ∈ (h.revision x.1).starts ∧ s ∉ x.2.map (·.segment)

/-! ## Rows that are drawn -/

theorem starts_drawRow (rows : Layout) {r : Rev} {s : Seg} (hs : s ∈ (h.revision r).starts) :
    s ∈ (strandsBelow h config.palette rows.back? r
      (startsAt h config order rows.size r)).map (·.segment) := by
  obtain ⟨fresh, hfresh, hperm⟩ := strandsBelow_perm h config.palette rows.back? r
    (startsAt h config order rows.size r)
  rw [(hperm.map _).mem_iff, List.map_append, hfresh.segments]
  exact List.mem_append_right _ ((startsAt_perm _ _ _ _ _).mem_iff.2 hs)

/-- No segment is lacking in a row that is drawn. -/
theorem lacks_drawRow {r : Rev} (lacks : Lacks h (rows.drawRow h config order r) k s) :
    Lacks h rows k s := by
  obtain ⟨x, hx, hstarts, hnot⟩ := lacks
  rw [contents_drawRow] at hx
  rcases Nat.lt_or_ge k rows.contents.length with hlt | hge
  · rw [List.getElem?_append_left hlt] at hx
    exact ⟨x, hx, hstarts, hnot⟩
  · rw [List.getElem?_append_right hge] at hx
    obtain rfl := List.mem_singleton.1 (List.mem_of_getElem? hx)
    exact absurd (starts_drawRow rows hstarts) hnot

theorem lacks_drawAll {rs : List Rev} (lacks : Lacks h (drawAll h config order rs rows) k s) :
    Lacks h rows k s := by
  induction rs generalizing rows with
  | nil => exact lacks
  | cons r rest ih => exact lacks_drawRow (ih lacks)

/-! ## Layouts that are extended -/

private theorem Lacks.lt_size (lacks : Lacks h rows k s) : k < rows.size := by
  obtain ⟨x, hx, -⟩ := lacks
  exact length_contents rows ▸ (List.getElem?_eq_some_iff.1 hx).1

section Extension

variable {last : Nat} {completed : Bool}
  (extension : Extension h config order last completed rows rows')
include extension

/-- Rows that are kept hold what they held. -/
private theorem Extension.getElem?_contents (hk : k < (rows.keep config order).size) :
    rows'.contents[k]? = rows.contents[k]? := by
  rw [← getElem?_contents_keep hk]
  cases extension with
  | kept => rfl
  | drawn final =>
    rw [contents_straighten, Layout.getElem?_contents, Layout.getElem?_contents]
    exact congrArg _ (sameAbove_drawTo h config order _ _ k hk)

/-- A segment that is lacking was lacking before, in a row that is kept. -/
private theorem Extension.lacks (lacks : Lacks h rows' k s) :
    k < (rows.keep config order).size ∧ Lacks h rows k s := by
  have hkept : Lacks h (rows.keep config order) k s := by
    cases extension with
    | kept => exact lacks
    | drawn final =>
      unfold Lacks at lacks
      rw [contents_straighten] at lacks
      exact lacks_drawAll lacks
  obtain ⟨x, hx, hlacks⟩ := hkept
  have hk := Lacks.lt_size ⟨x, hx, hlacks⟩
  exact ⟨hk, x, (getElem?_contents_keep hk).symm.trans hx, hlacks⟩

end Extension

end Layout

namespace Graph

open Layout (Known Lacks)

variable {g : Graph} {k : Nat} {s : Seg}

/-- Row `k` is kept by all calls that publish, and nothing is forgotten. -/
def KeepsRow (k : Nat) : Graph → List Call → Prop
  | _, [] => True
  | g, call :: rest =>
    call ≠ .clear ∧
      (call.Publishes g.history → k < (g.layout.keep g.config (g.perform call).order).size) ∧
      (g.perform call).KeepsRow k rest

private theorem keepsRow_append {calls more : List Call} :
    g.KeepsRow k (calls ++ more) ↔ g.KeepsRow k calls ∧ (g.run calls).KeepsRow k more := by
  induction calls generalizing g with
  | nil => simp [KeepsRow]
  | cons call rest ih => simp [KeepsRow, ih, and_assoc]

private theorem KeepsRow.getElem?_contents {calls : List Call} (keeps : g.KeepsRow k calls) :
    (g.run calls).layout.contents[k]? = g.layout.contents[k]? := by
  induction calls generalizing g with
  | nil => rfl
  | cons call rest ih =>
    obtain ⟨hclear, hkept, hrest⟩ := keeps
    refine (ih hrest).trans ?_
    cases publication_perform g call with
    | extended hpublishes extension => exact extension.getElem?_contents (hkept hpublishes)
    | cleared => exact absurd rfl hclear
    | kept _ _ heq => rw [heq]

section Step

variable {call : Call} (hs : g.Sound) (hadmissible : call.Admissible g.history)
  (hac : (g.perform call).history.Acyclic)
include hs hadmissible hac

/-- What is forgotten aside, segments come after those there are. -/
theorem segments_perform (hclear : call ≠ .clear) :
    g.history.segments.size ≤ (g.perform call).history.segments.size ∧
      ∀ r, ∀ s < g.history.segments.size, s ∈ ((g.perform call).history.revision r).starts →
        s ∈ (g.history.revision r).starts := by
  cases outcome_perform g call with
  | @arrived _ a ha still =>
    have harrived := arrived_perform hs hadmissible hac ha
    have hw := (hs.perform hadmissible hac).history.wellLinked
    refine ⟨harrived.segments_le, fun r s hlt hmem => ?_⟩
    have hchild := (hw.segment_of_mem_starts hmem).1
    rw [harrived.segment s hlt] at hchild
    exact hchild ▸ hs.history.wellLinked.started s hlt
  | cleared => exact absurd rfl hclear
  | still hnone _ still =>
    refine ⟨still.segments ▸ le_rfl, fun r s _ hmem => ?_⟩
    rwa [still.toSameLinks.starts] at hmem

/-- A segment that a row lacks after a call was lacking before, or it is new. -/
theorem lacks_perform (lacks : Lacks (g.perform call).history (g.perform call).layout k s) :
    k < g.layout.size ∧ g.KeepsRow k [call] ∧
      (g.history.segments.size ≤ s ∨ Lacks g.history g.layout k s) := by
  have hbefore : call ≠ .clear ∧
      (call.Publishes g.history → k < (g.layout.keep g.config (g.perform call).order).size) ∧
      Lacks (g.perform call).history g.layout k s := by
    cases publication_perform g call with
    | extended hpublishes extension =>
      obtain ⟨hkept, hlacks⟩ := extension.lacks lacks
      refine ⟨?_, fun _ => hkept, hlacks⟩
      rintro rfl
      exact hpublishes
    | cleared heq =>
      rw [heq] at lacks
      exact absurd lacks.lt_size (Nat.not_lt_zero k)
    | kept hnot hclear heq => exact ⟨hclear, fun hpublishes => absurd hpublishes hnot, heq ▸ lacks⟩
  obtain ⟨hclear, hkept, hlacks⟩ := hbefore
  refine ⟨hlacks.lt_size, ⟨hclear, hkept, trivial⟩, ?_⟩
  obtain ⟨x, hx, hstarts, hnot⟩ := hlacks
  rcases Nat.lt_or_ge s g.history.segments.size with hold | hnew
  · exact .inr ⟨x, hx, (segments_perform hs hadmissible hac hclear).2 x.1 s hold hstarts, hnot⟩
  · exact .inl hnew

end Step

variable {config : Config} {calls : List Call}

theorem known_run (hadmits : Graph.Admits { config } calls) :
    Known (Graph.run { config } calls).history (Graph.run { config } calls).layout := by
  intro x hx strand hstrand
  obtain ⟨k, hk⟩ := List.mem_iff_getElem?.1 hx
  exact (((intact_run hadmits).threads.row.get hk).runs strand hstrand).lt_size

/-- A segment is lacking because the row was there before the segment and has been kept since. -/
private theorem exists_keepsRow_of_lacks (hadmits : Graph.Admits { config } calls)
    (lacks : Lacks (Graph.run { config } calls).history (Graph.run { config } calls).layout k s) :
    ∃ pre post, calls = pre ++ post ∧ k < (Graph.run { config } pre).layout.size ∧
      (Graph.run { config } pre).KeepsRow k post ∧
        (Graph.run { config } pre).history.segments.size ≤ s := by
  refine (sound_new config).run_induction (P := fun calls g => Lacks g.history g.layout k s →
    ∃ pre post, calls = pre ++ post ∧ k < (Graph.run { config } pre).layout.size ∧
      (Graph.run { config } pre).KeepsRow k post ∧
        (Graph.run { config } pre).history.segments.size ≤ s) ?_ ?_ hadmits lacks
  · exact fun lacks => absurd lacks.lt_size (Nat.not_lt_zero k)
  · intro calls call hs ih hadmissible hac lacks
    obtain ⟨hlt, hkeeps, hnew | hlacks⟩ := lacks_perform hs hadmissible hac lacks
    · -- The call adds the segment.
      exact ⟨calls, [call], rfl, hlt, hkeeps, hnew⟩
    · obtain ⟨pre, post, rfl, hthere, hkept, hsize⟩ := ih hlacks
      rw [run_append] at hkeeps
      exact ⟨pre, post ++ [call], List.append_assoc _ _ _, hthere,
        keepsRow_append.2 ⟨hkept, hkeeps⟩, hsize⟩

/-- A published row holds a segment that starts at its revision exactly if the segment was there at
every moment from which on the row was published and has been kept until now. -/
theorem mem_segments_run_iff (hadmits : Graph.Admits { config } calls) {row : Row}
    (hrow : (Graph.run { config } calls).row? k = some row)
    (hstarts : s ∈ ((Graph.run { config } calls).history.revision row.revision).starts) :
    s ∈ row.segments ↔ ∀ pre post, calls = pre ++ post →
      k < (Graph.run { config } pre).layout.size → (Graph.run { config } pre).KeepsRow k post →
        s < (Graph.run { config } pre).history.segments.size := by
  have hcontent : (Graph.run { config } calls).layout.contents[k]? = some row.content := by
    rw [Layout.getElem?_contents]
    exact congrArg (Option.map Row.content) hrow
  rw [Row.segments_eq]
  constructor
  · -- The row holds what it held then, which are segments that there were.
    rintro hmem pre post rfl - hkeeps
    rw [run_append, hkeeps.getElem?_contents] at hcontent
    obtain ⟨strand, hstrand, rfl⟩ := List.mem_map.1 hmem
    exact known_run (admits_append.1 hadmits).1 _ (List.mem_of_getElem? hcontent) strand hstrand
  · intro hall
    by_contra hnot
    obtain ⟨pre, post, heq, hthere, hkeeps, hsize⟩ :=
      exists_keepsRow_of_lacks hadmits ⟨_, hcontent, hstarts, hnot⟩
    exact absurd (hall pre post heq hthere hkeeps) (Nat.not_lt.2 hsize)

/-- A commit is published and then added again with a parent. -/
def relinkCalls : List Call :=
  [.add (.repeated 1) [], .cache 0 0, .add (.repeated 1) [.repeated 2]]

/-- The graph that is asked for rows after that. -/
def relinked : Graph := Graph.run { config := .minimal } (relinkCalls ++ [.cache 0 0])

private theorem admits_relinkCalls :
    Graph.Admits { config := .minimal } (relinkCalls ++ [.cache 0 0]) := by
  have hclimbs : History.Climbs false {} (relinkCalls ++ [.cache 0 0]) := by decide +kernel
  exact admits_of_climbs (.refl _) hclimbs

private theorem row_relinked :
    relinked.row? 0 = some { revision := 0, drawn := [], revisionLane := 0 } := by
  decide +kernel

private theorem start_relinked : 0 ∈ (relinked.history.revision 0).starts := by
  have hstarts : (relinked.history.revision 0).starts = [0] := by decide +kernel
  rw [hstarts]
  exact List.mem_singleton_self 0

theorem mem_segments_run_iff_relinkCalls :
    Graph.Admits { config := .minimal } (relinkCalls ++ [.cache 0 0]) ∧
      ∃ row, relinked.row? 0 = some row ∧ 0 ∈ (relinked.history.revision row.revision).starts ∧
        0 ∉ row.segments := by
  refine ⟨admits_relinkCalls, _, row_relinked, start_relinked, ?_⟩
  rw [mem_segments_run_iff admits_relinkCalls row_relinked start_relinked]
  intro hall
  -- The row was there after the first two calls, and all that follow keep it.
  have hthere : 0 < (Graph.run { config := .minimal } (relinkCalls.take 2)).layout.size :=
    by decide +kernel
  have hkeeps : (Graph.run { config := .minimal } (relinkCalls.take 2)).KeepsRow 0
      [.add (.repeated 1) [.repeated 2], .cache 0 0] :=
    ⟨by decide, False.elim, by decide, fun _ => by decide +kernel, trivial⟩
  have hnone : (Graph.run { config := .minimal } (relinkCalls.take 2)).history.segments.size = 0 := by
    decide +kernel
  have hknown := hall (relinkCalls.take 2) _ rfl hthere hkeeps
  rw [hnone] at hknown
  exact absurd hknown (Nat.not_lt_zero 0)

/-- A row that is published may lack a segment that starts at its revision. -/
theorem not_starts_subset_segments :
    ¬ ∀ (config : Config) (calls : List Call) (current last : Nat),
      Graph.Admits { config } (calls ++ [.cache current last]) →
      let g := Graph.run { config } (calls ++ [.cache current last])
      ∀ k row, g.row? k = some row → ∀ s ∈ (g.history.revision row.revision).starts,
        s ∈ row.segments := by
  intro hall
  have hmem := hall .minimal relinkCalls 0 0 admits_relinkCalls 0 _ row_relinked 0 start_relinked
  exact absurd hmem List.not_mem_nil

end Graph

end CommitLanes
