import CommitLanes.Proofs.Graph.Replay
import CommitLanes.Proofs.Graph.RowOrder
import CommitLanes.Proofs.Reach
import CommitLanes.StartOrder

/-! # Ancestors in the window

Whether one parent is an ancestor of another one is only searched for in the rows between the two. In
rows by the row order this is enough: all that is on a line from a commit to an ancestor is ordered
between them, and it has arrived, for it has parents. In whatever order rows are, and whatever cycles
there are in the history, the search ends as soon as all rows of the window are looked at. -/

namespace CommitLanes

namespace Window

variable {w : Window}

private theorem mem_below_of_offset? {r : Rev} {i : Nat} (hoffset : w.offset? r = some i) :
    r ∈ w.below := by
  obtain ⟨k, hk, -⟩ := Option.map_eq_some_iff.1 hoffset
  obtain ⟨hlt, rfl, -⟩ := List.idxOf?_eq_some_iff.1 hk
  exact List.getElem_mem hlt

private theorem mem_parentsBefore {stop : Nat} {c p : Rev} :
    p ∈ w.parentsBefore stop c ↔ w.history.IsParent c p ∧ ∃ i < stop, w.offset? p = some i := by
  unfold parentsBefore
  rw [List.mem_filter, Option.any_eq_true]
  simp [History.IsParent, and_comm]

/-! ## The search -/

private theorem mem_below_of_mem_parentsBefore {stop : Nat} {c p : Rev}
    (hp : p ∈ w.parentsBefore stop c) : p ∈ w.below := by
  obtain ⟨-, i, -, hoffset⟩ := mem_parentsBefore.1 hp
  exact mem_below_of_offset? hoffset

/-- The search is deep enough for every window. -/
theorem isAncestor_eq_true_iff (w : Window) (stop : Nat) (a c : Rev) :
    w.isAncestor stop a c = true ↔
      ∃ node, LeadsTo (w.parentsBefore stop) c node ∧ w.history.IsParent node a := by
  have hclosed : ∀ node ∈ insert c w.below.toFinset, ∀ p ∈ w.parentsBefore stop node,
      p ∈ insert c w.below.toFinset := fun _ _ _ hp =>
    Finset.mem_insert_of_mem (List.mem_toFinset.2 (mem_below_of_mem_parentsBefore hp))
  have hcard : (insert c w.below.toFinset).card < w.below.length + 2 :=
    Nat.lt_succ_of_le ((Finset.card_insert_le _ _).trans
      (Nat.succ_le_succ (List.toFinset_card_le w.below)))
  simp only [isAncestor, List.any_eq_true, decide_eq_true_eq, History.IsParent,
    mem_reach_nil_iff hclosed (Finset.mem_insert_self _ _) hcard]

/-- The search also ends if it looks at one revision after the other, which are no more than there are
rows in the window and the one it starts from. -/
private theorem exists_ends_isAncestor (w : Window) (stop : Nat) (a c : Rev) :
    ∃ count ≤ w.below.length + 1, Worklist.Ends (w.parentsBefore stop) (w.history.IsParent · a)
      ⟨[], [c]⟩ count (w.isAncestor stop a c) := by
  have hall : ∀ node, ∀ p ∈ w.parentsBefore stop node, p ∈ w.below.toFinset := fun _ _ hp =>
    List.mem_toFinset.2 (mem_below_of_mem_parentsBefore hp)
  let start : Worklist := ⟨[], [c]⟩
  have hbound : start.pending.length + unseen w.below.toFinset start.seen ≤ w.below.length + 1 := by
    have hunseen := (unseen_le w.below.toFinset []).trans (List.toFinset_card_le w.below)
    dsimp only [start, List.length_singleton]
    omega
  obtain ⟨count, hcount, found, ends⟩ := Worklist.exists_ends hall (w.history.IsParent · a) hbound
  have hfound : found = w.isAncestor stop a c := by
    rw [Bool.eq_iff_iff, ends.found_iff (Worklist.searches_start _ _ _), isAncestor_eq_true_iff]
  exact ⟨count, hcount, hfound ▸ ends⟩

end Window

/-! ## Rows by the row order -/

/-- Where rows show different revisions an offset is a place in the order. -/
theorem Window.offset?_ofRow_eq_some_iff {h : History} {order : List Rev} (hnodup : order.Nodup)
    {row lookAhead i : Nat} {r : Rev} : (Window.ofRow h order row lookAhead).offset? r = some i ↔
      0 < i ∧ i < lookAhead ∧ order[row + i]? = some r := by
  have hbelow : ((order.drop (row + 1)).take (lookAhead - 1)).Nodup :=
    hnodup.sublist ((List.take_sublist _ _).trans (List.drop_sublist _ _))
  unfold Window.offset? Window.ofRow
  simp only [Option.map_eq_some_iff, Graph.idxOf?_eq_some_iff_getElem? hbelow, List.getElem?_take,
    List.getElem?_drop, Option.ite_none_right_eq_some]
  constructor
  · rintro ⟨k, ⟨hlt, hget⟩, rfl⟩
    refine ⟨k.succ_pos, by omega, ?_⟩
    rwa [← Nat.add_assoc, Nat.add_right_comm]
  · rintro ⟨hpos, hlt, hget⟩
    refine ⟨i - 1, ⟨by omega, ?_⟩, by omega⟩
    rwa [show row + 1 + (i - 1) = row + i by omega]

/-- What is between a revision and an ancestor is ordered between them. -/
private theorem History.Sound.exists_place_between {h : History} (hs : h.Sound) {order : List Rev}
    (hpart : order <+: h.sorted) {i j : Nat} {a b c : Rev} (hc : order[j]? = some c)
    (ha : order[i]? = some a) (hcb : h.IsAncestor c b) (hba : h.IsAncestor b a) :
    ∃ k, order[k]? = some b ∧ j < k ∧ k < i := by
  have hw := hs.wellLinked
  have hleads := (leads_iff_isPrefix hw.arrived_nodup).2 hpart
  -- It has a parent, and so it has arrived.
  obtain ⟨p, hp, -⟩ := Relation.TransGen.head'_iff.1 hba
  have harrived : b ∈ h.arrived := (hw.mem_arrived b).2 (hs.settled b p hp)
  have hmem : b ∈ order := by
    by_contra hout
    have hle := (hleads.before a (List.mem_of_getElem? ha) b harrived hout).score_le
    exact (hs.ordered.score_lt hba).not_ge hle
  obtain ⟨k, hk⟩ := List.mem_iff_getElem?.1 hmem
  have hplaces {m n : Nat} {q r : Rev} (hq : order[m]? = some q) (hr : order[n]? = some r)
      (hlt : h.score q < h.score r) : m < n := by
    obtain ⟨hm, rfl⟩ := List.getElem?_eq_some_iff.1 hq
    obtain ⟨hn, rfl⟩ := List.getElem?_eq_some_iff.1 hr
    by_contra hle
    rcases (Nat.le_of_not_lt hle).lt_or_eq with hgt | rfl
    · exact hlt.not_ge (List.pairwise_iff_getElem.1 hleads.pairwise n m hn hm hgt).score_le
    · exact hlt.false
  exact ⟨k, hk, hplaces hc hk (hs.ordered.score_lt hcb), hplaces hk ha (hs.ordered.score_lt hba)⟩

/-- Nothing is lost by looking at the rows between two revisions only. -/
private theorem History.Sound.isAncestor_iff {h : History} (hs : h.Sound) {order : List Rev}
    (hpart : order <+: h.sorted) {row lookAhead i j : Nat} {a c : Rev}
    (ha : (Window.ofRow h order row lookAhead).offset? a = some i)
    (hc : (Window.ofRow h order row lookAhead).offset? c = some j) :
    (Window.ofRow h order row lookAhead).isAncestor i a c = true ↔ h.IsAncestor c a := by
  have hnodup : order.Nodup := (History.sorted_nodup hs.wellLinked.arrived_nodup).sublist hpart.sublist
  rw [Window.isAncestor_eq_true_iff]
  constructor
  · rintro ⟨node, hleads, hparent⟩
    have hline : Relation.ReflTransGen h.IsParent c node :=
      Relation.ReflTransGen.mono (fun _ _ hp => (Window.mem_parentsBefore.1 hp).1) _ _ hleads
    exact Relation.TransGen.tail' hline hparent
  · intro hancestor
    obtain ⟨hpos, hlt, hplace⟩ := (Window.offset?_ofRow_eq_some_iff hnodup).1 ha
    obtain ⟨hpos', -, hplace'⟩ := (Window.offset?_ofRow_eq_some_iff hnodup).1 hc
    -- The last one on the line that comes before the ancestor is reached in the window.
    obtain ⟨last, hline, hparent⟩ := Relation.TransGen.tail'_iff.1 hancestor
    refine ⟨last, ?_, hparent⟩
    have hreached (b : Rev) (hcb : Relation.ReflTransGen h.IsParent c b) (hba : h.IsAncestor b a) :
        LeadsTo ((Window.ofRow h order row lookAhead).parentsBefore i) c b := by
      induction hcb with
      | refl => exact .refl
      | @tail d b hcd hdb ih =>
        refine (ih (Relation.TransGen.head hdb hba)).tail (Window.mem_parentsBefore.2 ⟨hdb, ?_⟩)
        obtain ⟨k, hk, hjk, hki⟩ := hs.exists_place_between hpart hplace' hplace
          (Relation.TransGen.tail' hcd hdb) hba
        refine ⟨k - row, by omega, (Window.offset?_ofRow_eq_some_iff hnodup).2 ⟨by omega, by omega, ?_⟩⟩
        rwa [show row + (k - row) = k by omega]
    exact hreached last hline (.single hparent)

namespace Graph

/-- Of two commits in a window of rows by the row order the search finds out whether the one further
down is an ancestor of the other one by any line of parents. In any history and with rows in any order
the search ends after it has looked at no more revisions than there are rows in the window, and the one
it starts from. -/
theorem isAncestor_run {config : Config} {calls : List Call}
    (hadmits : Graph.Admits { config } calls) :
    (let h := (Graph.run { config } calls).history
      ∀ order, order <+: h.sorted → ∀ (row lookAhead : Nat) (a c : Rev) (i j : Nat),
        let w := Window.ofRow h order row lookAhead
        w.offset? a = some i → w.offset? c = some j → j < i →
          (w.isAncestor i a c = true ↔ h.IsAncestor c a)) ∧
      ∀ (h : History) (order : List Rev) (row lookAhead stop : Nat) (a c : Rev),
        let w := Window.ofRow h order row lookAhead
        ∃ count ≤ w.below.length + 1, Worklist.Ends (w.parentsBefore stop) (h.IsParent · a)
          ⟨[], [c]⟩ count (w.isAncestor stop a c) := by
  have hs : (Graph.run { config } calls).Sound := (sound_new config).run hadmits
  refine ⟨?_, fun h order row lookAhead stop a c => ?_⟩
  · intro h order hpart row lookAhead a c i j w ha hc _
    exact hs.history.isAncestor_iff hpart ha hc
  · exact Window.exists_ends_isAncestor _ stop a c

/-- The rows below the row for local changes. -/
def forkWindow : Window :=
  .ofRow (Graph.run { config := .minimal } forkCalls).history
    (Graph.run { config := .minimal } forkCalls).history.sorted 0 10

/-- The two parents of the merge lead to one commit, and none of the two to the other one. -/
theorem isAncestor_run_forkCalls :
    Graph.Admits { config := .minimal } forkCalls ∧
      (forkWindow.offset? 0 = some 1 ∧ forkWindow.offset? 1 = some 2 ∧
        forkWindow.offset? 2 = some 3 ∧ forkWindow.offset? 3 = some 4) ∧
      forkWindow.history.IsAncestor 0 3 ∧ ¬ forkWindow.history.IsAncestor 1 2 := by
  have hadmits := admits_forkCalls .minimal rfl
  have hbelow : forkWindow.below = [0, 1, 2, 3] := by
    rw [forkWindow, Window.ofRow, sorted_forkCalls .minimal rfl]
    rfl
  have hoffset (r : Rev) : forkWindow.offset? r = (([0, 1, 2, 3] : List Rev).idxOf? r).map (· + 1) := by
    rw [Window.offset?, hbelow]
  have h0 : forkWindow.offset? 0 = some 1 := hoffset 0
  have h1 : forkWindow.offset? 1 = some 2 := hoffset 1
  have h2 : forkWindow.offset? 2 = some 3 := hoffset 2
  have h3 : forkWindow.offset? 3 = some 4 := hoffset 3
  have hparents : forkWindow.history.parents = (History.replay false {} forkCalls).parents :=
    funext (still_forkCalls .minimal rfl).toSameLinks.parents
  have hsearch (stop : Nat) (ancestor r : Rev) : forkWindow.isAncestor stop ancestor r =
      Window.isAncestor ⟨History.replay false {} forkCalls, [0, 1, 2, 3]⟩ stop ancestor r := by
    unfold Window.isAncestor Window.parentsBefore Window.offset?
    rw [hbelow, hparents]
  have hfound : forkWindow.isAncestor 4 3 0 = true := by
    rw [hsearch]
    decide +kernel
  have hmissed : forkWindow.isAncestor 3 2 1 = false := by
    rw [hsearch]
    decide +kernel
  have hexact := (isAncestor_run hadmits).1 _ (List.prefix_refl _) 0 10
  refine ⟨hadmits, ⟨h0, h1, h2, h3⟩, ?_, fun hancestor => ?_⟩
  · exact (hexact 3 0 4 1 h3 h0 (by decide)).1 hfound
  · have hcalled := (hexact 2 1 3 2 h2 h1 (by decide)).2 hancestor
    exact Bool.false_ne_true (hmissed.symm.trans hcalled)

end Graph

end CommitLanes
