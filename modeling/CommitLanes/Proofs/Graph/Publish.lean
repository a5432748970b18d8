import CommitLanes.Proofs.Graph.Replay
import CommitLanes.Proofs.Layout.Span

/-! # Publishing rows

What a graph publishes is what it published before, kept as far as it agrees with the row order and
drawn from there on. No other call touches it, but for forgetting all of it. -/

namespace CommitLanes

namespace History

/-- The order of rows is a topological order. -/
private theorem Sound.topological_sorted {h : History} (hs : h.Sound) : Topological h h.sorted where
  nodup := sorted_nodup hs.wellLinked.arrived_nodup
  arrived r hr := (hs.wellLinked.mem_arrived r).1 (mem_sorted.1 hr)
  descends := by
    apply (sorted_pairwise hs.wellLinked.arrived_nodup).imp
    intro a b hab hparent
    exact absurd hab.score_le (not_le.2 (hs.ordered b a hparent))

end History

namespace Call

/-- The call has rows published: it asks for them, or it adds an inserted row that was known
before. -/
def Publishes (h : History) : Call → Prop
  | .cache _ _ => True
  | .insert id _ _ => h.find? id ≠ none
  | _ => False

theorem publishes_iff {h : History} {call : Call} {onlyFirst : Bool} {a : History.Arrival}
    (ha : call.arrival? onlyFirst = some a) :
    call.Publishes h ↔ (h.added a).linked = false := by
  have hlinked : (h.added a).linked = (h.enroll a.id a.insertion).linked := rfl
  have henroll := History.enroll_enrollment h a.id a.insertion
  rw [hlinked]
  cases call with
  | add id parents =>
    cases ha
    generalize h.enroll id none = added at henroll ⊢
    cases henroll <;> simp [Publishes]
  | insert id parents insertion =>
    cases ha
    generalize h.enroll id (some insertion) = added at henroll ⊢
    cases henroll with
    | inserted hfind => simp [Publishes, hfind]
    | kept hfind => simp [Publishes, hfind]
  | setHead | complete | clear | ordered | rowOf | cache | highlight => cases ha

end Call

namespace Graph

variable {g : Graph}

theorem order_cache (g : Graph) (current last : Nat) :
    (g.cache current last).order = (g.ordered (g.target (max current last))).1 := by
  unfold cache
  dsimp only
  split <;> rfl

/-- The order by which rows are published is a part of the sorted one from the top, and that is long
enough for all rows asked for that there are. -/
theorem Sound.order_cache (hs : g.Sound) (current last : Nat) :
    (g.cache current last).order <+: g.history.sorted ∧
      min g.count (g.target (max current last) + 1) ≤ (g.cache current last).order.length := by
  rw [Graph.order_cache]
  exact History.order_rank hs.history.wellLinked.arrived_nodup hs.ranked _

theorem layout_cache (g : Graph) (current last : Nat) :
    (g.cache current last).layout =
      (Layout.extend? (g.cache current last).history g.config (g.cache current last).order
        (g.target (max current last)) g.completed g.rows).getD g.layout := by
  have horder := order_cache g current last
  have hhistory := history_cache g current last
  rw [horder, hhistory]
  unfold cache
  dsimp only
  split
  · next rows heq => exact (congrArg (Option.getD · g.layout) heq).symm
  · next heq => exact (congrArg (Option.getD · g.layout) heq).symm

theorem extension_cache (g : Graph) (current last : Nat) :
    Layout.Extension (g.cache current last).history g.config (g.cache current last).order
      (g.target (max current last)) g.completed g.layout (g.cache current last).layout := by
  rw [layout_cache]
  exact Layout.extension_extend? _ _ _ _ _ _

@[simp] theorem completed_cache (g : Graph) (current last : Nat) :
    (g.cache current last).completed = g.completed := by
  unfold cache
  dsimp only
  split <;> rfl

@[simp] theorem count_cache (g : Graph) (current last : Nat) :
    (g.cache current last).count = g.count :=
  congrArg List.length (still_cache g current last).arrived

@[simp] theorem count_rank (g : Graph) (row : Nat) : (g.rank row).count = g.count :=
  congrArg List.length (History.still_rank g.history row).arrived

/-- What is published is drawn by the order as it is then. -/
theorem redrawn_cache (g : Graph) (current last : Nat) :
    ∃ keep stop, Layout.Redrawn (g.cache current last).history g.config (g.cache current last).order
      keep stop g.layout (g.cache current last).layout :=
  (extension_cache g current last).exists_redrawn

/-- The rows that are published show the top of the order, each revision after its children. -/
theorem Sound.topological_order_cache (hs : g.Sound) (current last : Nat) :
    Topological (g.cache current last).history (g.cache current last).order := by
  obtain ⟨⟨more, hmore⟩, -⟩ := hs.order_cache current last
  have htop := hs.history.topological_sorted
  rw [← hmore] at htop
  exact htop.of_append.of_still (still_cache g current last)

theorem Sound.revisions_cache_isPrefix (hs : g.Sound) (current last : Nat) :
    (g.cache current last).layout.revisions <+: g.history.sorted := by
  obtain ⟨keep, stop, redrawn⟩ := redrawn_cache g current last
  obtain ⟨hleads, -⟩ := hs.order_cache current last
  rw [redrawn.revisions]
  exact (List.take_prefix _ _).trans hleads

/-- Where no rows are held back all rows that are asked for get published. -/
theorem Sound.le_size_cache (hs : g.Sound)
    (hopen : g.completed = true ∨ g.config.reduceCrossings = false) (current last : Nat) :
    min g.count (max current last + 1) ≤ (g.cache current last).layout.size := by
  obtain ⟨-, hlength⟩ := hs.order_cache current last
  rcases Nat.eq_zero_or_pos g.count with hzero | hpos
  · rw [hzero, Nat.zero_min]
    exact Nat.zero_le _
  · have hpos' : 0 < (g.cache current last).order.length := by omega
    have hlast := Layout.lastRow?_eq_some hopen hpos'
    have hsize := (extension_cache g current last).size_eq hlast
    -- The last row drawn is the one asked for, the last one ordered or the last one of all.
    have htarget : min (max current last) (g.count - 1) ≤ g.target (max current last) := by
      unfold target
      dsimp only
      split <;> omega
    omega

/-! ## Calls that publish and calls that do not -/

theorem layout_arrive (g : Graph) (a : History.Arrival) : (g.arrive a).layout = g.layout := by
  unfold arrive checkOut
  split <;> rfl

/-- How the layout of a graph comes out of a call. -/
inductive Publication (g g' : Graph) : Call → Prop
  | extended {call : Call} {last : Nat} {completed : Bool} (hpublishes : call.Publishes g.history)
    (extension :
      Layout.Extension g'.history g.config g'.order last completed g.layout g'.layout) :
    Publication g g' call
  | cleared (heq : g'.layout = #[]) : Publication g g' .clear
  | kept {call : Call} (hnot : ¬ call.Publishes g.history) (hclear : call ≠ .clear)
    (heq : g'.layout = g.layout) : Publication g g' call

theorem publication_perform (g : Graph) (call : Call) : Publication g (g.perform call) call := by
  cases ha : call.arrival? g.config.onlyFirstParent with
  | some a =>
    have hpublishes := Call.publishes_iff (h := g.history) ha
    rw [perform_arrival ha]
    split
    · next hlinked =>
      refine .kept (by simp [hpublishes, hlinked]) ?_ (layout_arrive g a)
      rintro rfl
      cases ha
    · next hlinked =>
      have hextension := extension_cache (g.arrive a).distrustOrder 0 refreshedRows
      have hrows : (g.arrive a).distrustOrder.layout = g.layout := layout_arrive g a
      have hconfig : (g.arrive a).distrustOrder.config = g.config := config_arrive g a
      rw [hrows, hconfig] at hextension
      exact .extended (hpublishes.2 (Bool.eq_false_of_not_eq_true hlinked)) hextension
  | none =>
    cases call with
    | add | insert => cases ha
    | clear => exact .cleared rfl
    | cache current last => exact .extended trivial (extension_cache g current last)
    | setHead | complete | ordered | highlight => exact .kept not_false nofun rfl
    | rowOf id =>
      refine .kept not_false nofun ?_
      unfold perform rowOf?
      dsimp only
      split <;> rfl

/-- A property of the history and of the layout that nothing but publishing can break: not a commit
that arrives for the first time, nor a change of marks. -/
structure Stable (P : History → Layout → Prop) : Prop where
  init : P {} #[]
  still : ∀ {h k : History} {rows : Layout}, History.Still h k → P h rows → P k rows
  arrived : ∀ {h h' : History} {rows : Layout} {name : CommitId} {child : Rev}, h.Sound → h'.Sound →
    History.Arrived name child h h' → (h.revision child).completed = false → P h rows → P h' rows

section Stable

variable {P : History → Layout → Prop} (stable : Stable P)
include stable

/-- A call publishes at the end if it does so at all. -/
theorem Stable.perform (hs : g.Sound) (hP : P g.history g.layout) {call : Call}
    (hadmissible : call.Admissible g.history) (hac : (g.perform call).history.Acyclic)
    (hfresh : Fresh g call) :
    (∃ (before : Graph) (current last : Nat), before.Sound ∧ before.config = g.config ∧
      P before.history before.layout ∧ g.perform call = before.cache current last) ∨
    (¬ call.Publishes g.history ∧ P (g.perform call).history (g.perform call).layout) := by
  cases ha : call.arrival? g.config.onlyFirstParent with
  | some a =>
    obtain ⟨hadmits, hlands⟩ := hadmissible.admits ha
    have harrive := (still_perform_arrival ha).toSameLinks.symm.acyclic hac
    have hnext := stable.arrived hs.history (History.arrive_sound hs.history hadmits harrive)
      (History.arrive_arrived hs.history hadmits harrive) (hfresh a ha) hP
    rw [perform_arrival ha, Call.publishes_iff ha]
    split
    · -- The rows stay as they are.
      next hlinked =>
      refine .inr ⟨by simp [hlinked], ?_⟩
      rw [layout_arrive]
      exact stable.still (still_arrive g a) hnext
    · -- The first rows are published once the commit has arrived.
      refine .inl ⟨(g.arrive a).distrustOrder, 0, refreshedRows,
        hs.distrusted_arrive hadmits hlands harrive, config_arrive g a, ?_, rfl⟩
      have hrows : (g.arrive a).distrustOrder.layout = g.layout := layout_arrive g a
      rw [hrows]
      exact stable.still ((still_arrive g a).trans (still_distrustOrder _)) hnext
  | none =>
    cases call with
    | add | insert => cases ha
    | cache current last => exact .inl ⟨g, current, last, hs, rfl, hP, rfl⟩
    | clear => exact .inr ⟨not_false, stable.init⟩
    | setHead | complete => exact .inr ⟨not_false, hP⟩
    | ordered row => exact .inr ⟨not_false, stable.still (History.still_rank g.history row) hP⟩
    | rowOf id =>
      have hrows : (g.rowOf? id).2.layout = g.layout := by
        unfold rowOf?
        split <;> rfl
      refine .inr ⟨not_false, ?_⟩
      rw [Graph.perform, hrows]
      exact stable.still (still_rowOf? g id) hP
    | highlight id => exact .inr ⟨not_false, stable.still (still_highlight g.history id) hP⟩

variable {config : Config} (published : ∀ {g : Graph} (current last : Nat), g.Sound →
  g.config = config → P g.history g.layout →
    P (g.cache current last).history (g.cache current last).layout)
include published

/-- A stable property that publishing keeps too holds after every admitted run that adds no commit
twice. -/
theorem Stable.run {calls : List Call} (hadmits : Graph.Admits { config } calls)
    (honce : Once calls) :
    P (Graph.run { config } calls).history (Graph.run { config } calls).layout := by
  refine run_induction_once (P := fun g => P g.history g.layout) stable.init ?_ hadmits honce
  intro g call hs hconfig hP hadmissible hac hfresh
  rcases stable.perform hs hP hadmissible hac hfresh with
    ⟨before, current, last, hsound, hbefore, hkept, heq⟩ | ⟨-, hkept⟩
  · rw [heq]
    exact published current last hsound (hbefore.trans hconfig) hkept
  · exact hkept

/-- And it holds right before anything is published. -/
theorem Stable.exists_cache {calls : List Call} {call : Call}
    (hadmits : Graph.Admits { config } (calls ++ [call])) (honce : Once (calls ++ [call]))
    (hpublishes : call.Publishes (Graph.run { config } calls).history) :
    ∃ (before : Graph) (current last : Nat), before.Sound ∧ before.config = config ∧
      P before.history before.layout ∧
      Graph.run { config } (calls ++ [call]) = before.cache current last := by
  obtain ⟨hcalls, hadmissible, hac, -⟩ := admits_append.1 hadmits
  have hP := stable.run published hcalls (once_append honce).1
  have hfresh := fresh_run hadmits honce
  rw [run_append]
  rcases stable.perform ((sound_new config).run hcalls) hP hadmissible hac hfresh with
    ⟨before, current, last, hsound, hbefore, hkept, heq⟩ | ⟨hnot, -⟩
  · exact ⟨before, current, last, hsound, hbefore.trans (config_run _ calls), hkept, heq⟩
  · exact absurd hpublishes hnot

end Stable

/-! ## Rows of an order that is known -/

/-- The graph as it would be if it had ordered all of its commits before. -/
def remember (g : Graph) (order : List Rev) : Graph :=
  let upTo := order.getLast?.map g.history.score
  { g with history.ranking := { order, upTo, stale := false } }

private theorem rank_remember {order : List Rev} (hall : g.count ≤ order.length) (row : Nat) :
    (g.remember order).rank row = g.remember order := by
  have hserves : (g.remember order).history.ranking.serves
      (min (g.remember order).history.count (row + 1)) := by
    have hle : min g.count (row + 1) ≤ order.length := (Nat.min_le_left _ _).trans hall
    simp only [Ranking.serves, remember, Bool.not_false, Bool.true_and]
    exact decide_eq_true hle
  rw [rank, History.rank, if_pos hserves]

/-- The commits are ordered anew when rows are asked for, and this is the order that comes of it. -/
def Reorders (g : Graph) (current last : Nat) (order : List Rev) : Prop :=
  ¬ g.history.ranking.serves (min g.count (g.target (max current last) + 1)) ∧
    order.Perm g.history.arrived ∧ order.Pairwise fun a b => g.history.precedes a b

instance (g : Graph) (current last : Nat) (order : List Rev) :
    Decidable (g.Reorders current last order) :=
  inferInstanceAs (Decidable (_ ∧ _))

/-- The rows that are published are those that would be if the order had been known. -/
private theorem cache_remember {order : List Rev} {current last : Nat}
    (reorders : g.Reorders current last order) :
    g.cache current last = (g.remember order).cache current last := by
  obtain ⟨hserves, hperm, hpairwise⟩ := reorders
  have hrank : g.rank (g.target (max current last)) = g.remember order := by
    have hserves' : ¬ g.history.ranking.serves
        (min g.history.count (g.target (max current last) + 1)) := hserves
    rw [rank, History.rank, if_neg hserves', History.rerank,
      History.sorted_eq_of_pairwise hperm hpairwise]
    rfl
  have htarget : (g.remember order).target (max current last) = g.target (max current last) := rfl
  unfold cache
  dsimp only
  rw [htarget, hrank, rank_remember hperm.length_eq.ge]

theorem run_cache_remember (calls more : List Call) (order : List Rev) (current last : Nat)
    (reorders : (g.run calls).Reorders current last order) :
    g.run (calls ++ .cache current last :: more) =
      (((g.run calls).remember order).cache current last).run more := by
  rw [run_append, run_cons, perform, cache_remember reorders]

end Graph

end CommitLanes
