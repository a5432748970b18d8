import CommitLanes.Proofs.History.Ascent
import CommitLanes.Proofs.History.Tables

/-! # The newest commit

A commit is placed behind everything seen so far, whether it is heard of for the first time or was
known before. Only its ancestors are moved out of its way, and so they are the only revisions that
are still further down. -/

namespace CommitLanes.History

variable {h h' h'' : History} {child : Rev}

/-! ## What is no ancestor of the commit -/

/-- Only `child` and its ancestors move, and only they become known. -/
structure Apart (child : Rev) (h h' : History) : Prop where
  unmoved : ∀ r < h.revisions.size, r ≠ child → ¬ h'.IsAncestor child r → h'.score r = h.score r
  known : ∀ r < h'.revisions.size, h.revisions.size ≤ r → r = child ∨ h'.IsAncestor child r

namespace Apart

/-- A change that makes nothing known. -/
private theorem of_size_eq (hsize : h'.revisions.size = h.revisions.size)
    (hunmoved : ∀ r < h.revisions.size, r ≠ child → ¬ h'.IsAncestor child r →
      h'.score r = h.score r) : Apart child h h' where
  unmoved := hunmoved
  known _ hr hnew := absurd (hsize ▸ hr) (not_lt.2 hnew)

theorem refl (h : History) : Apart child h h := of_size_eq rfl fun _ _ _ _ => rfl

theorem trans (grown : Grown child h' h'') (size_le : h.revisions.size ≤ h'.revisions.size)
    (first : Apart child h h') (second : Apart child h' h'') : Apart child h h'' where
  unmoved r hr hne hancestor := by
    rw [second.unmoved r (hr.trans_le size_le) hne hancestor]
    exact first.unmoved r hr hne fun ha => hancestor (grown.isAncestor ha)
  known r hr hnew := by
    rcases lt_or_ge r h'.revisions.size with hold | hnewer
    · exact (first.known r hold hnew).imp_right grown.isAncestor
    · exact second.known r hr hnewer

/-- To complete the commit is nothing to the others. -/
private theorem completed (apart : Apart child h h') (done : Completed child h' h'') :
    Apart child h h'' where
  unmoved r hr hne hancestor := by
    rw [done.score]
    exact apart.unmoved r hr hne fun ha => hancestor (ha.mono fun _ _ => done.isParent.2)
  known r hr hnew := by
    rw [done.size] at hr
    exact (apart.known r hr hnew).imp_right fun ha => ha.mono fun _ _ => done.isParent.2

end Apart

theorem apart_bump (h : History) : Apart child h h.bump := .of_size_eq rfl fun _ _ _ _ => rfl

theorem apart_push (id : CommitId) (score : Score) :
    Apart h.revisions.size h (h.push id score) where
  unmoved r hr _ _ := score_push_of_lt hr
  known r hr hnew := by
    rw [size_push] at hr
    exact .inl (Nat.le_antisymm (Nat.le_of_lt_succ hr) hnew)

theorem apart_raise (hac : h.Acyclic) (hrange : h.InRange) (hchild : child < h.revisions.size)
    (minimal : Score) : Apart child h (h.raise child minimal) := by
  have raised := raise_raisedTo minimal hac hrange hchild
  apply Apart.of_size_eq raised.size
  intro r _ hne hancestor
  apply raised.frame r
  · simpa using hne
  · simpa [raised.isAncestor] using hancestor

/-- A parent that becomes known is an ancestor as soon as it is linked. -/
theorem apart_meetParent_link (hw : h.WellLinked) (hlt : child < h.revisions.size)
    {inserted : Bool} {position : Nat} {name : CommitId} {met : History} {parent : Rev}
    (hmeet : h.meetParent inserted child position name = (met, parent))
    (hnew : ¬ met.IsParent child parent) (hac : (met.link child parent).Acyclic) :
    Apart child h (met.link child parent) := by
  rcases meetParent_cases h inserted child position name with
    ⟨known, hfind, heq⟩ | ⟨hfind, maxScore, score, -, heq⟩
  · obtain ⟨rfl, rfl⟩ := Prod.mk.inj (hmeet.symm.trans heq)
    apply Apart.of_size_eq (size_link met child parent)
    intro r _ _ hancestor
    exact score_link_of_not_isAncestor hw hlt (hw.find?_eq_some_iff.1 hfind).1 hnew hac hancestor
  · obtain ⟨rfl, rfl⟩ := Prod.mk.inj (hmeet.symm.trans heq)
    have hwbump : { h with maxScore }.WellLinked := hw.of_sameLinks ⟨rfl, rfl, rfl, rfl⟩
    have hwmet := push_wellLinked hwbump score hfind
    have hsize : ({ h with maxScore }.push name score).revisions.size = h.revisions.size + 1 :=
      size_push _ _ _
    have hlt' : child < ({ h with maxScore }.push name score).revisions.size := by
      rw [hsize]
      exact hlt.trans (Nat.lt_succ_self _)
    have hedge : (({ h with maxScore }.push name score).link child h.revisions.size).IsParent child
        h.revisions.size := (isParent_link hlt').2 (.inr ⟨rfl, rfl⟩)
    constructor
    · intro r hr _ hancestor
      rw [score_link_of_not_isAncestor hwmet hlt' (hsize ▸ Nat.lt_succ_self _) hnew hac hancestor]
      exact score_push_of_lt hr
    · intro r hr hge
      rw [size_link, hsize] at hr
      obtain rfl := Nat.le_antisymm (Nat.le_of_lt_succ hr) hge
      exact .inr hedge.isAncestor

theorem apart_linkParents {inserted onlyFirst : Bool} {id : CommitId} {position : Nat}
    {names : List CommitId} (hw : h.WellLinked) (hchild : child < h.revisions.size)
    (hac : (linkParents inserted onlyFirst id child position names h).Acyclic) :
    Apart child h (linkParents inserted onlyFirst id child position names h) := by
  refine (linkParents_induction (P := fun g => Linking child h g ∧ Apart child h g) hw hchild hac
    ⟨.refl hw, .refl h⟩ ?_).2
  rintro g met position name parent hwg hlt hmeet hnew hlink ⟨linked, apart⟩
  have hnext := meetParent_link_linking hwg hlt hmeet hnew hlink
  refine ⟨linked.trans hnext, apart.trans hnext.toGrown linked.size_le ?_⟩
  exact apart_meetParent_link hwg hlt hmeet hnew hlink

/-! ## The place of the commit -/

/-- A commit that is not inserted gets its number at a score of its own, below all others. -/
private theorem Enrollment.newest {id : CommitId} {added : Added}
    (henroll : Enrollment h id none added) (hw : h.WellLinked) (hord : h.Ordered) (hb : h.Bounded) :
    added.linked = true ∧ Apart added.revision h added.history ∧
      added.history.score added.revision = h.maxScore + 1 := by
  cases henroll with
  | fresh hfind =>
    refine ⟨rfl, ?_, score_push_size (h := h.bump) id _⟩
    exact (apart_bump h).trans (push_grown h.bump id _ _) le_rfl (apart_push (h := h.bump) id _)
  | @moved r hfind =>
    have hr := (hw.find?_eq_some_iff.1 hfind).1
    have hbump : h.bump.Ordered := hord
    have hrange : h.bump.InRange := hw.inRange
    refine ⟨rfl, ?_, ?_⟩
    · exact (apart_bump h).trans (.of_sameLinks (sameLinks_raise r _)) le_rfl
        (apart_raise hbump.acyclic hrange hr _)
    · -- Nothing was as far down before.
      have hlow : h.bump.score r ≤ h.maxScore + 1 := (hb r hr).trans (Int.le_add_one le_rfl)
      rw [score_raise_self hbump.acyclic hrange hr (hbump.rises r), max_eq_right hlow]

/-- A commit that is added gets the first score after all those given out, and only its ancestors
move or become known besides. -/
theorem arrive_newest (hs : h.Sound) (hb : h.Bounded) {a : Arrival} (hplain : a.insertion = none)
    (hac : (h.arrive a).Acyclic) :
    Apart (h.added a).revision h (h.arrive a) ∧
      (h.arrive a).score (h.added a).revision = h.maxScore + 1 := by
  obtain ⟨id, parents, insertion, onlyFirst⟩ := a
  subst hplain
  have henroll := enroll_enrollment h id none
  obtain ⟨hlinked, hapart, hscore⟩ := henroll.newest hs.wellLinked hs.ordered hb
  have hadmits : h.Admits id none := fun place hplace => nomatch hplace
  have hfirst := henroll.connecting hs.wellLinked hs.ordered.acyclic hadmits
  have hconnect := connect_grown id parents false onlyFirst hfirst.child_lt
  have hdone := complete_completed (hfirst.child_lt.trans_le hconnect.size_le)
  have hmid : connect (h.enroll id none) id parents false onlyFirst =
      linkParents false onlyFirst id (h.enroll id none).revision 0 parents
        (h.enroll id none).history := if_pos hlinked
  have hcycles := hac.anti fun _ _ => hdone.isParent.2
  rw [hmid] at hcycles
  have hlinking := linkParents_linking hfirst.wellLinked hfirst.child_lt hcycles
  have hall := hapart.trans hlinking.toGrown henroll.grown.size_le
    (apart_linkParents hfirst.wellLinked hfirst.child_lt hcycles)
  rw [← hmid] at hlinking hall
  exact ⟨hall.completed hdone, (hdone.score _).trans (hlinking.score_child.trans hscore)⟩

/-- What is remembered of the row order may be in doubt from now on, but it is still there. -/
theorem order_arrive (hs : h.Sound) {a : Arrival} (hadmits : h.Admits a.id a.insertion)
    (hac : (h.arrive a).Acyclic) : (h.arrive a).ranking.order = h.ranking.order := by
  obtain ⟨mid, hmid, heq⟩ := arrive_connecting hs.wellLinked hs.ordered.acyclic hadmits hac
  rw [heq, (complete_completed hmid.child_lt).ranking]
  exact hmid.order

/-! ## Commits that arrive ahead of their parents -/

theorem WellLinked.lt_of_completed (hw : h.WellLinked) {r : Rev}
    (hr : (h.revision r).completed = true) : r < h.revisions.size :=
  hw.completed_lt ((hw.mem_arrived r).2 hr)

private theorem WellLinked.id_mem_names (hw : h.WellLinked) {r : Rev}
    (hr : (h.revision r).completed = true) : (h.revision r).id ∈ h.names :=
  List.mem_map_of_mem ((hw.mem_arrived r).2 hr)

/-- Neither the commit nor any of its parents has arrived. -/
structure Arrival.Ahead (h : History) (a : Arrival) : Prop where
  new : a.id ∉ h.names
  parents : ∀ p ∈ a.parents, p ∉ h.names

namespace Arrival.Ahead

variable {a : Arrival} (ahead : a.Ahead h) (hc : h.Consistent)
  (hsettled : ∀ c p, h.IsParent c p → (h.revision c).completed = true)
include ahead hc

private theorem not_completed : (h.revision (h.added a).revision).completed = false := by
  obtain ⟨mid, hmid, hgrown, -, -⟩ := hc.exists_connected a
  rw [Bool.eq_false_iff]
  intro hold
  apply ahead.new
  rw [← hmid.child_id, hgrown.id _ (hc.lt_of_completed hold)]
  exact hc.id_mem_names hold

theorem arrived_eq : (h.arrive a).arrived = h.arrived ++ [(h.added a).revision] := by
  obtain ⟨mid, -, hgrown, heq, -⟩ := hc.exists_connected a
  have hnew := ahead.not_completed hc
  rw [← hgrown.completed_eq] at hnew
  rw [heq, complete]
  simp [hnew, hgrown.arrived_eq]

include hsettled

/-- The parents of the commit have no parents so far. -/
private theorem placeholder {p : Rev}
    (hp : (h.arrive a).IsParent (h.added a).revision p) :
    (h.revision p).completed = false ∧ ∀ q, ¬ (h.arrive a).IsParent p q := by
  obtain ⟨mid, hmid, hgrown, hdone⟩ := hc.exists_completed a
  have hne : p ≠ (h.added a).revision := by
    rintro rfl
    exact (hc.arrive a).irrefl _ hp
  have hnamed : ((h.arrive a).revision p).id ∈ a.parents := by
    have hid : ((h.arrive a).revision (h.added a).revision).id = a.id :=
      (hdone.id _).trans hmid.child_id
    rcases hc.of_links_arrive a ⟨_, p, hp, hid, rfl⟩ with ⟨r, q, hold, hr, -⟩ | ⟨-, hmem⟩
    · -- Had the commit had a parent before, then it would have arrived.
      refine absurd ?_ ahead.new
      rw [← hr]
      exact hc.id_mem_names (hsettled r q hold)
    · exact hmem
  have hnew : (h.revision p).completed = false := by
    rw [Bool.eq_false_iff]
    intro hold
    apply ahead.parents _ hnamed
    rw [hdone.id, hgrown.id p (hc.lt_of_completed hold)]
    exact hc.id_mem_names hold
  refine ⟨hnew, fun q hq => ?_⟩
  have hold := hsettled p q ((hc.isParent_arrive_of_ne a hne).1 hq)
  exact Bool.false_ne_true (hnew.symm.trans hold)

/-- And so they are all the ancestors that it has. -/
private theorem isParent_of_isAncestor {r : Rev}
    (ha : (h.arrive a).IsAncestor (h.added a).revision r) :
    (h.arrive a).IsParent (h.added a).revision r := by
  obtain ⟨p, hp, hrest⟩ := Relation.TransGen.head'_iff.1 ha
  rcases Relation.ReflTransGen.cases_head hrest with rfl | ⟨q, hq, -⟩
  · exact hp
  · exact absurd hq ((ahead.placeholder hc hsettled hp).2 q)

theorem acyclic (hac : h.Acyclic) : (h.arrive a).Acyclic := by
  -- What leads to a revision with parents led there before.
  have hold : ∀ c p q, (h.arrive a).IsParent c p → (h.arrive a).IsParent p q → h.IsParent c p := by
    intro c p q hp hq
    apply (hc.isParent_arrive_of_ne a ?_).1 hp
    rintro rfl
    exact (ahead.placeholder hc hsettled hp).2 q hq
  have hline : ∀ c r q, (h.arrive a).IsAncestor c r → (h.arrive a).IsParent r q →
      h.IsAncestor c r := by
    intro c r q ha
    induction ha generalizing q with
    | single hp => exact fun hq => (hold _ _ _ hp hq).isAncestor
    | tail _ hp ih => exact fun hq => (ih _ hp).tail (hold _ _ _ hp hq)
  intro r hr
  obtain ⟨q, hq, -⟩ := Relation.TransGen.head'_iff.1 hr
  exact hac r (hline r r q hr hq)

end Arrival.Ahead

/-! ## Logs -/

/-- The completed commits score above one another in the order of their arrival. -/
def Sequential (h : History) : Prop := h.arrived.Pairwise fun a b => h.score a < h.score b

theorem sequential_empty : Sequential {} := .nil

theorem Sequential.sorted_eq (sequential : h.Sequential) : h.sorted = h.arrived := by
  apply List.mergeSort_of_pairwise
  apply sequential.imp
  intro a b hab
  simp [precedes, hab]

section Ahead

variable {a : Arrival} (ahead : a.Ahead h) (hs : h.Sound) (hb : h.Bounded) (hc : h.Consistent)
  (hplain : a.insertion = none)
include ahead hs hb hc hplain

/-- Raising the parents of a commit that arrives ahead of them does not reach any that has arrived. -/
theorem Arrival.Ahead.score_eq {r : Rev} (hr : (h.revision r).completed = true) :
    (h.arrive a).score r = h.score r := by
  have hac := ahead.acyclic hc hs.settled hs.ordered.acyclic
  obtain ⟨apart, -⟩ := arrive_newest hs hb hplain hac
  apply apart.unmoved r (hc.lt_of_completed hr)
  · exact ne_of_completed hr (ahead.not_completed hc)
  · intro ha
    have hp := ahead.isParent_of_isAncestor hc hs.settled ha
    have hnew := (ahead.placeholder hc hs.settled hp).1
    exact Bool.false_ne_true (hnew.symm.trans hr)

theorem Sequential.arrive (sequential : h.Sequential) : (h.arrive a).Sequential := by
  have hac := ahead.acyclic hc hs.settled hs.ordered.acyclic
  obtain ⟨-, hscore⟩ := arrive_newest hs hb hplain hac
  have hold : ∀ r ∈ h.arrived, (h.arrive a).score r = h.score r := fun r hr =>
    ahead.score_eq hs hb hc hplain ((hc.mem_arrived r).1 hr)
  unfold Sequential
  rw [ahead.arrived_eq hc, List.pairwise_append]
  refine ⟨?_, List.pairwise_singleton _ _, ?_⟩
  · apply sequential.imp_of_mem
    intro r q hr hq hlt
    rw [hold r hr, hold q hq]
    exact hlt
  · intro r hr q hq
    rw [List.mem_singleton.1 hq, hold r hr, hscore]
    exact Int.lt_add_one_of_le (hb r (hc.completed_lt hr))

end Ahead

end CommitLanes.History
