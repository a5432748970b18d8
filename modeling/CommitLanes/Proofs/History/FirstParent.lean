import CommitLanes.Proofs.History.Tables
import CommitLanes.Proofs.Layout.Span

/-! # Only the first parent

Where only the first parent of a commit counts, each addition of a commit links at most one parent: the
first one it names that is not linked yet. So a commit that is added again gets another parent if it
names another one, even if it names the same parents as before. -/

namespace CommitLanes.History

variable {h h' : History} {child parent : Rev} {id : CommitId}

/-- The names of the parents of a revision. -/
def parentNames (h : History) (r : Rev) : List CommitId :=
  (h.parents r).map fun p => (h.revision p).id

/-- The first parent that a commit names and does not have. -/
def newParent? (id : CommitId) (names held : List CommitId) : Option CommitId :=
  names.find? fun name => name ≠ id ∧ name ∉ held

private theorem length_parentNames (h : History) (r : Rev) :
    (h.parentNames r).length = (h.parents r).length := List.length_map _

/-- At each parent starts a segment. -/
private theorem WellLinked.length_starts (hw : h.WellLinked) (r : Rev) :
    (h.revision r).starts.length = (h.parents r).length := by
  rw [← List.length_map h.segment, hw.segment_starts, List.length_map]

private theorem Consistent.id_mem_parentNames_iff (hc : h.Consistent)
    (hparent : parent < h.revisions.size) :
    (h.revision parent).id ∈ h.parentNames child ↔ h.IsParent child parent := by
  rw [parentNames, List.mem_map]
  constructor
  · rintro ⟨q, hlink, hid⟩
    rwa [← hc.id_inj q (hc.inRange child q hlink) parent hparent hid]
  · exact fun hlink => ⟨parent, hlink, rfl⟩

private theorem Consistent.links_iff_mem_parentNames (hc : h.Consistent) {r : Rev} {p : CommitId}
    (hr : r < h.revisions.size) : h.Links (h.revision r).id p ↔ p ∈ h.parentNames r := by
  rw [parentNames, List.mem_map]
  constructor
  · rintro ⟨r', q, hlink, hid, rfl⟩
    obtain rfl := hc.id_inj r' hlink.child_lt r hr hid
    exact ⟨q, hlink, rfl⟩
  · rintro ⟨q, hlink, rfl⟩
    exact ⟨r, q, hlink, rfl, rfl⟩

/-- Names stay, and so revisions with the same parents have parents of the same names. -/
private theorem Grown.parentNames {r : Rev} (grown : Grown child h h') (hin : h.InRange)
    (hparents : h'.parents r = h.parents r) : h'.parentNames r = h.parentNames r := by
  rw [History.parentNames, History.parentNames, hparents]
  exact List.map_congr_left fun p hp => grown.id p (hin r p hp)

private theorem Completed.parentNames (done : Completed child h h') (r : Rev) :
    h'.parentNames r = h.parentNames r := by
  simp only [History.parentNames, done.parents, done.id]

/-! ## One addition -/

theorem parents_meetParent {inserted : Bool} {position : Nat} {name : CommitId} {met : History}
    (hmeet : h.meetParent inserted child position name = (met, parent)) (r : Rev) :
    met.parents r = h.parents r := by
  rcases meetParent_cases h inserted child position name with
    ⟨known, -, heq⟩ | ⟨-, maxScore, score, -, heq⟩
  · obtain ⟨rfl, rfl⟩ := Prod.mk.inj (hmeet.symm.trans heq)
    rfl
  · obtain ⟨rfl, rfl⟩ := Prod.mk.inj (hmeet.symm.trans heq)
    exact (push_frame { h with maxScore } name score r).1

theorem parentNames_link (hchild : child < h.revisions.size) :
    (h.link child parent).parentNames child = h.parentNames child ++ [(h.revision parent).id] := by
  have hid (q : Rev) : ((h.link child parent).revision q).id = (h.revision q).id :=
    ((sameLinks_link h child parent).id q).trans (tie_frame hchild q).1
  simp only [parentNames, (sameLinks_link h child parent).parents, parents_tie_self hchild, hid,
    List.map_append, List.map_singleton]

theorem Numbered.parentNames_linkParents {inserted : Bool} {position : Nat} {names : List CommitId}
    (numbered : Numbered h id child) :
    (History.linkParents inserted true id child position names h).parentNames child =
      h.parentNames child ++ (newParent? id names (h.parentNames child)).toList := by
  induction names generalizing h position with
  | nil => exact (List.append_nil _).symm
  | cons name names ih =>
    unfold History.linkParents newParent?
    split
    · next hself =>
      rw [ih numbered, List.find?_cons_of_neg]
      · rfl
      · simp [hself]
    · next hother =>
      rcases hmeet : h.meetParent inserted child position name with ⟨met, parent⟩
      have hmet := numbered.of_met hmeet
      have hparent := numbered.consistent.meetParent hmeet
      have hgrown : Grown child h met := meetParent_grown hmeet
      have hnames : met.parentNames child = h.parentNames child :=
        hgrown.parentNames numbered.consistent.inRange (parents_meetParent hmeet child)
      have hheld : name ∈ h.parentNames child ↔ met.IsParent child parent := by
        rw [← hnames, ← hparent.parent_id]
        exact hmet.consistent.id_mem_parentNames_iff hparent.parent_lt
      dsimp only
      split
      · next hold =>
        rw [meetParent_eq_self numbered.consistent.toWellLinked hmeet hold, ih numbered,
          List.find?_cons_of_neg]
        · rfl
        · simp [hheld.2 hold]
      · next hnew =>
        rw [if_pos rfl, parentNames_link hmet.child_lt, hnames, hparent.parent_id,
          List.find?_cons_of_pos]
        · rfl
        · simp [hother, mt hheld.1 hnew]

private theorem Enrollment.parents {insertion : Option Insertion} {added : Added}
    (henroll : Enrollment h id insertion added) (r : Rev) :
    added.history.parents r = h.parents r := by
  cases henroll with
  | fresh hfind => exact (push_frame h.bump id _ r).1
  | @inserted place hfind =>
    exact (push_frame ((h.bump.openGap place).disturb place.start) id place.start r).1.trans
      ((sameLinks_gap h place).parents r)
  | @moved q hfind => exact (sameLinks_bump_raise h q (h.maxScore + 1)).parents r
  | kept hfind => exact (sameLinks_bump h).parents r

/-- A commit that is known keeps its number, and one that is not gets the next one. -/
private theorem Enrollment.revision_cases {insertion : Option Insertion} {added : Added}
    (henroll : Enrollment h id insertion added) :
    h.find? id = some added.revision ∨ h.find? id = none ∧ added.revision = h.revisions.size := by
  cases henroll with
  | fresh hfind => exact .inr ⟨hfind, rfl⟩
  | inserted hfind => exact .inr ⟨hfind, rfl⟩
  | moved hfind => exact .inl hfind
  | kept hfind => exact .inl hfind

instance (h : History) (a : Arrival) : Decidable (a.Effective h) :=
  inferInstanceAs (Decidable (a.insertion = none ∨ h.find? a.id = none))

section Arrive

variable (hc : h.Consistent) {a : Arrival}
include hc

private theorem Consistent.links_added_iff {p : CommitId} :
    h.Links a.id p ↔ p ∈ h.parentNames (h.added a).revision := by
  rcases (enroll_enrollment h a.id a.insertion).revision_cases with hfind | ⟨hfind, hrevision⟩
  · obtain ⟨hr, hid⟩ := hc.find?_eq_some_iff.1 hfind
    rw [← hid]
    exact hc.links_iff_mem_parentNames hr
  · -- A commit that is not known has no parents.
    refine iff_of_false ?_ ?_
    · rintro ⟨r, q, hlink, hid, -⟩
      exact hc.id_ne_of_find? hfind hlink.child_lt hid
    · intro hmem
      obtain ⟨q, hlink, -⟩ := List.mem_map.1 hmem
      exact absurd (hrevision ▸ IsParent.child_lt hlink) (lt_irrefl _)

/-- A commit that arrives gets at most one parent, and all others keep the parents that they have. -/
theorem Consistent.parentNames_arrive (honly : a.onlyFirst = true) (r : Rev) :
    (h.arrive a).parentNames r = h.parentNames r ++
      if r = (h.added a).revision ∧ a.Effective h then
        (newParent? a.id a.parents (h.parentNames r)).toList
      else [] := by
  have henroll := enroll_enrollment h a.id a.insertion
  obtain ⟨hnumbered, -, hlinked⟩ := hc.enroll henroll
  have henrolled (q : Rev) : (h.enroll a.id a.insertion).history.parentNames q = h.parentNames q :=
    henroll.grown.parentNames hc.inRange (henroll.parents q)
  have hconnect := connect_grown a.id a.parents a.insertion.isSome a.onlyFirst hnumbered.child_lt
  have hdone : (h.arrive a).parentNames r = (connect (h.enroll a.id a.insertion) a.id a.parents
      a.insertion.isSome a.onlyFirst).parentNames r :=
    (complete_completed (hnumbered.child_lt.trans_le hconnect.size_le)).parentNames r
  rw [hdone]
  rcases eq_or_ne r (h.added a).revision with rfl | hr
  · unfold connect
    split
    · next htrue =>
      rw [if_pos ⟨rfl, hlinked.1 htrue⟩, honly, ← henrolled]
      exact hnumbered.parentNames_linkParents
    · next hfalse =>
      rw [if_neg fun heffective => hfalse (hlinked.2 heffective.2), List.append_nil]
      exact henrolled _
  · rw [if_neg fun heffective => hr heffective.1, List.append_nil, ← henrolled r]
    exact hconnect.parentNames hnumbered.consistent.inRange (hconnect.parents r hr)

end Arrive

/-- No revision has more than one parent. -/
def Single (h : History) : Prop := ∀ r, (h.parentNames r).length ≤ 1

/-- If the commit has a parent then it names no other one. -/
def Arrival.Keeps (h : History) (a : Arrival) : Prop :=
  a.Effective h → ∀ p, h.Links a.id p → ∀ q ∈ a.parents, q = a.id ∨ q = p

theorem newParent?_eq_none_iff {id : CommitId} {names held : List CommitId} :
    newParent? id names held = none ↔ ∀ q ∈ names, q = id ∨ q ∈ held := by
  rw [newParent?, List.find?_eq_none]
  simp only [decide_eq_true_eq, not_and_or, not_not]

private theorem length_toList_newParent? (id : CommitId) (names held : List CommitId) :
    (newParent? id names held).toList.length ≤ 1 := by
  cases newParent? id names held <;> simp

section Arrive

variable (hc : h.Consistent) {a : Arrival} (honly : a.onlyFirst = true)
include hc honly

theorem Consistent.single_arrive (hsingle : h.Single) (hkeeps : a.Keeps h) : (h.arrive a).Single := by
  intro r
  rw [hc.parentNames_arrive honly r]
  split
  · next heffective =>
    obtain ⟨rfl, heffective⟩ := heffective
    rcases List.eq_nil_or_concat (h.parentNames (h.added a).revision) with hnil | ⟨_, p, hconcat⟩
    · rw [hnil, List.nil_append]
      exact length_toList_newParent? _ _ _
    · have hp : p ∈ h.parentNames (h.added a).revision := by simp [hconcat]
      have hnone : newParent? a.id a.parents (h.parentNames (h.added a).revision) = none := by
        refine newParent?_eq_none_iff.2 fun q hq => ?_
        exact (hkeeps heffective p (hc.links_added_iff.2 hp) q hq).imp_right fun (heq : q = p) => heq ▸ hp
      rw [hnone, Option.toList_none, List.append_nil]
      exact hsingle _
  · rw [List.append_nil]
    exact hsingle r

theorem Consistent.of_single_arrive (hsingle : (h.arrive a).Single) : h.Single ∧ a.Keeps h := by
  have hlength (r : Rev) := hsingle r
  simp only [hc.parentNames_arrive honly, List.length_append] at hlength
  refine ⟨fun r => (Nat.le_add_right _ _).trans (hlength r), fun heffective p hlink q hq => ?_⟩
  have hp := hc.links_added_iff.1 hlink
  have hchild := hlength (h.added a).revision
  rw [if_pos ⟨rfl, heffective⟩] at hchild
  have hpos := List.length_pos_of_mem hp
  obtain ⟨name, hname⟩ : ∃ name, h.parentNames (h.added a).revision = [name] :=
    List.length_eq_one_iff.1 (by omega)
  -- There is no room for another parent.
  have hnone : newParent? a.id a.parents (h.parentNames (h.added a).revision) = none := by
    rw [← Option.toList_eq_nil_iff, ← List.length_eq_zero_iff]
    omega
  refine (newParent?_eq_none_iff.1 hnone q hq).imp_right fun hmem => ?_
  rw [hname, List.mem_singleton] at hp hmem
  rw [hmem, hp]

end Arrive

/-! ## Any number of additions -/

section Additions

variable {arrivals : List Arrival} (honly : ∀ a ∈ arrivals, a.onlyFirst = true)
include honly

private theorem single_addAll_iff : (addAll {} arrivals).Single ↔
    Each (fun before a => a.Keeps (addAll {} before)) arrivals := by
  induction arrivals using List.reverseRecOn with
  | nil => exact iff_of_true (fun _ => Nat.zero_le 1) .nil
  | append_singleton arrivals a ih =>
    have hc := consistent_addAll arrivals
    have hlast := honly a List.mem_concat_self
    have hrest := ih fun b hb => honly b (List.mem_append_left _ hb)
    rw [addAll_concat]
    constructor
    · intro hsingle
      obtain ⟨hbefore, hkeeps⟩ := hc.of_single_arrive hlast hsingle
      exact (hrest.1 hbefore).concat hkeeps
    · intro each
      exact hc.single_arrive hlast (hrest.2 each.of_append) (each _ a [] rfl)

/-- A commit has at most as many parents as it was added times. -/
private theorem length_parents_addAll_le {r : Rev} (hr : r < (addAll {} arrivals).revisions.size) :
    ((addAll {} arrivals).parents r).length ≤
      arrivals.countP fun a => a.id = ((addAll {} arrivals).revision r).id := by
  induction arrivals using List.reverseRecOn with
  | nil => exact absurd hr (Nat.not_lt_zero r)
  | append_singleton arrivals a ih =>
    have hc := consistent_addAll arrivals
    have hrest := ih fun b hb => honly b (List.mem_append_left _ hb)
    rw [addAll_concat] at hr ⊢
    generalize addAll {} arrivals = h at hc hrest hr ⊢
    rw [← length_parentNames, hc.parentNames_arrive (honly a List.mem_concat_self),
      List.length_append, List.countP_append, length_parentNames]
    obtain ⟨mid, hmid, hgrown, hdone⟩ := hc.exists_completed a
    have hold : (h.parents r).length ≤ arrivals.countP fun b => b.id = ((h.arrive a).revision r).id := by
      rcases lt_or_ge r h.revisions.size with hlt | hge
      · rw [hdone.id, hgrown.id r hlt]
        exact hrest hlt
      · rw [History.parents, revision_of_le hge]
        exact Nat.zero_le _
    refine Nat.add_le_add hold ?_
    split
    · next heffective =>
      have hid : a.id = ((h.arrive a).revision r).id := by
        rw [hdone.id, heffective.1, hmid.child_id]
      rw [List.countP_singleton, if_pos (decide_eq_true hid)]
      exact length_toList_newParent? _ _ _
    · exact Nat.zero_le _

end Additions

private theorem single_iff (hw : h.WellLinked) : h.Single ↔
    ∀ r < h.revisions.size, (h.parents r).length ≤ 1 ∧ (h.revision r).starts.length ≤ 1 := by
  simp only [Single, length_parentNames, hw.length_starts, and_self]
  refine ⟨fun hsingle r _ => hsingle r, fun hsingle r => ?_⟩
  rcases lt_or_ge r h.revisions.size with hr | hr
  · exact hsingle r hr
  · rw [History.parents, revision_of_le hr]
    exact Nat.zero_le 1

/-- Where only first parents count a commit has at most one parent for each time it was added. All have
at most one, and at most one segment starts at each, exactly if no commit that has a parent is added
again, other than as an inserted row, with another parent in its list. -/
theorem one_parent_addAll (arrivals : List Arrival) (honly : ∀ a ∈ arrivals, a.onlyFirst = true) :
    let h := addAll {} arrivals
    (∀ r < h.revisions.size,
      (h.parents r).length ≤ arrivals.countP fun a => a.id = (h.revision r).id) ∧
      ((∀ r < h.revisions.size, (h.parents r).length ≤ 1 ∧ (h.revision r).starts.length ≤ 1) ↔
        Each (fun before a => a.Keeps (addAll {} before)) arrivals) := by
  intro h
  refine ⟨fun r hr => length_parents_addAll_le honly hr, ?_⟩
  rw [← single_iff (consistent_addAll arrivals).toWellLinked]
  exact single_addAll_iff honly

/-- Commits that name themselves, a parent twice or several parents, and that are added again with the
parent that they have. A row that is inserted again gets no other parent. -/
def firstParentArrivals : List Arrival := [
  ⟨.repeated 1, [.repeated 1, .repeated 2, .repeated 3], none, true⟩,
  ⟨.repeated 4, [.repeated 1, .repeated 1], none, true⟩,
  ⟨.repeated 1, [.repeated 2, .repeated 1, .repeated 2], none, true⟩,
  ⟨.workTree, [.repeated 4, .repeated 5], some ⟨2, 3⟩, true⟩,
  ⟨.workTree, [.repeated 5], some ⟨2, 3⟩, true⟩]

theorem one_parent_addAll_firstParentArrivals :
    (∀ a ∈ firstParentArrivals, a.onlyFirst = true) ∧
      let h := addAll {} firstParentArrivals
      (∀ r < h.revisions.size, (h.parents r).length ≤
        firstParentArrivals.countP fun a => a.id = (h.revision r).id) ∧
      (∀ r < h.revisions.size, (h.parents r).length ≤ 1 ∧ (h.revision r).starts.length ≤ 1) ∧
      Each (fun before a => a.Keeps (addAll {} before)) firstParentArrivals := by
  have honly : ∀ a ∈ firstParentArrivals, a.onlyFirst = true := by decide
  have hsingle : ∀ r < (addAll {} firstParentArrivals).revisions.size,
      ((addAll {} firstParentArrivals).parents r).length ≤ 1 ∧
        ((addAll {} firstParentArrivals).revision r).starts.length ≤ 1 := by decide +kernel
  obtain ⟨hcount, hiff⟩ := one_parent_addAll firstParentArrivals honly
  exact ⟨honly, hcount, hsingle, hiff.1 hsingle⟩

/-- A commit that is added twice with the same list of two parents. -/
def againArrivals : List Arrival := [
  ⟨.repeated 1, [.repeated 2, .repeated 3], none, true⟩,
  ⟨.repeated 1, [.repeated 2, .repeated 3], none, true⟩]

/-- A commit that is added again with the same list gets the second parent in it. -/
theorem not_one_parent_addAll :
    ¬ ∀ arrivals : List Arrival, (∀ a ∈ arrivals, a.onlyFirst = true) →
      (addAll {} arrivals).Acyclic →
      ∀ r < (addAll {} arrivals).revisions.size, ((addAll {} arrivals).parents r).length ≤ 1 ∧
        ((addAll {} arrivals).revision r).starts.length ≤ 1 := by
  intro hall
  have hordered : (addAll {} againArrivals).Ordered := by decide +kernel
  have hparents : (addAll {} againArrivals).parents 0 = [1, 2] := by decide +kernel
  obtain ⟨hlength, -⟩ := hall againArrivals (by decide) hordered.acyclic 0 (by decide +kernel)
  rw [hparents] at hlength
  exact absurd hlength (by decide)

end CommitLanes.History
