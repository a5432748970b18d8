import CommitLanes.Proofs.History.Arrivals

/-! # The tables of a history

Names, parents, children, segments, starts and arrivals are kept in tables of their own, and each
way of adding a commit touches other ones of them. They always tell the same, whatever is added and
however scores come out: which links there are can be read off from the commits that were added. -/

namespace CommitLanes.History

variable {h h' : History} {child parent : Rev} {id c p : CommitId}

/-- All tables of a history agree. Children mirror parents, and nobody is a parent of its own. -/
structure Consistent (h : History) : Prop extends WellLinked h where
  children : ∀ p r, (h.revision p).children.count r = (h.parents r).count p
  irrefl : ∀ r, ¬ h.IsParent r r

/-- The first of two commits is linked to the second one as its parent. -/
def Links (h : History) (c p : CommitId) : Prop :=
  ∃ r q, h.IsParent r q ∧ (h.revision r).id = c ∧ (h.revision q).id = p

/-- The names of the commits that have arrived, in the order of their arrival. -/
def names (h : History) : List CommitId := h.arrived.map fun r => (h.revision r).id

theorem consistent_empty : Consistent {} where
  toWellLinked := wellLinked_empty
  children _ _ := rfl
  irrefl _ hr := absurd hr.child_lt (Nat.not_lt_zero _)

private theorem not_links_empty : ¬ Links {} c p :=
  fun ⟨_, _, hlink, _⟩ => absurd hlink.child_lt (Nat.not_lt_zero _)

namespace Consistent

/-- Each segment starts at one revision, and is listed there once. -/
private theorem starts_perm (hc : h.Consistent) :
    ((List.range h.revisions.size).flatMap fun r => (h.revision r).starts).Perm
      (List.range h.segments.size) := by
  have hnodup : ((List.range h.revisions.size).flatMap fun r => (h.revision r).starts).Nodup := by
    refine List.nodup_flatMap.2 ⟨fun r _ => hc.starts_nodup r, ?_⟩
    refine List.nodup_range.imp fun {r q} hne s hr hq => hne ?_
    rw [← (hc.segment_of_mem_starts hr).1, (hc.segment_of_mem_starts hq).1]
  refine (List.perm_ext_iff_of_nodup hnodup List.nodup_range).2 fun s => ?_
  rw [List.mem_flatMap, List.mem_range]
  constructor
  · rintro ⟨r, -, hs⟩
    exact hc.starts_lt r s hs
  · intro hs
    exact ⟨_, List.mem_range.2 (hc.isParent_segment hs).child_lt, hc.started s hs⟩

theorem of_sameLinks (hc : h.Consistent) (same : SameLinks h h') : h'.Consistent where
  toWellLinked := hc.toWellLinked.of_sameLinks same
  children p r := by
    rw [same.children, same.parents]
    exact hc.children p r
  irrefl r hr := hc.irrefl r (same.isParent.1 hr)

end Consistent

private theorem SameLinks.links (same : SameLinks h h') : h'.Links c p ↔ h.Links c p := by
  simp only [Links, same.isParent, same.id]

/-! ## One change of the tables -/

/-- What a revision is called does not change as others become known. -/
theorem links_push (hw : h.WellLinked) (score : Score) :
    (h.push id score).Links c p ↔ h.Links c p := by
  have hid {r : Rev} (hr : r < h.revisions.size) :
      ((h.push id score).revision r).id = (h.revision r).id := by rw [revision_push_of_ne hr.ne]
  constructor
  · rintro ⟨r, q, hlink, rfl, rfl⟩
    have hold := (isParent_push id score).1 hlink
    exact ⟨r, q, hold, (hid hold.child_lt).symm, (hid (hw.inRange r q hold)).symm⟩
  · rintro ⟨r, q, hold, rfl, rfl⟩
    exact ⟨r, q, (isParent_push id score).2 hold, hid hold.child_lt, hid (hw.inRange r q hold)⟩

theorem Consistent.push (hc : h.Consistent) (score : Score) (hfresh : h.find? id = none) :
    (h.push id score).Consistent where
  toWellLinked := push_wellLinked hc.toWellLinked score hfresh
  children p r := by
    rw [(push_frame h id score r).1, ← hc.children]
    -- The new revision has no children, like a number that is not given out.
    rcases eq_or_ne p h.revisions.size with rfl | hp
    · rw [revision_push_size, revision_of_le (le_refl h.revisions.size)]
      rfl
    · rw [revision_push_of_ne hp]
  irrefl r hr := hc.irrefl r ((isParent_push id score).1 hr)

theorem children_modify (h : History) (q : Rev) {f : Revision → Revision}
    (hf : ∀ revision, (f revision).children = revision.children) (r : Rev) :
    ((h.modify q f).revision r).children = (h.revision r).children := by
  rw [revision_modify]
  split
  · next heq => rw [hf, heq.1]
  · rfl

theorem children_tie (hparent : parent < h.revisions.size) (r : Rev) :
    ((h.tie child parent).revision r).children =
      if r = parent then (h.revision parent).children ++ [child]
      else (h.revision r).children := by
  unfold tie
  dsimp only
  rw [children_modify, revision_modify]
  rcases eq_or_ne r parent with rfl | hr
  · rw [if_pos ⟨rfl, hparent⟩, if_pos rfl]
    rfl
  · rw [if_neg fun heq => hr heq.1, if_neg hr]
    rfl
  · exact fun _ => rfl

theorem links_tie (hchild : child < h.revisions.size) :
    (h.tie child parent).Links c p ↔
      h.Links c p ∨ c = (h.revision child).id ∧ p = (h.revision parent).id := by
  have hid (r : Rev) : ((h.tie child parent).revision r).id = (h.revision r).id :=
    (tie_frame hchild r).1
  constructor
  · rintro ⟨r, q, hlink, rfl, rfl⟩
    rw [hid, hid]
    rcases (isParent_tie hchild).1 hlink with hold | ⟨rfl, rfl⟩
    · exact .inl ⟨r, q, hold, rfl, rfl⟩
    · exact .inr ⟨rfl, rfl⟩
  · rintro (⟨r, q, hold, rfl, rfl⟩ | ⟨rfl, rfl⟩)
    · exact ⟨r, q, (isParent_tie hchild).2 (.inl hold), hid r, hid q⟩
    · exact ⟨child, parent, (isParent_tie hchild).2 (.inr ⟨rfl, rfl⟩), hid child, hid parent⟩

theorem links_link (hchild : child < h.revisions.size) :
    (h.link child parent).Links c p ↔
      h.Links c p ∨ c = (h.revision child).id ∧ p = (h.revision parent).id := by
  rw [(sameLinks_link h child parent).links, links_tie hchild]

section Link

variable (hc : h.Consistent) (hchild : child < h.revisions.size)
  (hparent : parent < h.revisions.size) (hne : child ≠ parent) (hnew : ¬ h.IsParent child parent)
include hc hchild hparent hne hnew

theorem Consistent.tie : (h.tie child parent).Consistent where
  toWellLinked := tie_wellLinked hchild hc.toWellLinked hparent hnew
  children p r := by
    rw [children_tie hparent]
    rcases eq_or_ne r child with rfl | hr
    · rw [parents_tie_self hchild, List.count_append, ← hc.children]
      split
      · next heq => simp [heq]
      · next hp => simp [Ne.symm hp]
    · rw [parents_tie_of_ne hr, ← hc.children]
      split
      · next heq => simp [heq, hr.symm]
      · rfl
  irrefl r hr := by
    rcases (isParent_tie hchild).1 hr with hold | ⟨rfl, heq⟩
    · exact hc.irrefl r hold
    · exact hne heq

theorem Consistent.link : (h.link child parent).Consistent :=
  (hc.tie hchild hparent hne hnew).of_sameLinks (sameLinks_link h child parent)

end Link

private theorem Completed.links {r : Rev} (done : Completed r h h') :
    h'.Links c p ↔ h.Links c p := by
  simp only [Links, done.isParent, done.id]

theorem Consistent.complete (hc : h.Consistent) {r : Rev} (hr : r < h.revisions.size) :
    (h.complete r).Consistent where
  toWellLinked := complete_wellLinked hc.toWellLinked hr
  children p q := by
    rw [(complete_completed hr).children, (complete_completed hr).parents]
    exact hc.children p q
  irrefl q hq := hc.irrefl q ((complete_completed hr).isParent.1 hq)

/-! ## Linking all parents -/

/-- Whether a parent was known or becomes known, it is another revision than one of another name. -/
structure Met (h met : History) (name : CommitId) (parent : Rev) : Prop where
  consistent : met.Consistent
  links : ∀ c p, met.Links c p ↔ h.Links c p
  parent_lt : parent < met.revisions.size
  parent_id : (met.revision parent).id = name

theorem Consistent.meetParent (hc : h.Consistent) {inserted : Bool} {position : Nat}
    {name : CommitId} {met : History}
    (hmeet : h.meetParent inserted child position name = (met, parent)) :
    Met h met name parent := by
  rcases meetParent_cases h inserted child position name with
    ⟨known, hfind, heq⟩ | ⟨hfind, maxScore, score, -, heq⟩
  · obtain ⟨rfl, rfl⟩ := Prod.mk.inj (hmeet.symm.trans heq)
    obtain ⟨hlt, hid⟩ := hc.find?_eq_some_iff.1 hfind
    exact ⟨hc, fun _ _ => .rfl, hlt, hid⟩
  · obtain ⟨rfl, rfl⟩ := Prod.mk.inj (hmeet.symm.trans heq)
    have hsame : SameLinks h { h with maxScore } := ⟨rfl, rfl, rfl, rfl⟩
    have hbump := hc.of_sameLinks hsame
    refine ⟨hbump.push score hfind, fun c p => ?_, ?_, ?_⟩
    · rw [links_push hbump.toWellLinked, hsame.links]
    · rw [size_push]
      exact Nat.lt_succ_self _
    · exact congrArg (·.id) (revision_push_size (h := { h with maxScore }) name score)

section Linking

variable {inserted onlyFirst : Bool} {position : Nat} {names : List CommitId}

/-- The tables agree, and the commit that is added has its number. -/
structure Numbered (h : History) (id : CommitId) (child : Rev) : Prop where
  consistent : h.Consistent
  child_lt : child < h.revisions.size
  child_id : (h.revision child).id = id

theorem Numbered.of_met {met : History} {name : CommitId} (numbered : Numbered h id child)
    (hmeet : h.meetParent inserted child position name = (met, parent)) :
    Numbered met id child := by
  have hgrown : Grown child h met := meetParent_grown hmeet
  exact ⟨(numbered.consistent.meetParent hmeet).consistent,
    numbered.child_lt.trans_le hgrown.size_le,
    (hgrown.id child numbered.child_lt).trans numbered.child_id⟩

theorem Numbered.link (numbered : Numbered h id child) (hparent : parent < h.revisions.size)
    (hne : (h.revision parent).id ≠ id) (hnew : ¬ h.IsParent child parent) :
    Numbered (h.link child parent) id child := by
  have hgrown := link_grown numbered.child_lt parent
  refine ⟨numbered.consistent.link numbered.child_lt hparent ?_ hnew,
    numbered.child_lt.trans_le hgrown.size_le,
    (hgrown.id child numbered.child_lt).trans numbered.child_id⟩
  rintro rfl
  exact hne numbered.child_id

/-- Each name is met, and then it is linked if that is not so yet. What both keep is kept by all of
it. -/
theorem Numbered.induction {P : History → Prop} (numbered : Numbered h id child) (start : P h)
    (meet : ∀ {g met : History} {position : Nat} {name : CommitId} {parent : Rev},
      Numbered g id child → g.meetParent inserted child position name = (met, parent) → P g → P met)
    (link : ∀ {g : History} {parent : Rev}, Numbered g id child → parent < g.revisions.size →
      (g.revision parent).id ∈ names → ¬ g.IsParent child parent → P g → P (g.link child parent)) :
    Numbered (linkParents inserted onlyFirst id child position names h) id child ∧
      P (linkParents inserted onlyFirst id child position names h) := by
  induction names generalizing h position with
  | nil => exact ⟨numbered, start⟩
  | cons name names ih =>
    have hrest : ∀ {g : History} {parent : Rev}, Numbered g id child → parent < g.revisions.size →
        (g.revision parent).id ∈ names → ¬ g.IsParent child parent → P g → P (g.link child parent) :=
      fun hg hlt hmem => link hg hlt (List.mem_cons_of_mem _ hmem)
    unfold linkParents
    split
    · exact ih numbered start hrest
    · next hother =>
      rcases hmeet : h.meetParent inserted child position name with ⟨met, parent⟩
      have hmet := numbered.of_met hmeet
      have hkept := meet numbered hmeet start
      have hparent := numbered.consistent.meetParent hmeet
      dsimp only
      split
      · exact ih hmet hkept hrest
      · next hnew =>
        have hlink := hmet.link hparent.parent_lt (hparent.parent_id ▸ hother) hnew
        have hlinked :=
          link hmet hparent.parent_lt (hparent.parent_id ▸ List.mem_cons_self) hnew hkept
        split
        · exact ⟨hlink, hlinked⟩
        · exact ih hlink hlinked hrest

theorem Numbered.linkParents (numbered : Numbered h id child) :
    Numbered (linkParents inserted onlyFirst id child position names h) id child :=
  (numbered.induction (P := fun _ => True) trivial (fun _ _ _ => trivial)
    fun _ _ _ _ _ => trivial).1

/-- No link comes up that the commit does not name, whether or not only the first one counts. -/
theorem Numbered.of_links_linkParents (numbered : Numbered h id child)
    (hlink : (History.linkParents inserted onlyFirst id child position names h).Links c p) :
    h.Links c p ∨ c = id ∧ p ∈ names := by
  refine And.right (a := Numbered
    (History.linkParents inserted onlyFirst id child position names h) id child)
    (numbered.induction (P := fun g => g.Links c p → h.Links c p ∨ c = id ∧ p ∈ names)
      .inl ?_ ?_) hlink
  · intro g met position name parent hg hmeet hkept hmet
    exact hkept (((hg.consistent.meetParent hmeet).links c p).1 hmet)
  · intro g parent hg _ hmem _ hkept hlinked
    rcases (links_link hg.child_lt).1 hlinked with hold | ⟨rfl, rfl⟩
    · exact hkept hold
    · exact .inr ⟨hg.child_id, hmem⟩

/-- The commit gets linked to all that it names but itself. -/
theorem Numbered.links_linkParents (numbered : Numbered h id child) :
    (History.linkParents inserted false id child position names h).Links c p ↔
      h.Links c p ∨ c = id ∧ p ∈ names ∧ p ≠ c := by
  induction names generalizing h position with
  | nil => simp [History.linkParents]
  | cons name names ih =>
    unfold History.linkParents
    split
    · next hself =>
      rw [ih numbered]
      grind
    · next hother =>
      rcases hmeet : h.meetParent inserted child position name with ⟨met, parent⟩
      have hmet := numbered.of_met hmeet
      have hparent := numbered.consistent.meetParent hmeet
      dsimp only
      split
      · next hold =>
        -- The parent is linked, by an earlier name or before.
        have hlinked : h.Links id name :=
          (hparent.links id name).1 ⟨child, parent, hold, hmet.child_id, hparent.parent_id⟩
        rw [ih hmet, hparent.links]
        grind
      · next hnew =>
        have hlink := hmet.link hparent.parent_lt (hparent.parent_id ▸ hother) hnew
        rw [if_neg Bool.false_ne_true, ih hlink, links_link hmet.child_lt, hparent.links,
          hmet.child_id, hparent.parent_id]
        grind

end Linking

/-! ## A commit arrives -/

private theorem Grown.names (grown : Grown child h h') (hw : h.WellLinked) :
    h'.names = h.names := by
  unfold History.names
  rw [grown.arrived_eq]
  exact List.map_congr_left fun r hr => grown.id r (hw.completed_lt hr)

theorem Numbered.names_complete (numbered : Numbered h id child) :
    (h.complete child).names = if id ∈ h.names then h.names else h.names ++ [id] := by
  have hc := numbered.consistent
  have hid := (complete_completed numbered.child_lt).id
  have hlisted : id ∈ h.names ↔ (h.revision child).completed = true := by
    unfold History.names
    rw [List.mem_map]
    constructor
    · rintro ⟨r, hr, heq⟩
      -- No other revision has this name.
      have hsame := hc.id_inj r (hc.completed_lt hr) child numbered.child_lt
        (heq.trans numbered.child_id.symm)
      exact (hc.mem_arrived child).1 (hsame ▸ hr)
    · exact fun hcompleted => ⟨child, (hc.mem_arrived child).2 hcompleted, numbered.child_id⟩
  have harrived : (h.complete child).arrived =
      if (h.revision child).completed = true then h.arrived else h.arrived ++ [child] := rfl
  unfold History.names at hlisted ⊢
  simp only [hid, harrived, hlisted]
  split
  · rfl
  · rw [List.map_append, List.map_singleton, numbered.child_id]

/-- An inserted row that is known already is not linked to anything. -/
def Arrival.Effective (h : History) (a : Arrival) : Prop := a.insertion = none ∨ h.find? a.id = none

section Arrive

variable (hc : h.Consistent)
include hc

/-- A commit that gets its number gets no links by that. -/
theorem Consistent.enroll {insertion : Option Insertion} {added : Added}
    (henroll : Enrollment h id insertion added) :
    Numbered added.history id added.revision ∧
      (∀ c p, added.history.Links c p ↔ h.Links c p) ∧
      (added.linked = true ↔ insertion = none ∨ h.find? id = none) := by
  have hlt := henroll.lt hc.filed
  cases henroll with
  | fresh hfind =>
    have hbump := hc.of_sameLinks (sameLinks_bump h)
    refine ⟨⟨hbump.push _ hfind, hlt, ?_⟩, fun c p => ?_, by simp⟩
    · exact congrArg (·.id) (revision_push_size (h := h.bump) id _)
    · rw [links_push hbump.toWellLinked, (sameLinks_bump h).links]
  | @inserted place hfind =>
    have hsame := sameLinks_gap h place
    have hgap := hc.of_sameLinks hsame
    refine ⟨⟨hgap.push _ ((hsame.find? id).trans hfind), hlt, ?_⟩, fun c p => ?_, by simp [hfind]⟩
    · rw [← hsame.size, revision_push_size]
    · rw [links_push hgap.toWellLinked, hsame.links]
  | @moved r hfind =>
    have hsame := sameLinks_bump_raise h r (h.maxScore + 1)
    exact ⟨⟨hc.of_sameLinks hsame, hlt, (hsame.id r).trans (hc.find?_eq_some_iff.1 hfind).2⟩,
      fun c p => hsame.links, by simp⟩
  | kept hfind =>
    exact ⟨⟨hc.of_sameLinks (sameLinks_bump h), hlt, (hc.find?_eq_some_iff.1 hfind).2⟩,
      fun c p => (sameLinks_bump h).links, by simp [hfind]⟩

variable (a : Arrival)

theorem Consistent.exists_connected : ∃ mid, Numbered mid a.id (h.added a).revision ∧
    Grown (h.added a).revision h mid ∧ h.arrive a = mid.complete (h.added a).revision ∧
    (a.onlyFirst = false → ∀ c p, mid.Links c p ↔
      h.Links c p ∨ c = a.id ∧ p ∈ a.parents ∧ p ≠ c ∧ a.Effective h) := by
  have henroll := enroll_enrollment h a.id a.insertion
  obtain ⟨hnumbered, hlinks, hlinked⟩ := hc.enroll henroll
  have hgrown := connect_grown a.id a.parents a.insertion.isSome a.onlyFirst hnumbered.child_lt
  refine ⟨connect (h.enroll a.id a.insertion) a.id a.parents a.insertion.isSome a.onlyFirst, ?_,
    henroll.grown.trans hgrown, rfl, fun honly c p => ?_⟩
  · unfold connect
    split
    · exact hnumbered.linkParents
    · exact hnumbered
  · unfold connect
    split
    · next htrue =>
      rw [honly, hnumbered.links_linkParents, hlinks]
      simp [Arrival.Effective, hlinked.1 htrue]
    · next hfalse =>
      rw [hlinks]
      simp [Arrival.Effective, mt hlinked.2 hfalse]

theorem Consistent.arrive : (h.arrive a).Consistent := by
  obtain ⟨mid, hmid, -, heq, -⟩ := hc.exists_connected a
  rw [heq]
  exact hmid.consistent.complete hmid.child_lt

theorem Consistent.links_arrive (honly : a.onlyFirst = false) (c p : CommitId) :
    (h.arrive a).Links c p ↔
      h.Links c p ∨ c = a.id ∧ p ∈ a.parents ∧ p ≠ c ∧ a.Effective h := by
  obtain ⟨mid, hmid, -, heq, hlinks⟩ := hc.exists_connected a
  rw [heq, (complete_completed hmid.child_lt).links]
  exact hlinks honly c p

/-- A link that comes up is named by the commit. -/
theorem Consistent.of_links_arrive (hlink : (h.arrive a).Links c p) :
    h.Links c p ∨ c = a.id ∧ p ∈ a.parents := by
  have henroll := enroll_enrollment h a.id a.insertion
  obtain ⟨hnumbered, hlinks, -⟩ := hc.enroll henroll
  have hconnect := connect_grown a.id a.parents a.insertion.isSome a.onlyFirst hnumbered.child_lt
  have hmid : (connect (h.enroll a.id a.insertion) a.id a.parents a.insertion.isSome
      a.onlyFirst).Links c p :=
    (complete_completed (hnumbered.child_lt.trans_le hconnect.size_le)).links.1 hlink
  unfold connect at hmid
  split at hmid
  · rw [← hlinks]
    exact hnumbered.of_links_linkParents hmid
  · exact .inl ((hlinks c p).1 hmid)

/-- The commit has got its number and its links, and then it is completed. -/
theorem Consistent.exists_completed : ∃ mid, Numbered mid a.id (h.added a).revision ∧
    Grown (h.added a).revision h mid ∧ Completed (h.added a).revision mid (h.arrive a) := by
  obtain ⟨mid, hmid, hgrown, heq, -⟩ := hc.exists_connected a
  rw [heq]
  exact ⟨mid, hmid, hgrown, complete_completed hmid.child_lt⟩

/-- Nobody else gets parents. -/
theorem Consistent.isParent_arrive_of_ne {r q : Rev} (hr : r ≠ (h.added a).revision) :
    (h.arrive a).IsParent r q ↔ h.IsParent r q := by
  obtain ⟨mid, -, hgrown, hdone⟩ := hc.exists_completed a
  rw [hdone.isParent, IsParent, hgrown.parents r hr]
  exact .rfl

/-- A name that is known stays with its revision. -/
theorem Consistent.find?_arrive {name : CommitId} {r : Rev} (hfind : h.find? name = some r) :
    (h.arrive a).find? name = some r := by
  obtain ⟨mid, hmid, hgrown, hdone⟩ := hc.exists_completed a
  obtain ⟨hr, hid⟩ := hc.find?_eq_some_iff.1 hfind
  refine (hc.arrive a).find?_eq_some_iff.2 ⟨?_, ?_⟩
  · rw [hdone.size]
    exact hr.trans_le hgrown.size_le
  · rw [hdone.id, hgrown.id r hr, hid]

/-- A commit is listed when it arrives for the first time. -/
theorem Consistent.names_arrive :
    (h.arrive a).names = if a.id ∈ h.names then h.names else h.names ++ [a.id] := by
  obtain ⟨mid, hmid, hgrown, heq, -⟩ := hc.exists_connected a
  rw [heq, hmid.names_complete, hgrown.names hc.toWellLinked]

theorem Consistent.completed_of_arrive
    (hsettled : ∀ c p, h.IsParent c p → (h.revision c).completed = true) {c p : Rev}
    (hlink : (h.arrive a).IsParent c p) : ((h.arrive a).revision c).completed = true := by
  obtain ⟨mid, hmid, hgrown, heq, -⟩ := hc.exists_connected a
  rw [heq] at hlink ⊢
  exact hgrown.completed_of_complete hmid.child_lt hsettled hlink

end Arrive

/-! ## Any number of additions -/

theorem addAll_concat (h : History) (arrivals : List Arrival) (a : Arrival) :
    h.addAll (arrivals ++ [a]) = (h.addAll arrivals).arrive a :=
  List.foldl_concat ..

theorem consistent_addAll (arrivals : List Arrival) : (addAll {} arrivals).Consistent := by
  induction arrivals using List.reverseRecOn with
  | nil => exact consistent_empty
  | append_singleton arrivals a ih =>
    rw [addAll_concat]
    exact ih.arrive a

/-- Only commits that have arrived have parents. -/
theorem completed_of_addAll (arrivals : List Arrival) {c p : Rev}
    (hlink : (addAll {} arrivals).IsParent c p) :
    ((addAll {} arrivals).revision c).completed = true := by
  induction arrivals using List.reverseRecOn generalizing c p with
  | nil => exact absurd hlink.child_lt (Nat.not_lt_zero c)
  | append_singleton arrivals a ih =>
    rw [addAll_concat] at hlink ⊢
    exact (consistent_addAll arrivals).completed_of_arrive a (fun _ _ hold => ih hold) hlink

/-- Commits are listed in the order in which they were first added. -/
theorem names_addAll (arrivals : List Arrival) :
    (addAll {} arrivals).names = (arrivals.map (·.id)).eraseDups := by
  induction arrivals using List.reverseRecOn with
  | nil => rfl
  | append_singleton arrivals a ih =>
    rw [addAll_concat, (consistent_addAll arrivals).names_arrive, ih, List.map_append,
      List.eraseDups_append, List.map_singleton]
    generalize arrivals.map (·.id) = ids
    by_cases hold : a.id ∈ ids
    · simp [List.removeAll, hold]
    · simp [List.removeAll, List.eraseDups_cons, hold]

/-- A link is one that an addition of the child names. -/
theorem links_addAll (arrivals : List Arrival) (honly : ∀ a ∈ arrivals, a.onlyFirst = false)
    (c p : CommitId) :
    (addAll {} arrivals).Links c p ↔ ∃ before a after, arrivals = before ++ a :: after ∧
      c = a.id ∧ p ∈ a.parents ∧ p ≠ c ∧ a.Effective (addAll {} before) := by
  induction arrivals using List.reverseRecOn with
  | nil =>
    refine iff_of_false not_links_empty ?_
    rintro ⟨before, a, after, heq, -⟩
    exact List.append_ne_nil_of_right_ne_nil before (List.cons_ne_nil a after) heq.symm
  | append_singleton arrivals a ih =>
    have hrest := ih fun b hb => honly b (List.mem_append_left _ hb)
    rw [addAll_concat, (consistent_addAll arrivals).links_arrive a
      (honly a List.mem_concat_self), hrest]
    constructor
    · rintro (⟨before, b, after, rfl, hlink⟩ | hlink)
      · exact ⟨before, b, after ++ [a], by simp, hlink⟩
      · exact ⟨arrivals, a, [], rfl, hlink⟩
    · rintro ⟨before, b, after, heq, hlink⟩
      rcases List.eq_nil_or_concat after with rfl | ⟨rest, last, rfl⟩
      · obtain ⟨rfl, hlast⟩ := List.append_inj' heq rfl
        cases hlast
        exact .inr hlink
      · rw [List.concat_eq_append, ← List.cons_append, ← List.append_assoc] at heq
        obtain ⟨rfl, -⟩ := List.append_inj' heq rfl
        exact .inl ⟨before, b, rest, rfl, hlink⟩

/-- Whatever is added, names and numbers of revisions determine each other. The segments that start at
a revision are those to its parents, in the same order, and each segment starts once. Children mirror
parents, of which none is listed twice or its own child. Commits are listed once they are completed, in
the order in which they were first added, and nobody else has parents. One commit is linked to another
exactly if it was added with that one as a parent, and not as an inserted row that was known. -/
theorem tables_addAll (arrivals : List Arrival) :
    let h := addAll {} arrivals
    (∀ id r, h.find? id = some r ↔ r < h.revisions.size ∧ (h.revision r).id = id) ∧
      (∀ r < h.revisions.size, ∀ q < h.revisions.size,
        (h.revision r).id = (h.revision q).id → r = q) ∧
      (∀ r, (h.revision r).starts.map h.segment = (h.parents r).map (Segment.mk r)) ∧
      ((List.range h.revisions.size).flatMap fun r => (h.revision r).starts).Perm
        (List.range h.segments.size) ∧
      (∀ p r, (h.revision p).children.count r = (h.parents r).count p) ∧
      (∀ r, (h.parents r).Nodup ∧ r ∉ h.parents r) ∧
      h.arrived.Nodup ∧
      (∀ r, r ∈ h.arrived ↔ (h.revision r).completed = true) ∧
      h.names = (arrivals.map (·.id)).eraseDups ∧
      (∀ c p, p ∈ h.parents c → (h.revision c).completed = true) ∧
      ((∀ a ∈ arrivals, a.onlyFirst = false) → ∀ c p, h.Links c p ↔
        ∃ before a after, arrivals = before ++ a :: after ∧
          c = a.id ∧ p ∈ a.parents ∧ p ≠ c ∧ a.Effective (addAll {} before)) := by
  have hc := consistent_addAll arrivals
  exact ⟨fun _ _ => hc.find?_eq_some_iff, hc.id_inj, hc.segment_starts, hc.starts_perm, hc.children,
    fun r => ⟨hc.parents_nodup r, hc.irrefl r⟩, hc.arrived_nodup, hc.mem_arrived,
    names_addAll arrivals, fun _ _ hlink => completed_of_addAll arrivals hlink,
    links_addAll arrivals⟩

/-- A commit that is added with itself and one name twice among its parents, a row that is inserted
and then inserted again with another parent, and the commit once more. -/
def repeatedArrivals : List Arrival := [
  { id := .repeated 1, parents := [.repeated 2, .repeated 1, .repeated 2] },
  { id := .workTree, parents := [.repeated 1], insertion := some ⟨1, 1⟩ },
  { id := .workTree, parents := [.repeated 2], insertion := some ⟨1, 1⟩ },
  { id := .repeated 1, parents := [.repeated 3] }]

theorem tables_addAll_repeatedArrivals :
    (∀ a ∈ repeatedArrivals, a.onlyFirst = false) ∧
      let h := addAll {} repeatedArrivals
      h.names = [.repeated 1, .workTree] ∧ h.Links (.repeated 1) (.repeated 3) ∧
        h.Links .workTree (.repeated 1) ∧ (h.revision 2).parents = [0] ∧
        (h.revision 0).children.count 2 = 1 := by
  have honly : ∀ a ∈ repeatedArrivals, a.onlyFirst = false := by decide
  obtain ⟨-, -, -, -, hchildren, -, -, -, hnames, -, hlinks⟩ := tables_addAll repeatedArrivals
  refine ⟨honly, hnames.trans (by decide +kernel), ?_, ?_, by decide +kernel, ?_⟩
  · exact (hlinks honly _ _).2
      ⟨repeatedArrivals.take 3, _, [], rfl, rfl, by decide, by decide, .inl rfl⟩
  · exact (hlinks honly _ _).2
      ⟨repeatedArrivals.take 1, _, _, rfl, rfl, by decide, by decide, .inr (by decide +kernel)⟩
  · rw [hchildren]
    decide +kernel

end CommitLanes.History
