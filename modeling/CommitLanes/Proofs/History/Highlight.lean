import CommitLanes.Proofs.History.Tables
import CommitLanes.Proofs.Reach

/-! # Relatives

The mark of a relative is set by a search that stops at revisions that have it, and by every link of a
relative that comes later. The marks are closed under parents at any time, and so the search misses
nothing: the relatives are one revision and its ancestors, whatever has been added since. -/

namespace CommitLanes.History

variable {h h' h'' : History} {focus : Option Rev} {child parent : Rev} {id : CommitId}

/-- The relatives are the revision in focus and its ancestors. -/
structure Highlighted (h : History) (focus : Option Rev) : Prop where
  mem : ∀ q ∈ focus, (h.revision q).relative = true
  closed : ∀ c p, (h.revision c).relative = true → h.IsParent c p → (h.revision p).relative = true
  sound : ∀ r, (h.revision r).relative = true → ∃ q ∈ focus, LeadsTo h.parents q r

theorem Highlighted.relative_iff (highlighted : Highlighted h focus) (r : Rev) :
    (h.revision r).relative = true ↔ ∃ q ∈ focus, r = q ∨ h.IsAncestor q r := by
  constructor
  · intro hr
    obtain ⟨q, hq, hleads⟩ := highlighted.sound r hr
    exact ⟨q, hq, Relation.reflTransGen_iff_eq_or_transGen.1 hleads⟩
  · rintro ⟨q, hq, hline⟩
    have hleads : LeadsTo h.parents q r := Relation.reflTransGen_iff_eq_or_transGen.2 hline
    clear hline
    induction hleads with
    | refl => exact highlighted.mem q hq
    | tail _ hlink ih => exact highlighted.closed _ _ ih hlink

theorem highlighted_empty : Highlighted {} none where
  mem q hq := absurd hq (Option.not_mem_none q)
  closed c p _ hp := absurd hp.child_lt (Nat.not_lt_zero c)
  sound r hr := by
    rw [revision_of_le (Nat.zero_le r)] at hr
    exact absurd hr Bool.false_ne_true

private theorem relative_lt {r : Rev} (hr : (h.revision r).relative = true) :
    r < h.revisions.size := by
  by_contra hge
  rw [revision_of_le (Nat.le_of_not_lt hge)] at hr
  exact absurd hr Bool.false_ne_true

/-! ## Changes that leave the relatives alone -/

/-- The second history has the same links and the same relatives as the first. -/
structure SameRelatives (h h' : History) : Prop where
  relative : ∀ r, (h'.revision r).relative = (h.revision r).relative
  parents : ∀ r, h'.parents r = h.parents r

namespace SameRelatives

theorem refl (h : History) : SameRelatives h h := ⟨fun _ => rfl, fun _ => rfl⟩

theorem trans (first : SameRelatives h h') (second : SameRelatives h' h'') : SameRelatives h h'' :=
  ⟨fun r => (second.relative r).trans (first.relative r),
    fun r => (second.parents r).trans (first.parents r)⟩

/-- What else is remembered does not matter. -/
theorem of_revisions_eq (heq : h'.revisions = h.revisions) : SameRelatives h h' := by
  have hrevision (r : Rev) : h'.revision r = h.revision r := by rw [revision, heq, revision]
  exact ⟨fun r => congrArg (·.relative) (hrevision r), fun r => congrArg (·.parents) (hrevision r)⟩

private theorem isParent (same : SameRelatives h h') {c p : Rev} :
    h'.IsParent c p ↔ h.IsParent c p := by
  simp only [IsParent, same.parents]

end SameRelatives

theorem Highlighted.of_same (highlighted : Highlighted h focus) (same : SameRelatives h h') :
    Highlighted h' focus where
  mem q hq := (same.relative q).trans (highlighted.mem q hq)
  closed c p hc hp := by
    rw [same.relative] at hc ⊢
    exact highlighted.closed c p hc (same.isParent.1 hp)
  sound r hr := by
    rw [same.relative] at hr
    have hparents : h'.parents = h.parents := funext same.parents
    rw [hparents]
    exact highlighted.sound r hr

theorem sameRelatives_modify (r : Rev) {f : Revision → Revision}
    (hrelative : ∀ revision, (f revision).relative = revision.relative)
    (hparents : ∀ revision, (f revision).parents = revision.parents) :
    SameRelatives h (h.modify r f) := by
  have hrevision (q : Rev) : (h.modify r f).revision q = f (h.revision q) ∨
      (h.modify r f).revision q = h.revision q := by
    rw [revision_modify]
    split
    · next heq => exact .inl (by rw [heq.1])
    · exact .inr rfl
  refine ⟨fun q => ?_, fun q => ?_⟩
  · rcases hrevision q with heq | heq
    · rw [heq, hrelative]
    · rw [heq]
  · rcases hrevision q with heq | heq
    · rw [parents, heq, hparents, parents]
    · rw [parents, heq, parents]

theorem sameRelatives_setScore (h : History) (r : Rev) (score : Score) :
    SameRelatives h (h.setScore r score) := by
  have hset (g : History) : SameRelatives g (g.modify r ({ · with score })) :=
    sameRelatives_modify r (fun _ => rfl) fun _ => rfl
  have hdisturb : SameRelatives h (h.disturb (h.score r)) := .of_revisions_eq rfl
  unfold setScore
  split
  · exact hdisturb.trans (hset _)
  · exact hset _

theorem sameRelatives_raiseWithin (depth : Nat) (r : Rev) (minimal : Score) (h : History) :
    SameRelatives h (raiseWithin depth r minimal h) := by
  induction depth generalizing r minimal h with
  | zero => exact .of_revisions_eq rfl
  | succ depth ih =>
    have hfold (g : History) (parents : List Rev) : SameRelatives g
        (parents.foldr (fun parent => raiseWithin depth parent (minimal + 1)) g) := by
      induction parents with
      | nil => exact .refl g
      | cons p rest ihrest => exact ihrest.trans (ih p _ _)
    have hmax (g : History) (score : Score) : SameRelatives g (g.raiseMax score) :=
      .of_revisions_eq rfl
    unfold raiseWithin
    split
    · exact hmax h _
    · exact ((sameRelatives_setScore h r minimal).trans (hmax _ _)).trans (hfold _ _)

theorem sameRelatives_raise (h : History) (r : Rev) (minimal : Score) :
    SameRelatives h (h.raise r minimal) :=
  sameRelatives_raiseWithin _ _ _ _

theorem sameRelatives_openGap (insertion : Insertion) (h : History) :
    SameRelatives h (h.openGap insertion) := by
  refine List.foldlRecOn _ _ (.refl h) fun g same r _ => same.trans ?_
  unfold makeWay
  split
  · exact sameRelatives_setScore g r _
  · exact .refl g

theorem sameRelatives_push (h : History) (id : CommitId) (score : Score) :
    SameRelatives h (h.push id score) := by
  refine ⟨fun r => ?_, fun r => (push_frame h id score r).1⟩
  rcases eq_or_ne r h.revisions.size with rfl | hr
  · rw [revision_push_size, revision_of_le (le_refl h.revisions.size)]
    rfl
  · rw [revision_push_of_ne hr]

theorem sameRelatives_complete (h : History) (r : Rev) : SameRelatives h (h.complete r) := by
  have hmark : SameRelatives h (h.modify r ({ · with completed := true })) :=
    sameRelatives_modify r (fun _ => rfl) fun _ => rfl
  exact hmark.trans (.of_revisions_eq rfl)

theorem sameRelatives_rank (h : History) (row : Nat) : SameRelatives h (h.rank row) := by
  unfold rank
  split
  · exact .refl h
  · exact .of_revisions_eq rfl

theorem sameRelatives_meetParent {inserted : Bool} {position : Nat} {name : CommitId}
    {met : History} (hmeet : h.meetParent inserted child position name = (met, parent)) :
    SameRelatives h met := by
  rcases meetParent_cases h inserted child position name with
    ⟨known, -, heq⟩ | ⟨-, maxScore, score, -, heq⟩
  · rw [← (Prod.mk.inj (hmeet.symm.trans heq)).1]
    exact .refl _
  · have hbump : SameRelatives h { h with maxScore } := .of_revisions_eq rfl
    rw [(Prod.mk.inj (hmeet.symm.trans heq)).1]
    exact hbump.trans (sameRelatives_push _ name score)

private theorem Enrollment.sameRelatives {insertion : Option Insertion} {added : Added}
    (henroll : Enrollment h id insertion added) : SameRelatives h added.history := by
  have hbump : SameRelatives h h.bump := .of_revisions_eq rfl
  cases henroll with
  | fresh hfind => exact hbump.trans (sameRelatives_push _ _ _)
  | @inserted place hfind =>
    have hgap := hbump.trans (sameRelatives_openGap place h.bump)
    have hdisturb : SameRelatives h ((h.bump.openGap place).disturb place.start) :=
      hgap.trans (.of_revisions_eq rfl)
    exact hdisturb.trans (sameRelatives_push _ _ _)
  | moved hfind => exact hbump.trans (sameRelatives_raise _ _ _)
  | kept hfind => exact hbump

/-! ## Marking relatives -/

private theorem mem_relatives {r : Rev} : r ∈ h.relatives ↔ (h.revision r).relative = true := by
  unfold relatives
  rw [List.mem_filter, List.mem_range]
  exact ⟨fun hr => hr.2, fun hr => ⟨relative_lt hr, hr⟩⟩

theorem relative_setRelatives (rs : List Rev) (r : Rev) :
    ((h.setRelatives rs).revision r).relative = true ↔ r < h.revisions.size ∧ r ∈ rs := by
  rcases Nat.lt_or_ge r h.revisions.size with hr | hr
  · have hsize : r < (h.setRelatives rs).revisions.size := by simpa [setRelatives] using hr
    rw [revision_of_lt hsize]
    simp [setRelatives, hr]
  · have hsize : (h.setRelatives rs).revisions.size ≤ r := by simpa [setRelatives] using hr
    rw [revision_of_le hsize]
    exact iff_of_false Bool.false_ne_true fun hmem => hr.not_gt hmem.1

theorem sameLinks_setRelatives (h : History) (rs : List Rev) : SameLinks h (h.setRelatives rs) :=
  (raised_setRelatives rs).toSameLinks

/-- A search adds what it is asked for, closed under parents. -/
private theorem reached_relatives (hrange : h.InRange) {r : Rev} (hr : r < h.revisions.size) :
    Reached h.parents h.relatives [r] (reach h.parents (h.revisions.size + 1) h.relatives r) :=
  have hclosed : ∀ c ∈ Finset.range h.revisions.size, ∀ p ∈ h.parents c,
      p ∈ Finset.range h.revisions.size := fun c _ p hp => Finset.mem_range.2 (hrange c p hp)
  reached_reach hclosed (Finset.mem_range.2 hr)
    (Nat.lt_succ_of_le ((unseen_le _ _).trans_eq (Finset.card_range _)))

/-- The relatives are right if they are set to what is in focus and to its ancestors. -/
theorem highlighted_setRelatives {rs : List Rev} (hrange : h.InRange)
    (hfocus : ∀ q ∈ focus, q < h.revisions.size ∧ q ∈ rs)
    (hclosed : ∀ c ∈ rs, ∀ p, h.IsParent c p → p ∈ rs)
    (hsound : ∀ r ∈ rs, ∃ q ∈ focus, LeadsTo h.parents q r) :
    Highlighted (h.setRelatives rs) focus where
  mem q hq := (relative_setRelatives rs q).2 (hfocus q hq)
  closed c p hc hp := by
    have hlink := (sameLinks_setRelatives h rs).isParent.1 hp
    exact (relative_setRelatives rs p).2
      ⟨hrange c p hlink, hclosed c ((relative_setRelatives rs c).1 hc).2 p hlink⟩
  sound r hr := by
    have hparents : (h.setRelatives rs).parents = h.parents :=
      funext (sameLinks_setRelatives h rs).parents
    rw [hparents]
    exact hsound r ((relative_setRelatives rs r).1 hr).2

/-- To highlight a commit forgets what was highlighted before. -/
theorem highlighted_highlight (hw : h.WellLinked) (id : CommitId) :
    Highlighted (h.highlight id) (h.find? id) := by
  have hsame := sameLinks_setRelatives h []
  have hnone (r : Rev) : ((h.setRelatives []).revision r).relative ≠ true :=
    fun hr => List.not_mem_nil ((relative_setRelatives [] r).1 hr).2
  unfold highlight
  dsimp only
  rw [hsame.find?]
  cases hfind : h.find? id with
  | none =>
    exact ⟨fun q hq => absurd hq (Option.not_mem_none q), fun c _ hc => absurd hc (hnone c),
      fun r hr => absurd hr (hnone r)⟩
  | some r =>
    have hrange := hsame.inRange hw.inRange
    have hr : r < (h.setRelatives []).revisions.size :=
      hsame.size ▸ (hw.find?_eq_some_iff.1 hfind).1
    have hreached := reached_relatives hrange hr
    have hseen (q : Rev) : q ∉ (h.setRelatives []).relatives :=
      fun hq => hnone q (mem_relatives.1 hq)
    refine highlighted_setRelatives hrange (fun q hq => ?_) (fun c hc p hp => ?_)
      fun q hq => ?_
    · cases hq
      exact ⟨hr, hreached.nodes_subset (List.mem_singleton_self r)⟩
    · exact (hreached.closed c hc).resolve_left (hseen c) hp
    · obtain ⟨t, ht, hleads⟩ := (hreached.sound q hq).resolve_left (hseen q)
      exact ⟨r, rfl, List.mem_singleton.1 ht ▸ hleads⟩

/-! ## A link -/

section Tie

variable (hchild : child < h.revisions.size)
include hchild

theorem relative_tie (parent r : Rev) :
    ((h.tie child parent).revision r).relative = (h.revision r).relative := by
  rcases eq_or_ne r child with rfl | hr
  · obtain ⟨children, heq⟩ := revision_tie_self hchild parent
    rw [heq]
  · obtain ⟨children, heq⟩ := revision_tie_of_ne h parent hr
    rw [heq]

theorem leadsTo_tie {q r : Rev} (hleads : LeadsTo h.parents q r) :
    LeadsTo (h.tie child parent).parents q r :=
  Relation.ReflTransGen.mono (fun _ _ hold => (isParent_tie hchild).2 (.inl hold)) q r hleads

/-- A link of one that is not a relative leads no relative anywhere. -/
theorem Highlighted.tie (highlighted : Highlighted h focus)
    (hunmarked : (h.revision child).relative ≠ true) : Highlighted (h.tie child parent) focus where
  mem q hq := (relative_tie hchild parent q).trans (highlighted.mem q hq)
  closed c p hc hp := by
    rw [relative_tie hchild] at hc ⊢
    rcases (isParent_tie hchild).1 hp with hold | ⟨rfl, -⟩
    · exact highlighted.closed c p hc hold
    · exact absurd hc hunmarked
  sound r hr := by
    rw [relative_tie hchild] at hr
    obtain ⟨q, hq, hleads⟩ := highlighted.sound r hr
    exact ⟨q, hq, leadsTo_tie hchild hleads⟩

/-- A link of a relative makes relatives of the parent and its ancestors. -/
private theorem Highlighted.addRelative (highlighted : Highlighted h focus) (hrange : h.InRange)
    (hparent : parent < h.revisions.size) (hmarked : (h.revision child).relative = true) :
    Highlighted ((h.tie child parent).addRelative parent) focus := by
  have htied := inRange_tie hchild hrange hparent
  have hreached := reached_relatives htied (r := parent) (size_tie.symm ▸ hparent)
  have hseen {r : Rev} : r ∈ (h.tie child parent).relatives ↔ (h.revision r).relative = true := by
    rw [mem_relatives, relative_tie hchild]
  refine highlighted_setRelatives htied (fun q hq => ?_) (fun c hc p hp => ?_) fun r hr => ?_
  · have hfocus := highlighted.mem q hq
    exact ⟨size_tie.symm ▸ relative_lt hfocus, hreached.seen_subset (hseen.2 hfocus)⟩
  · rcases hreached.closed c hc with hold | hall
    · -- It was a relative before, and so were its parents but for the new one.
      rcases (isParent_tie hchild).1 hp with hp | ⟨rfl, rfl⟩
      · exact hreached.seen_subset (hseen.2 (highlighted.closed c p (hseen.1 hold) hp))
      · exact hreached.nodes_subset (List.mem_singleton_self p)
    · exact hall hp
  · rcases hreached.sound r hr with hold | ⟨p, hp, hleads⟩
    · obtain ⟨q, hq, hleads⟩ := highlighted.sound r (hseen.1 hold)
      exact ⟨q, hq, leadsTo_tie hchild hleads⟩
    · -- The line leads over the child, which is a relative.
      cases List.mem_singleton.1 hp
      obtain ⟨q, hq, hold⟩ := highlighted.sound child hmarked
      have hstep : (h.tie child parent).IsParent child parent :=
        (isParent_tie hchild).2 (.inr ⟨rfl, rfl⟩)
      exact ⟨q, hq, ((leadsTo_tie hchild hold).tail hstep).trans hleads⟩

theorem Highlighted.link (highlighted : Highlighted h focus) (hrange : h.InRange)
    (hparent : parent < h.revisions.size) : Highlighted (h.link child parent) focus := by
  have hmarked : Highlighted ((h.tie child parent).mark child parent) focus := by
    unfold mark
    rw [relative_tie hchild]
    split
    · next hmarked => exact highlighted.addRelative hchild hrange hparent hmarked
    · next hunmarked => exact highlighted.tie hchild hunmarked
  rw [link_eq]
  exact hmarked.of_same (sameRelatives_raise _ _ _)

end Tie

/-! ## A commit arrives -/

/-- Whatever is added, the branch that is highlighted stays highlighted. -/
theorem Highlighted.arrive (highlighted : Highlighted h focus) (hc : h.Consistent) (a : Arrival) :
    Highlighted (h.arrive a) focus := by
  have henroll := enroll_enrollment h a.id a.insertion
  obtain ⟨hnumbered, -, -⟩ := hc.enroll henroll
  have hfirst := highlighted.of_same henroll.sameRelatives
  have hconnect : Highlighted
      (connect (h.enroll a.id a.insertion) a.id a.parents a.insertion.isSome a.onlyFirst) focus := by
    unfold connect
    split
    · exact (hnumbered.induction (P := fun g => Highlighted g focus) hfirst
        (fun _ hmeet hmarked => hmarked.of_same (sameRelatives_meetParent hmeet))
        fun hg hparent _ _ hmarked =>
          hmarked.link hg.child_lt hg.consistent.inRange hparent).2
    · exact hfirst
  exact hconnect.of_same (sameRelatives_complete _ _)

end CommitLanes.History
