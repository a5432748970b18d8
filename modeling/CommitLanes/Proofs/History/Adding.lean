import CommitLanes.Proofs.History.RowOrder

/-! # Adding a commit, step by step

A commit is added by giving it a number and a place, by linking its parents one after the other and
by completing it. Each step before the last is an `Advance`, and so all of them together are one. -/

namespace CommitLanes.History

variable {h h' h'' : History} {child : Rev}

/-- One step on the way of adding the commit `child`: only `child` gets links, nothing completes, and
apart from `child` and its ancestors all revisions move alike. -/
structure Advance (child : Rev) (h h' : History) : Prop
    extends Grown child h h', Rescored h h' where
  wellLinked : h'.WellLinked
  ordered : h.Ordered → h'.Ordered
  ranked : h.Ranked → h'.Ranked
  diverged : h'.diverged = h.diverged
  moved : ∃ f : Score → Score, StrictMono f ∧ ∀ r < h.revisions.size, r ≠ child →
    ¬ h'.IsAncestor child r → h'.score r = f (h.score r)

namespace Advance

theorem trans (first : Advance child h h') (second : Advance child h' h'') :
    Advance child h h'' where
  toGrown := first.toGrown.trans second.toGrown
  toRescored := first.toRescored.trans second.toRescored
  wellLinked := second.wellLinked
  ordered hord := second.ordered (first.ordered hord)
  ranked hr := second.ranked (first.ranked hr)
  diverged := second.diverged.trans first.diverged
  moved := by
    obtain ⟨f, hf, hfirst⟩ := first.moved
    obtain ⟨g, hg, hsecond⟩ := second.moved
    refine ⟨g ∘ f, hg.comp hf, fun r hr hne hancestor => ?_⟩
    rw [hsecond r (hr.trans_le first.size_le) hne hancestor,
      hfirst r hr hne fun ha => hancestor (second.isAncestor ha)]
    rfl

/-- A step that keeps links and scores. -/
private theorem of_score_eq (hw : h.WellLinked) (same : SameLinks h h') (rescored : Rescored h h')
    (hscore : ∀ r, h'.score r = h.score r) (hdiverged : h'.diverged = h.diverged) :
    Advance child h h' where
  toGrown := .of_sameLinks same
  toRescored := rescored
  wellLinked := hw.of_sameLinks same
  ordered hord c p hp := by
    rw [hscore, hscore]
    exact hord c p (same.isParent.1 hp)
  ranked := rescored.ranked_of_le (fun r _ => (hscore r).ge) hw.mem_arrived
  diverged := hdiverged
  moved := ⟨fun score => score, strictMono_id, fun r _ _ _ => hscore r⟩

theorem refl (hw : h.WellLinked) : Advance child h h :=
  of_score_eq hw (.refl h) (.refl h) (fun _ => rfl) rfl

end Advance

/-! ## Giving out a number and a place -/

/-- The highest score given out takes a step of its own. -/
theorem advance_maxScore (hw : h.WellLinked) (maxScore : Score) :
    Advance child h { h with maxScore } :=
  .of_score_eq hw ⟨rfl, rfl, rfl, rfl⟩ (.of_score_eq rfl (fun _ => rfl) rfl fun _ _ => rfl)
    (fun _ => rfl) rfl

theorem advance_disturb (hw : h.WellLinked) (score : Score) :
    Advance child h (h.disturb score) := by
  refine .of_score_eq hw ⟨rfl, rfl, rfl, rfl⟩
    ⟨rfl, fun _ => rfl, ?_, ?_, fun hs => ?_, fun _ _ _ _ => rfl⟩ (fun _ => rfl) rfl
  · exact Ranking.order_disturb _ _
  · exact Ranking.upTo_disturb _ _
  · have hstale : (h.ranking.stale || h.ranking.covers score) = false := by
      rw [← Ranking.stale_disturb]
      exact hs
    exact (Bool.or_eq_false_iff.1 hstale).1

theorem score_push_of_lt {id : CommitId} {score : Score} {r : Rev} (hr : r < h.revisions.size) :
    (h.push id score).score r = h.score r := by
  rw [History.score, revision_push_of_ne hr.ne, History.score]

theorem score_push_size (id : CommitId) (score : Score) :
    (h.push id score).score h.revisions.size = score := by
  rw [History.score, revision_push_size]

theorem rescored_push (hw : h.WellLinked) (id : CommitId) (score : Score) :
    Rescored h (h.push id score) := by
  refine .of_score_eq rfl (push_grown h id score 0).completed_eq rfl fun r hr => ?_
  exact score_push_of_lt (hw.completed_lt ((hw.mem_arrived r).2 hr))

theorem advance_push (hw : h.WellLinked) {id : CommitId} (score : Score)
    (hfresh : h.find? id = none) : Advance child h (h.push id score) where
  toGrown := push_grown h id score child
  toRescored := rescored_push hw id score
  wellLinked := push_wellLinked hw score hfresh
  ordered hord c p hp := by
    -- Neither end of a link is the new revision.
    have hlink := (isParent_push id score).1 hp
    rw [score_push_of_lt hlink.child_lt, score_push_of_lt (hw.inRange c p hlink)]
    exact hord c p hlink
  ranked := (rescored_push hw id score).ranked_of_le
    (fun r hr => (score_push_of_lt (hw.completed_lt hr)).ge) hw.mem_arrived
  diverged := rfl
  moved := ⟨fun score => score, strictMono_id, fun _ hr _ _ => score_push_of_lt hr⟩

theorem advance_openGap (hw : h.WellLinked) {insertion : Insertion} (hopens : insertion.Opens h) :
    Advance child h (h.openGap insertion) where
  toGrown := .of_sameLinks (openGap_shifted hopens).toSameLinks
  toRescored := (openGap_shifted hopens).toRescored
  wellLinked := hw.of_sameLinks (openGap_shifted hopens).toSameLinks
  ordered hord c p hp := by
    have hlink := (openGap_shifted hopens).isParent.1 hp
    rw [score_openGap hopens hlink.child_lt, score_openGap hopens (hw.inRange c p hlink)]
    exact Insertion.shift_strictMono hopens.1 (hord c p hlink)
  ranked := (openGap_shifted hopens).ranked hw fun _ hr => List.mem_range.2 (hw.completed_lt hr)
  diverged := (openGap_shifted hopens).diverged
  moved := ⟨insertion.shift, Insertion.shift_strictMono hopens.1,
    fun _ hr _ _ => score_openGap hopens hr⟩

theorem advance_raise (hw : h.WellLinked) (hac : h.Acyclic) {r : Rev} (hr : r < h.revisions.size)
    (minimal : Score) : Advance r h (h.raise r minimal) := by
  have hraise := raise_raisedTo minimal hac hw.inRange hr
  have hframe : ∀ q ≠ r, ¬ (h.raise r minimal).IsAncestor r q →
      (h.raise r minimal).score q = h.score q := by
    intro q hne hancestor
    apply hraise.frame q (by simpa using hne)
    intro t ht
    rw [List.mem_singleton.1 ht, ← hraise.isAncestor]
    exact hancestor
  exact {
    toGrown := .of_sameLinks hraise.toSameLinks
    toRescored := hraise.toRescored
    wellLinked := hw.of_sameLinks hraise.toSameLinks
    ordered := fun hord c p hp =>
      hraise.keeps c p (hraise.isParent.1 hp) (hord c p (hraise.isParent.1 hp))
    ranked := hraise.ranked_of_le (fun r _ => hraise.score_le r) hw.mem_arrived
    diverged := hraise.diverged
    moved := ⟨id, strictMono_id, fun q _ hne hancestor => hframe q hne hancestor⟩ }

/-! ## Linking a parent -/

section Link

variable {parent : Rev} (hw : h.WellLinked) (hchild : child < h.revisions.size)
  (hparent : parent < h.revisions.size) (hnew : ¬ h.IsParent child parent)
  (hac : (h.link child parent).Acyclic)

theorem link_grown (hchild : child < h.revisions.size) (parent : Rev) :
    Grown child h (h.link child parent) :=
  (tie_grown hchild).trans (.of_sameLinks (sameLinks_link h child parent))

theorem size_link (h : History) (child parent : Rev) :
    (h.link child parent).revisions.size = h.revisions.size :=
  (sameLinks_link h child parent).size.trans size_tie

include hchild in
theorem isParent_link {c p : Rev} :
    (h.link child parent).IsParent c p ↔ h.IsParent c p ∨ c = child ∧ p = parent := by
  rw [(sameLinks_link h child parent).isParent, isParent_tie hchild]

include hw hchild hparent hnew hac

/-- Linking raises the parent above the child, in a history that is `h` but for the link. -/
private theorem link_raisedTo :
    ∃ marked, marked.WellLinked ∧ Grown child h marked ∧ Rescored h marked ∧
      (∀ r, marked.score r = h.score r) ∧ h.maxScore ≤ marked.maxScore ∧
      marked.diverged = h.diverged ∧
      RaisedTo [parent] (h.score child + 1) marked (h.link child parent) := by
  obtain ⟨marked, hmarked, hscore, hdiverged, hlink⟩ := link_eq_raise h child parent
  have htie := tie_wellLinked hchild hw hparent hnew
  have hwmarked := htie.of_sameLinks hmarked.toSameLinks
  have hscore' (r : Rev) : marked.score r = h.score r :=
    (hscore r).trans (tie_frame hchild r).2.2
  refine ⟨marked, hwmarked, (tie_grown hchild).trans (.of_sameLinks hmarked.toSameLinks), ?_,
    hscore', hmarked.maxScore_le, hdiverged, ?_⟩
  · refine Rescored.trans ?_ hmarked.toRescored
    exact .of_score_eq rfl (fun r => (tie_frame hchild r).2.1) rfl
      fun r _ => (tie_frame hchild r).2.2
  · rw [hlink] at hac ⊢
    rw [← hscore' child]
    apply raise_raisedTo _ ((sameLinks_raise _ _).symm.acyclic hac) hwmarked.inRange
    rw [hmarked.size, size_tie]
    exact hparent

/-- Only the parent and its ancestors move. -/
theorem score_link_of_not_isAncestor {r : Rev}
    (hr : ¬ (h.link child parent).IsAncestor child r) :
    (h.link child parent).score r = h.score r := by
  obtain ⟨marked, -, -, -, hscore, -, -, hraise⟩ := link_raisedTo hw hchild hparent hnew hac
  have hedge : (h.link child parent).IsParent child parent :=
    (isParent_link hchild).2 (.inr ⟨rfl, rfl⟩)
  rw [hraise.frame r, hscore]
  · intro hmem
    rw [List.mem_singleton.1 hmem] at hr
    exact hr hedge.isAncestor
  · intro t ht ha
    rw [List.mem_singleton.1 ht, ← hraise.isAncestor] at ha
    exact hr (.head hedge ha)

theorem advance_link : Advance child h (h.link child parent) := by
  obtain ⟨marked, hwmarked, hgrown, hrescored, hscore, -, hdiverged, hraise⟩ :=
    link_raisedTo hw hchild hparent hnew hac
  have hunmoved {r : Rev} (hr : ¬ (h.link child parent).IsAncestor child r) :=
    score_link_of_not_isAncestor hw hchild hparent hnew hac hr
  have hrisen : ∀ r ∈ h.arrived, h.score r ≤ (h.link child parent).score r := by
    intro r _
    rw [← hscore]
    exact hraise.score_le r
  have hordered : h.Ordered → (h.link child parent).Ordered := by
    intro hord c p hp
    rcases (isParent_link hchild).1 hp with hold | ⟨rfl, rfl⟩
    · apply hraise.keeps c p (hgrown.isParent hold)
      rw [hscore, hscore]
      exact hord c p hold
    · -- The new link is the one that the raise is for.
      have hfloor := hraise.floor p (List.mem_singleton_self p)
      rw [hunmoved (hac c)]
      lia
  exact {
    toGrown := link_grown hchild parent
    toRescored := hrescored.trans hraise.toRescored
    wellLinked := hwmarked.of_sameLinks hraise.toSameLinks
    ordered := hordered
    ranked := (hrescored.trans hraise.toRescored).ranked_of_le hrisen hw.mem_arrived
    diverged := hraise.diverged.trans hdiverged
    moved := ⟨id, strictMono_id, fun _ _ _ hancestor => hunmoved hancestor⟩ }

/-- The parent may have scored above everything given out so far. -/
private theorem link_bounded
    (hbounded : ∀ r < h.revisions.size, r ≠ parent → h.score r ≤ h.maxScore) :
    (h.link child parent).Bounded := by
  obtain ⟨marked, -, -, -, hscore, hmax, -, hraise⟩ :=
    link_raisedTo hw hchild hparent hnew hac
  intro r hr
  rcases eq_or_ne r parent with rfl | hne
  · exact hraise.bounded r (List.mem_singleton_self r)
  · -- Everything else is at most raised, and then no higher than the highest score given out.
    have hle := hraise.score_le_max r
    have hold := ((hbounded r (size_link h child parent ▸ hr) hne).trans hmax).trans
      hraise.maxScore_le
    rw [hscore] at hle
    have := hscore r
    lia

end Link

/-! ## Linking all parents -/

/-- A stretch of linking parents: the commit keeps its place, and all scores stay accounted for. -/
structure Linking (child : Rev) (h h' : History) : Prop extends Advance child h h' where
  score_child : h'.score child = h.score child
  bounded : h.Bounded → h'.Bounded

theorem Linking.refl (hw : h.WellLinked) : Linking child h h := ⟨.refl hw, rfl, fun hb => hb⟩

theorem Linking.trans (first : Linking child h h') (second : Linking child h' h'') :
    Linking child h h'' :=
  ⟨first.toAdvance.trans second.toAdvance, second.score_child.trans first.score_child,
    fun hb => second.bounded (first.bounded hb)⟩

/-- A parent that was not known becomes known, and it may score above everything given out. -/
theorem meetParent_cases (h : History) (inserted : Bool) (child : Rev) (position : Nat)
    (name : CommitId) :
    (∃ parent, h.find? name = some parent ∧
      h.meetParent inserted child position name = (h, parent)) ∨
    (h.find? name = none ∧ ∃ maxScore score, h.maxScore ≤ maxScore ∧
      h.meetParent inserted child position name =
        ({ h with maxScore }.push name score, h.revisions.size)) := by
  unfold meetParent
  cases hfind : h.find? name with
  | some parent => exact .inl ⟨parent, rfl, rfl⟩
  | none =>
    refine .inr ⟨rfl, ?_⟩
    cases inserted with
    | true => exact ⟨h.maxScore, _, le_rfl, rfl⟩
    | false => exact ⟨h.maxScore + 1, _, by lia, rfl⟩

/-- To meet a parent and to link it, if it is not linked yet, is one stretch of linking. -/
theorem meetParent_link_linking (hw : h.WellLinked) (hchild : child < h.revisions.size)
    {inserted : Bool} {position : Nat} {name : CommitId} {met : History} {parent : Rev}
    (hmeet : h.meetParent inserted child position name = (met, parent))
    (hnew : ¬ met.IsParent child parent) (hac : (met.link child parent).Acyclic) :
    Linking child h (met.link child parent) := by
  rcases meetParent_cases h inserted child position name with
    ⟨known, hfind, heq⟩ | ⟨hfind, maxScore, score, hmax, heq⟩
  · obtain ⟨rfl, rfl⟩ := Prod.mk.inj (hmeet.symm.trans heq)
    have hparent := (hw.find?_eq_some_iff.1 hfind).1
    refine ⟨advance_link hw hchild hparent hnew hac,
      score_link_of_not_isAncestor hw hchild hparent hnew hac (hac child), fun hb => ?_⟩
    exact link_bounded hw hchild hparent hnew hac fun r hr _ => hb r hr
  · obtain ⟨rfl, rfl⟩ := Prod.mk.inj (hmeet.symm.trans heq)
    have hbump : Advance child h { h with maxScore } := advance_maxScore hw maxScore
    have hmet := hbump.trans (advance_push hbump.wellLinked score hfind)
    have hchild' := hchild.trans_le hmet.size_le
    have hparent : h.revisions.size < ({ h with maxScore }.push name score).revisions.size := by
      simp
    refine ⟨hmet.trans (advance_link hmet.wellLinked hchild' hparent hnew hac), ?_, fun hb => ?_⟩
    · rw [score_link_of_not_isAncestor hmet.wellLinked hchild' hparent hnew hac (hac child)]
      exact score_push_of_lt hchild
    · apply link_bounded hmet.wellLinked hchild' hparent hnew hac
      intro r hr hne
      have hr' : r < h.revisions.size := by
        simp only [size_push] at hr
        exact Nat.lt_of_le_of_ne (Nat.le_of_lt_succ hr) hne
      have hscore : ({ h with maxScore }.push name score).score r = h.score r :=
        score_push_of_lt hr'
      rw [hscore]
      exact (hb r hr').trans hmax

theorem meetParent_eq_self (hw : h.WellLinked) {inserted : Bool} {position : Nat}
    {name : CommitId} {met : History} {parent : Rev}
    (hmeet : h.meetParent inserted child position name = (met, parent))
    (hold : met.IsParent child parent) : met = h := by
  rcases meetParent_cases h inserted child position name with
    ⟨known, -, heq⟩ | ⟨hfind, maxScore, score, -, heq⟩
  · exact (Prod.mk.inj (hmeet.symm.trans heq)).1
  · -- A parent that has only just become known is linked to nobody.
    obtain ⟨rfl, rfl⟩ := Prod.mk.inj (hmeet.symm.trans heq)
    have hlink : h.IsParent child h.revisions.size :=
      (isParent_push (h := { h with maxScore }) name score).1 hold
    exact absurd (hw.inRange child _ hlink) (lt_irrefl _)

theorem meetParent_grown {inserted : Bool} {position : Nat} {name : CommitId} {met : History}
    {parent : Rev} (hmeet : h.meetParent inserted child position name = (met, parent)) :
    Grown child h met := by
  rcases meetParent_cases h inserted child position name with
    ⟨known, -, heq⟩ | ⟨-, maxScore, score, -, heq⟩
  · obtain ⟨rfl, rfl⟩ := Prod.mk.inj (hmeet.symm.trans heq)
    exact .of_sameLinks (.refl _)
  · obtain ⟨rfl, rfl⟩ := Prod.mk.inj (hmeet.symm.trans heq)
    have hbump : Grown child h { h with maxScore } := .of_sameLinks ⟨rfl, rfl, rfl, rfl⟩
    exact hbump.trans (push_grown _ name score child)

/-- Links only ever grow, whatever cycles they make. -/
theorem linkParents_grown (inserted onlyFirst : Bool) (id : CommitId) (position : Nat)
    (names : List CommitId) (hchild : child < h.revisions.size) :
    Grown child h (linkParents inserted onlyFirst id child position names h) := by
  induction names generalizing h position with
  | nil => exact .of_sameLinks (.refl h)
  | cons name names ih =>
    unfold linkParents
    split
    · exact ih _ hchild
    · rcases hmeet : h.meetParent inserted child position name with ⟨met, parent⟩
      have hmet := meetParent_grown hmeet
      have hchild' := hchild.trans_le hmet.size_le
      have hlink := hmet.trans (link_grown hchild' parent)
      dsimp only
      split
      · exact hmet.trans (ih _ hchild')
      · split
        · exact hlink
        · exact hlink.trans (ih _ (hchild.trans_le hlink.size_le))

/-- The names are taken up one by one, and each either changes nothing or is a stretch of its own. What
all stretches keep is kept by linking all parents. -/
theorem linkParents_induction {P : History → Prop} {inserted onlyFirst : Bool} {id : CommitId}
    {position : Nat} {names : List CommitId} (hw : h.WellLinked) (hchild : child < h.revisions.size)
    (hac : (linkParents inserted onlyFirst id child position names h).Acyclic) (start : P h)
    (stretch : ∀ {g met : History} {position : Nat} {name : CommitId} {parent : Rev}, g.WellLinked →
      child < g.revisions.size → g.meetParent inserted child position name = (met, parent) →
      ¬ met.IsParent child parent → (met.link child parent).Acyclic → P g →
      P (met.link child parent)) :
    P (linkParents inserted onlyFirst id child position names h) := by
  induction names generalizing h position with
  | nil => exact start
  | cons name names ih =>
    unfold linkParents at hac ⊢
    split
    · next hself =>
      rw [if_pos hself] at hac
      exact ih hw hchild hac start
    · next hself =>
      rw [if_neg hself] at hac
      rcases hmeet : h.meetParent inserted child position name with ⟨met, parent⟩
      rw [hmeet] at hac
      dsimp only at hac ⊢
      split
      · next hold =>
        rw [if_pos hold, meetParent_eq_self hw hmeet hold] at hac
        rw [meetParent_eq_self hw hmeet hold]
        exact ih hw hchild hac start
      · next hnew =>
        rw [if_neg hnew] at hac
        split
        · next hfirst =>
          rw [if_pos hfirst] at hac
          exact stretch hw hchild hmeet hnew hac start
        · next hfirst =>
          rw [if_neg hfirst] at hac
          -- A cycle after this link would still be there when all names are done with.
          have hmet := hchild.trans_le (meetParent_grown hmeet).size_le
          have hsize := hmet.trans_le (link_grown hmet parent).size_le
          have hlink := (linkParents_grown _ _ _ _ _ hsize).acyclic hac
          exact ih (meetParent_link_linking hw hchild hmeet hnew hlink).wellLinked hsize hac
            (stretch hw hchild hmeet hnew hlink start)

theorem linkParents_linking {inserted onlyFirst : Bool} {id : CommitId} {position : Nat}
    {names : List CommitId} (hw : h.WellLinked) (hchild : child < h.revisions.size)
    (hac : (linkParents inserted onlyFirst id child position names h).Acyclic) :
    Linking child h (linkParents inserted onlyFirst id child position names h) := by
  apply linkParents_induction hw hchild hac (.refl hw)
  intro g met position name parent hwg hlt hmeet hnew hlink linked
  exact linked.trans (meetParent_link_linking hwg hlt hmeet hnew hlink)

end CommitLanes.History
