import CommitLanes.Proofs.History.Enrolling
import CommitLanes.Proofs.History.Still

/-! # Commits arrive

The whole addition of a commit, and what holds of a history after any number of them: as long as
the links make no cycle every parent scores above its child, whatever the order of arrival. -/

namespace CommitLanes

namespace History

variable {h h' : History}

/-! ## Completing a commit -/

theorem revision_complete {r : Rev} (hr : r < h.revisions.size) (q : Rev) :
    (h.complete r).revision q =
      if q = r then { h.revision r with completed := true } else h.revision q := by
  have hmodify := revision_modify h r ({ · with completed := true }) q
  rw [if_congr (and_iff_left hr) rfl rfl] at hmodify
  exact hmodify

theorem mem_arrived_complete (hw : h.WellLinked) {r q : Rev} :
    q ∈ (h.complete r).arrived ↔ q = r ∨ q ∈ h.arrived := by
  unfold complete
  dsimp only
  split
  · next hcompleted =>
    have := (hw.mem_arrived r).2 hcompleted
    grind
  · simp [or_comm]

/-- Completing changes nothing but the mark of the revision and the list of arrivals. -/
structure Completed (r : Rev) (h h' : History) : Prop where
  size : h'.revisions.size = h.revisions.size
  byId : h'.byId = h.byId
  id : ∀ q, (h'.revision q).id = (h.revision q).id
  score : ∀ q, h'.score q = h.score q
  parents : ∀ q, h'.parents q = h.parents q
  starts : ∀ q, (h'.revision q).starts = (h.revision q).starts
  children : ∀ q, (h'.revision q).children = (h.revision q).children
  completed : ∀ q, (h'.revision q).completed = true ↔ q = r ∨ (h.revision q).completed = true
  segments : h'.segments = h.segments
  maxScore : h'.maxScore = h.maxScore
  ranking : h'.ranking = h.ranking
  diverged : h'.diverged = h.diverged

theorem complete_completed {r : Rev} (hr : r < h.revisions.size) :
    Completed r h (h.complete r) := by
  have hrevision := revision_complete hr
  refine ⟨size_modify _ _ _, rfl, fun q => ?_, fun q => ?_, fun q => ?_, fun q => ?_, fun q => ?_,
    fun q => ?_, rfl, rfl, rfl, rfl⟩
  · rw [hrevision]; split <;> simp_all
  · rw [score, hrevision, score]; split <;> simp_all
  · rw [parents, hrevision, parents]; split <;> simp_all
  · rw [hrevision]; split <;> simp_all
  · rw [hrevision]; split <;> simp_all
  · rw [hrevision]; split <;> simp_all

namespace Completed

variable {r : Rev}

theorem isParent (done : Completed r h h') {c p : Rev} : h'.IsParent c p ↔ h.IsParent c p := by
  simp only [IsParent, done.parents]

private theorem segment (done : Completed r h h') (s : Seg) : h'.segment s = h.segment s := by
  simp only [History.segment, done.segments]

private theorem ordered (done : Completed r h h') (hord : h.Ordered) : h'.Ordered := by
  intro c p hp
  rw [done.score, done.score]
  exact hord c p (done.isParent.1 hp)

private theorem find? (done : Completed r h h') (id : CommitId) : h'.find? id = h.find? id := by
  rw [History.find?, History.find?, done.byId]

private theorem bounded (done : Completed r h h') (hb : h.Bounded) : h'.Bounded := by
  intro q hq
  rw [done.size] at hq
  rw [done.score, done.maxScore]
  exact hb q hq

end Completed

theorem complete_wellLinked (hw : h.WellLinked) {r : Rev} (hr : r < h.revisions.size) :
    (h.complete r).WellLinked where
  inRange c p hp := by
    rw [(complete_completed hr).size]
    exact hw.inRange c p ((complete_completed hr).isParent.1 hp)
  find?_eq_some_iff {_ q} := by
    rw [(complete_completed hr).find?, (complete_completed hr).size, (complete_completed hr).id]
    exact hw.find?_eq_some_iff
  parents_nodup q := by
    rw [(complete_completed hr).parents]
    exact hw.parents_nodup q
  starts_lt q s hs := by
    rw [(complete_completed hr).starts] at hs
    exact hw.starts_lt q s hs
  segment_starts q := by
    rw [(complete_completed hr).starts, (complete_completed hr).parents]
    exact hw.segment_starts q
  started s hs := by
    rw [(complete_completed hr).segment, (complete_completed hr).starts]
    exact hw.started s hs
  arrived_nodup := by
    -- It is listed only if it was not completed before.
    unfold complete
    dsimp only
    split
    · exact hw.arrived_nodup
    · next hnew =>
      simpa using hw.arrived_nodup.concat fun hmem => hnew ((hw.mem_arrived r).1 hmem)
  mem_arrived q := by
    rw [mem_arrived_complete hw, (complete_completed hr).completed, hw.mem_arrived]

/-- A revision that lies after all that is ordered may complete. -/
private theorem complete_ranked (hw : h.WellLinked) {r : Rev} (hlt : r < h.revisions.size)
    (huncovered : h.ranking.stale = false → ¬ h.ranking.covers (h.score r)) (hr : h.Ranked) :
    (h.complete r).Ranked := by
  have hdone := complete_completed hlt
  have hscore : (h.complete r).score = h.score := funext hdone.score
  intro hs
  rw [hdone.ranking] at hs ⊢
  obtain ⟨hleads, hupTo⟩ := hr hs
  refine ⟨⟨?_, fun q hq => ?_, fun q hq t ht hout => ?_⟩, ?_⟩
  · exact hleads.pairwise.imp fun hab => hab.of_score_eq (hdone.score _) (hdone.score _)
  · exact (mem_arrived_complete hw).2 (.inr (hleads.mem q hq))
  · rcases (mem_arrived_complete hw).1 ht with rfl | ht
    · -- The revision that completes comes after all that is ordered.
      left
      rw [hscore]
      exact hr.lt_of_not_covers hs hq (huncovered hs)
    · exact (hleads.before q hq t ht hout).of_score_eq (hdone.score q) (hdone.score t)
  · rw [hscore]
    exact hupTo

/-- If only commits that have arrived have parents, then that is so when a commit arrives whose links
are the only new ones. -/
theorem Grown.completed_of_complete {child : Rev} (grown : Grown child h h')
    (hchild : child < h'.revisions.size)
    (hsettled : ∀ c p, h.IsParent c p → (h.revision c).completed = true) {c p : Rev}
    (hlink : (h'.complete child).IsParent c p) :
    ((h'.complete child).revision c).completed = true := by
  have hdone := complete_completed hchild
  rw [hdone.completed]
  by_cases hc : c = child
  · exact .inl hc
  · -- Nobody else has got parents on the way.
    right
    rw [hdone.isParent, IsParent, grown.parents c hc] at hlink
    rw [grown.completed_eq]
    exact hsettled c p hlink

/-! ## Adding a commit -/

/-- One addition of a commit or of an inserted row. -/
structure Arrival where
  id : CommitId
  parents : List CommitId
  insertion : Option Insertion := none
  onlyFirst : Bool := false

/-- What the addition comes to. -/
def added (h : History) (a : Arrival) : Added := h.add a.id a.parents a.insertion a.onlyFirst

/-- The history after an addition. -/
def arrive (h : History) (a : Arrival) : History := (h.added a).history

/-- The history of a commit with its number and its links, right before it is completed. -/
def connect (added : Added) (id : CommitId) (parents : List CommitId) (inserted onlyFirst : Bool) :
    History :=
  if added.linked then
    linkParents inserted onlyFirst id added.revision 0 parents added.history
  else added.history

theorem connect_grown {added : Added} (id : CommitId) (parents : List CommitId)
    (inserted onlyFirst : Bool) (hlt : added.revision < added.history.revisions.size) :
    Grown added.revision added.history (connect added id parents inserted onlyFirst) := by
  unfold connect
  split
  · exact linkParents_grown _ _ _ _ _ hlt
  · exact .of_sameLinks (.refl _)

variable {a : Arrival}

/-- The tables grow, whatever cycles the links make, and then the commit is completed. -/
private theorem Filed.exists_grown (hfiled : h.Filed) (a : Arrival) :
    ∃ mid, Grown (h.added a).revision h mid ∧ Completed (h.added a).revision mid (h.arrive a) := by
  have henroll := enroll_enrollment h a.id a.insertion
  have hconnect :=
    connect_grown a.id a.parents a.insertion.isSome a.onlyFirst (henroll.lt hfiled)
  exact ⟨_, henroll.grown.trans hconnect,
    complete_completed ((henroll.lt hfiled).trans_le hconnect.size_le)⟩

theorem Filed.arrive (hfiled : h.Filed) (a : Arrival) : (h.arrive a).Filed := by
  obtain ⟨mid, hgrown, hdone⟩ := hfiled.exists_grown a
  intro id r hfind
  rw [hdone.find?] at hfind
  rw [hdone.size]
  exact hgrown.filed hfiled id r hfind

private theorem arrive_isParent (hfiled : h.Filed) {c p : Rev} (hp : h.IsParent c p) :
    (h.arrive a).IsParent c p := by
  obtain ⟨mid, hgrown, hdone⟩ := hfiled.exists_grown a
  exact hdone.isParent.2 (hgrown.isParent hp)

/-- A commit is added by giving it its number and its links, and by completing it. -/
theorem arrive_connecting (hw : h.WellLinked) (hac : h.Acyclic) (hadmits : h.Admits a.id a.insertion)
    (hac' : (h.arrive a).Acyclic) :
    ∃ mid, Connecting a.id (h.Lands a.id a.insertion) ((h.added a).linked = true)
        (h.added a).revision h mid ∧
      h.arrive a = mid.complete (h.added a).revision := by
  have henroll := enroll_enrollment h a.id a.insertion
  have hfirst := henroll.connecting hw hac hadmits
  refine ⟨connect (h.enroll a.id a.insertion) a.id a.parents a.insertion.isSome a.onlyFirst, ?_, rfl⟩
  have hconnect := connect_grown a.id a.parents a.insertion.isSome a.onlyFirst hfirst.child_lt
  have hlt := hfirst.child_lt.trans_le hconnect.size_le
  have hmid := hac'.anti fun _ _ => (complete_completed hlt).isParent.2
  unfold connect at hmid ⊢
  split
  · next hlinked =>
    rw [if_pos hlinked] at hmid
    exact hfirst.linking (linkParents_linking hfirst.wellLinked hfirst.child_lt hmid)
  · exact hfirst

/-! ## What holds between any two additions -/

/-- The tables agree, parents score above their children, and only commits that have arrived have
parents. -/
structure Sound (h : History) : Prop where
  wellLinked : h.WellLinked
  ordered : h.Ordered
  settled : ∀ c p, h.IsParent c p → (h.revision c).completed = true
  converged : h.diverged = false

theorem sound_empty : Sound {} where
  wellLinked := wellLinked_empty
  ordered c _ hp := absurd hp.child_lt (Nat.not_lt_zero c)
  settled c _ hp := absurd hp.child_lt (Nat.not_lt_zero c)
  converged := rfl

namespace Still

theorem sound (still : Still h h') (hs : h.Sound) : h'.Sound where
  wellLinked := hs.wellLinked.of_sameLinks still.toSameLinks
  ordered c p hp := by
    rw [still.score, still.score]
    exact hs.ordered c p (still.toSameLinks.isParent.1 hp)
  settled c p hp := by
    rw [still.toSameLinks.completed]
    exact hs.settled c p (still.toSameLinks.isParent.1 hp)
  converged := still.diverged.trans hs.converged

theorem bounded (still : Still h h') (hb : h.Bounded) : h'.Bounded := by
  intro r hr
  rw [still.toSameLinks.size] at hr
  rw [still.score, still.maxScore]
  exact hb r hr

theorem ranked (still : Still h h') (hs : h.Sound) (hranking : h'.ranking = h.ranking)
    (hr : h.Ranked) : h'.Ranked := by
  have hrescored : Rescored h h' :=
    .of_score_eq still.arrived still.toSameLinks.completed hranking fun r _ => still.score r
  exact hrescored.ranked_of_le (fun r _ => (still.score r).ge) hs.wellLinked.mem_arrived hr

theorem arrive (still : Still h h') (a : Arrival) : Still (h.arrive a) (h'.arrive a) :=
  (still.add a.id a.parents a.insertion a.onlyFirst).1

end Still

private theorem Connecting.sound {lands placed : Prop} {child : Rev} {mid : History}
    (hmid : Connecting a.id lands placed child h mid) (hs : h.Sound) :
    (mid.complete child).Sound := by
  have hdone := complete_completed hmid.child_lt
  exact ⟨complete_wellLinked hmid.wellLinked hmid.child_lt, hdone.ordered (hmid.ordered hs.ordered),
    fun _ _ hlink => hmid.completed_of_complete hmid.child_lt hs.settled hlink,
    hdone.diverged.trans (hmid.diverged.trans hs.converged)⟩

theorem arrive_sound (hs : h.Sound) (hadmits : h.Admits a.id a.insertion)
    (hac : (h.arrive a).Acyclic) : (h.arrive a).Sound := by
  obtain ⟨mid, hmid, heq⟩ := arrive_connecting hs.wellLinked hs.ordered.acyclic hadmits hac
  rw [heq]
  exact hmid.sound hs

/-- What an arrival is to those who only look at revisions that have arrived before: nothing but a
shift of scores, which keeps their order. -/
structure Arrived (name : CommitId) (child : Rev) (h h' : History) : Prop where
  size_le : h.revisions.size ≤ h'.revisions.size
  id : ∀ r < h.revisions.size, (h'.revision r).id = (h.revision r).id
  child_id : (h'.revision child).id = name
  completed : ∀ r, (h'.revision r).completed = true ↔
    r = child ∨ (h.revision r).completed = true
  parents : ∀ r ≠ child, h'.parents r = h.parents r
  starts : ∀ r ≠ child, (h'.revision r).starts = (h.revision r).starts
  segments_le : h.segments.size ≤ h'.segments.size
  segment : ∀ s < h.segments.size, h'.segment s = h.segment s
  moved : ∃ f : Score → Score, StrictMono f ∧ ∀ r < h.revisions.size, r ≠ child →
    ¬ h'.IsAncestor child r → h'.score r = f (h.score r)

/-- A commit that comes later is none of those that have arrived. -/
theorem ne_of_completed {r child : Rev} (hr : (h.revision r).completed = true)
    (hnew : (h.revision child).completed = false) : r ≠ child := by
  rintro rfl
  exact Bool.false_ne_true (hnew.symm.trans hr)

theorem arrive_arrived (hs : h.Sound) (hadmits : h.Admits a.id a.insertion)
    (hac : (h.arrive a).Acyclic) : Arrived a.id (h.added a).revision h (h.arrive a) := by
  obtain ⟨mid, hmid, heq⟩ := arrive_connecting hs.wellLinked hs.ordered.acyclic hadmits hac
  have hdone := complete_completed hmid.child_lt
  rw [heq]
  obtain ⟨f, hf, hmoved⟩ := hmid.moved
  exact {
    size_le := hmid.size_le.trans hdone.size.ge
    id := fun r hr => (hdone.id r).trans (hmid.id r hr)
    child_id := (hdone.id _).trans hmid.child_id
    completed := fun r => by rw [hdone.completed, hmid.completed_eq]
    parents := fun r hr => (hdone.parents r).trans (hmid.parents r hr)
    starts := fun r hr => (hdone.starts r).trans (hmid.starts r hr)
    segments_le := hmid.segments_le.trans (congrArg Array.size hdone.segments).ge
    segment := fun s hs => (hdone.segment s).trans (hmid.segment s hs)
    moved := by
      refine ⟨f, hf, fun r hr hne hancestor => ?_⟩
      rw [hdone.score]
      exact hmoved r hr hne fun ha => hancestor (ha.mono fun _ _ => hdone.isParent.2) }

theorem Arrived.still {name : CommitId} {child : Rev} {h'' : History}
    (harrived : Arrived name child h h') (still : Still h' h'') : Arrived name child h h'' := by
  have same := still.toSameLinks
  obtain ⟨f, hf, hmoved⟩ := harrived.moved
  exact {
    size_le := harrived.size_le.trans same.size.ge
    id := fun r hr => (same.id r).trans (harrived.id r hr)
    child_id := (same.id child).trans harrived.child_id
    completed := fun r => by rw [same.completed, harrived.completed]
    parents := fun r hr => (same.parents r).trans (harrived.parents r hr)
    starts := fun r hr => (same.starts r).trans (harrived.starts r hr)
    segments_le := harrived.segments_le.trans (congrArg Array.size still.segments).ge
    segment := fun s hs => (same.segment s).trans (harrived.segment s hs)
    moved := by
      refine ⟨f, hf, fun r hr hne hancestor => ?_⟩
      rw [still.score]
      exact hmoved r hr hne fun ha => hancestor (same.isAncestor.2 ha) }

theorem arrive_bounded (hs : h.Sound) (hadmits : h.Admits a.id a.insertion)
    (hlands : h.Lands a.id a.insertion) (hac : (h.arrive a).Acyclic) (hb : h.Bounded) :
    (h.arrive a).Bounded := by
  obtain ⟨mid, hmid, heq⟩ := arrive_connecting hs.wellLinked hs.ordered.acyclic hadmits hac
  rw [heq]
  exact (complete_completed hmid.child_lt).bounded (hmid.bounded hlands hb)

/-- The order that is remembered is right after a commit is added, unless it only completes in a
place that it had before. -/
theorem arrive_ranked (hs : h.Sound) (hadmits : h.Admits a.id a.insertion)
    (hac : (h.arrive a).Acyclic) (hb : h.Bounded) (hr : h.Ranked)
    (hlinked : (h.added a).linked = true) : (h.arrive a).Ranked := by
  obtain ⟨mid, hmid, heq⟩ := arrive_connecting hs.wellLinked hs.ordered.acyclic hadmits hac
  rw [heq]
  exact complete_ranked hmid.wellLinked hmid.child_lt (hmid.uncovered hlinked hb hr) (hmid.ranked hr)

/-! ## Any number of additions -/

/-- Adds commits one after the other. -/
def addAll (h : History) (arrivals : List Arrival) : History := arrivals.foldl arrive h

/-- Every insertion on the way opens a gap. -/
def AdmitsAll : History → List Arrival → Prop
  | _, [] => True
  | h, a :: rest => h.Admits a.id a.insertion ∧ AdmitsAll (h.arrive a) rest

instance decidableAdmitsAll : ∀ h arrivals, Decidable (AdmitsAll h arrivals)
  | _, [] => .isTrue trivial
  | _, _ :: rest => @instDecidableAnd _ _ _ (decidableAdmitsAll _ rest)

private theorem addAll_isParent (hfiled : h.Filed) {arrivals : List Arrival} {c p : Rev}
    (hp : h.IsParent c p) : (h.addAll arrivals).IsParent c p := by
  induction arrivals generalizing h with
  | nil => exact hp
  | cons a rest ih => exact ih (hfiled.arrive a) (arrive_isParent hfiled hp)

private theorem addAll_sound {arrivals : List Arrival} (hs : h.Sound)
    (hadmits : h.AdmitsAll arrivals)
    (hac : (h.addAll arrivals).Acyclic) : (h.addAll arrivals).Sound := by
  induction arrivals generalizing h with
  | nil => exact hs
  | cons a rest ih =>
    -- Links only grow, so a cycle on the way would still be there at the end.
    have hfirst : (h.arrive a).Acyclic :=
      hac.anti fun _ _ => addAll_isParent (hs.wellLinked.filed.arrive a)
    exact ih (arrive_sound hs hadmits.1 hfirst) hadmits.2 hac

/-- However commits arrive, as long as their links make no cycle every addition comes to an end and
every parent scores above its child. -/
theorem score_lt_of_addAll {arrivals : List Arrival} (hadmits : AdmitsAll {} arrivals)
    (hac : (addAll {} arrivals).Acyclic) :
    (addAll {} arrivals).diverged = false ∧
      (∀ s < (addAll {} arrivals).segments.size,
        (addAll {} arrivals).score ((addAll {} arrivals).segment s).child <
          (addAll {} arrivals).score ((addAll {} arrivals).segment s).parent) ∧
      ∀ c p, p ∈ (addAll {} arrivals).parents c →
        (addAll {} arrivals).score c < (addAll {} arrivals).score p := by
  have hs := addAll_sound sound_empty hadmits hac
  refine ⟨hs.converged, fun s hlt => ?_, hs.ordered⟩
  exact hs.ordered _ _ (hs.wellLinked.isParent_segment hlt)

/-- A merge of a placeholder, a list of parents with a name twice and the commit itself in it, a row
inserted in front of the merge, and the merge once more with another parent. -/
def mergeArrivals : List Arrival := [
  { id := .repeated 1, parents := [.repeated 2, .repeated 3] },
  { id := .repeated 2, parents := [.repeated 3, .repeated 3, .repeated 2] },
  { id := .workTree, parents := [.repeated 1], insertion := some ⟨1, 2⟩ },
  { id := .repeated 1, parents := [.repeated 2, .repeated 3, .repeated 4] }]

theorem score_lt_of_addAll_mergeArrivals :
    AdmitsAll {} mergeArrivals ∧ (addAll {} mergeArrivals).Acyclic ∧
      (addAll {} mergeArrivals).diverged = false ∧
      (addAll {} mergeArrivals).parents 0 = [1, 2, 4] ∧
      ∀ p ∈ (addAll {} mergeArrivals).parents 0,
        (addAll {} mergeArrivals).score 0 < (addAll {} mergeArrivals).score p := by
  have hadmits : AdmitsAll {} mergeArrivals := by decide +kernel
  have hac : (addAll {} mergeArrivals).Acyclic := Ordered.acyclic (by decide +kernel)
  obtain ⟨hconverged, -, hlt⟩ := score_lt_of_addAll hadmits hac
  exact ⟨hadmits, hac, hconverged, by decide +kernel, hlt 0⟩

end History

end CommitLanes
