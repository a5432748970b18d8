import CommitLanes.Proofs.History.Tables

/-! # Inserted rows

A row that is inserted opens a gap and takes the first place of it. The parents that it brings along
come right behind it, one after the other, and while there are fewer of them than places nothing else
moves: all links lead down as they are. -/

namespace CommitLanes.History

variable {h h' h'' : History} {child parent : Rev} {id : CommitId} {place : Insertion}

/-! ## Links that lead down already -/

private theorem raise_of_le {r : Rev} {minimal : Score} (hr : r < h.revisions.size)
    (hlow : minimal ≤ h.score r) : h.raise r minimal = h.raiseMax (h.score r) := by
  obtain ⟨depth, hdepth⟩ := Nat.exists_eq_succ_of_ne_zero (Nat.ne_zero_of_lt hr)
  rw [raise, hdepth, raiseWithin, if_pos hlow]

/-- A parent that is below its child already stays where it is. -/
private theorem score_link_of_lt (hchild : child < h.revisions.size)
    (hparent : parent < h.revisions.size) (hlt : h.score child < h.score parent) (r : Rev) :
    (h.link child parent).score r = h.score r := by
  obtain ⟨marked, hmarked, hscore, -, hlink⟩ := link_eq_raise h child parent
  have hsame (q : Rev) : marked.score q = h.score q :=
    (hscore q).trans (tie_frame hchild q).2.2
  have hparent' : parent < marked.revisions.size := by
    rw [hmarked.size, size_tie]
    exact hparent
  have hlow : marked.score child + 1 ≤ marked.score parent := by
    rw [hsame, hsame]
    exact Int.add_one_le_of_lt hlt
  rw [hlink, raise_of_le hparent' hlow, score_raiseMax, hsame]

/-! ## Parents that fill a gap -/

/-- Parents of `child` become known at scores above `low` and up to `high`, one below the other, and
no other score changes. -/
structure Fills (child : Rev) (low high : Score) (h h' : History) : Prop
    extends Grown child h h' where
  score_eq : ∀ r < h.revisions.size, h'.score r = h.score r
  inside : ∀ r < h'.revisions.size, h.revisions.size ≤ r → low < h'.score r ∧ h'.score r ≤ high
  rises : ∀ r q, h.revisions.size ≤ r → r < q → q < h'.revisions.size → h'.score r < h'.score q
  linked : ∀ r < h'.revisions.size, h.revisions.size ≤ r → h'.IsParent child r

namespace Fills

variable {low mid high : Score}

/-- A change that makes nothing known and moves nothing. -/
private theorem of_score_eq (grown : Grown child h h')
    (hsize : h'.revisions.size = h.revisions.size)
    (hscore : ∀ r, h'.score r = h.score r) : Fills child low high h h' where
  toGrown := grown
  score_eq r _ := hscore r
  inside _ hr hge := absurd (hsize ▸ hr) (not_lt.2 hge)
  rises _ _ hge hlt hq := absurd (hsize ▸ hq) (not_lt.2 (hge.trans hlt.le))
  linked _ hr hge := absurd (hsize ▸ hr) (not_lt.2 hge)

theorem refl (h : History) : Fills child low high h h :=
  of_score_eq (.of_sameLinks (.refl h)) rfl fun _ => rfl

theorem trans (first : Fills child low mid h h') (second : Fills child mid high h' h'')
    (hlow : low ≤ mid) (hhigh : mid ≤ high) : Fills child low high h h'' where
  toGrown := first.toGrown.trans second.toGrown
  score_eq r hr := (second.score_eq r (hr.trans_le first.size_le)).trans (first.score_eq r hr)
  inside r hr hge := by
    rcases lt_or_ge r h'.revisions.size with hold | hnew
    · rw [second.score_eq r hold]
      exact (first.inside r hold hge).imp_right (le_trans · hhigh)
    · exact (second.inside r hr hnew).imp_left hlow.trans_lt
  rises r q hge hlt hq := by
    rcases lt_or_ge q h'.revisions.size with hold | hnew
    · rw [second.score_eq r (hlt.trans hold), second.score_eq q hold]
      exact first.rises r q hge hlt hold
    · rcases lt_or_ge r h'.revisions.size with hr | hr
      · -- What comes first ends where the rest begins.
        rw [second.score_eq r hr]
        exact (first.inside r hr hge).2.trans_lt (second.inside q hq hnew).1
      · exact second.rises r q hr hlt hq
  linked r hr hge := by
    rcases lt_or_ge r h'.revisions.size with hold | hnew
    · exact second.parents_subset r (first.linked r hold hge)
    · exact second.linked r hr hnew

end Fills

/-- All that is known of the names, apart from `id`, scores above `low`. -/
def Clears (h : History) (id : CommitId) (low : Score) (names : List CommitId) : Prop :=
  ∀ name ∈ names, name ≠ id → ∀ q, h.find? name = some q → low < h.score q

/-- Filling the gap leaves the names clear of its lower end. -/
private theorem Fills.clears {low low' high : Score} {names : List CommitId}
    (fills : Fills child low high h h') (hc : h.Consistent) (hc' : h'.Consistent) (hle : low' ≤ low)
    (hclears : h.Clears id low' names) : h'.Clears id low' names := by
  intro name hmem hne q hfind
  obtain ⟨hq, hid⟩ := hc'.find?_eq_some_iff.1 hfind
  rcases lt_or_ge q h.revisions.size with hold | hnew
  · rw [fills.score_eq q hold]
    rw [fills.id q hold] at hid
    exact hclears name hmem hne q (hc.find?_eq_some_iff.2 ⟨hold, hid⟩)
  · exact hle.trans_lt (fills.inside q hq hnew).1

private theorem meetParent_of_none {name : CommitId} (hfind : h.find? name = none) (child : Rev)
    (position : Nat) : h.meetParent true child position name =
      (h.push name (h.score child + 1 + position), h.revisions.size) := by
  rw [meetParent, hfind]
  rfl

section Linking

variable {position : Nat} {low : Score} (numbered : Numbered h id child)
  (hlow : low = h.score child + position)
include numbered hlow

/-- The place of a parent is the one that its position among all parents gives. -/
theorem fills_meetParent_link {name : CommitId} {met : History}
    (hmeet : h.meetParent true child position name = (met, parent))
    (hahead : ∀ q, h.find? name = some q → h.score child < h.score q) :
    Fills child low (low + 1) h (met.link child parent) := by
  have hchild := numbered.child_lt
  cases hfind : h.find? name with
  | some known =>
    rw [meetParent, hfind] at hmeet
    obtain ⟨rfl, rfl⟩ := Prod.mk.inj hmeet
    exact .of_score_eq (link_grown hchild known) (size_link h child known)
      (score_link_of_lt hchild (numbered.consistent.find?_eq_some_iff.1 hfind).1 (hahead known hfind))
  | none =>
    rw [meetParent_of_none hfind] at hmeet
    obtain ⟨rfl, rfl⟩ := Prod.mk.inj hmeet
    generalize hplace : h.score child + 1 + position = place
    have hsize : (h.push name place).revisions.size = h.revisions.size + 1 := size_push _ _ _
    have hparent : h.revisions.size < (h.push name place).revisions.size :=
      hsize ▸ Nat.lt_succ_self _
    have hchild' := hchild.trans hparent
    -- It is below the child from the start, and so the link does not move it.
    have hscore (r : Rev) : ((h.push name place).link child h.revisions.size).score r =
        (h.push name place).score r := by
      apply score_link_of_lt hchild' hparent
      rw [score_push_of_lt hchild, score_push_size]
      lia
    have honly {r : Rev} (hr : r < ((h.push name place).link child
        h.revisions.size).revisions.size) (hge : h.revisions.size ≤ r) : r = h.revisions.size := by
      rw [size_link, hsize] at hr
      exact Nat.le_antisymm (Nat.le_of_lt_succ hr) hge
    exact {
      toGrown := (push_grown h name place child).trans (link_grown hchild' _)
      score_eq := fun r hr => (hscore r).trans (score_push_of_lt hr)
      inside := fun r hr hge => by
        rw [honly hr hge, hscore, score_push_size]
        lia
      rises := fun r q hge hlt hq =>
        absurd hlt (not_lt.2 (honly hq (hge.trans hlt.le) ▸ hge))
      linked := fun r hr hge => by
        rw [honly hr hge]
        exact (isParent_link hchild').2 (.inr ⟨rfl, rfl⟩) }

/-- An inserted commit whose known parents are all below it moves nothing by its links. Those that
become known take the places behind it in the order in which they are named. -/
theorem fills_linkParents {onlyFirst : Bool} {names : List CommitId}
    (hclears : h.Clears id (h.score child) names) :
    Fills child low (low + names.length) h
      (linkParents true onlyFirst id child position names h) := by
  induction names generalizing h position low with
  | nil => exact .refl h
  | cons name names ih =>
    have hlength : low + (name :: names).length = low + 1 + names.length := by
      rw [List.length_cons]
      lia
    have hrest : h.Clears id (h.score child) names := fun name' hmem =>
      hclears name' (List.mem_cons_of_mem _ hmem)
    have hlater : Fills child (low + 1) (low + 1 + names.length) h
        (linkParents true onlyFirst id child (position + 1) names h) :=
      ih numbered (by lia) hrest
    -- A name that changes nothing leaves its place empty.
    have hskip := (Fills.refl h).trans hlater (Int.le_add_one le_rfl) (by lia)
    rw [hlength]
    unfold linkParents
    split
    · exact hskip
    · next hother =>
      rcases hmeet : h.meetParent true child position name with ⟨met, parent⟩
      have hmet := numbered.of_met hmeet
      have hparent := numbered.consistent.meetParent hmeet
      have hfills := fills_meetParent_link numbered hlow hmeet
        (hclears name List.mem_cons_self hother)
      dsimp only
      split
      · next hold =>
        rw [meetParent_eq_self numbered.consistent.toWellLinked hmeet hold]
        exact hskip
      · next hnew =>
        have hlinked := hmet.link hparent.parent_lt (hparent.parent_id ▸ hother) hnew
        have hscore := hfills.score_eq child numbered.child_lt
        split
        · exact hfills.trans (.refl _) (Int.le_add_one le_rfl) (by lia)
        · refine hfills.trans (ih hlinked (by rw [hscore]; lia) ?_) (Int.le_add_one le_rfl) (by lia)
          rw [hscore]
          exact hfills.clears numbered.consistent hlinked.consistent (by lia) hrest

end Linking

/-! ## The row itself -/

/-- All that was known is shifted. The row takes the first place of the gap, and the parents that
become known stand behind it, each at a place of its own. -/
structure Inserted (name : CommitId) (place : Insertion) (h h' : History) : Prop where
  size_lt : h.revisions.size < h'.revisions.size
  id : ∀ r < h.revisions.size, (h'.revision r).id = (h.revision r).id
  start_id : (h'.revision h.revisions.size).id = name
  shifted : ∀ r < h.revisions.size, h'.score r = place.shift (h.score r)
  start : h'.score h.revisions.size = place.start
  inside : ∀ r < h'.revisions.size, h.revisions.size < r →
    place.start < h'.score r ∧ h'.score r < place.score
  rises : ∀ r q, h.revisions.size < r → r < q → q < h'.revisions.size → h'.score r < h'.score q
  linked : ∀ r < h'.revisions.size, h.revisions.size < r → h'.IsParent h.revisions.size r

/-- No two revisions have the same score. -/
def Distinct (h : History) : Prop :=
  ∀ r < h.revisions.size, ∀ q < h.revisions.size, h.score r = h.score q → r = q

instance (h : History) : Decidable h.Distinct :=
  inferInstanceAs (Decidable (∀ r, r < h.revisions.size → ∀ q, q < h.revisions.size →
    h.score r = h.score q → r = q))

namespace Inserted

variable (inserted : Inserted id place h h')
include inserted

theorem of_still (still : Still h' h'') : Inserted id place h h'' where
  size_lt := still.toSameLinks.size.symm ▸ inserted.size_lt
  id r hr := (still.toSameLinks.id r).trans (inserted.id r hr)
  start_id := (still.toSameLinks.id _).trans inserted.start_id
  shifted r hr := (still.score r).trans (inserted.shifted r hr)
  start := (still.score _).trans inserted.start
  inside r hr hlt := by
    rw [still.score]
    exact inserted.inside r (still.toSameLinks.size ▸ hr) hlt
  rises r q hlt hrq hq := by
    rw [still.score, still.score]
    exact inserted.rises r q hlt hrq (still.toSameLinks.size ▸ hq)
  linked r hr hlt := still.toSameLinks.isParent.2
    (inserted.linked r (still.toSameLinks.size ▸ hr) hlt)

variable (hrange : 0 < place.range)
include hrange

/-- What was known keeps its order. -/
theorem score_lt_iff {r q : Rev} (hr : r < h.revisions.size) (hq : q < h.revisions.size) :
    h'.score r < h'.score q ↔ h.score r < h.score q := by
  rw [inserted.shifted r hr, inserted.shifted q hq]
  exact (Insertion.shift_strictMono hrange.le).lt_iff_lt

omit hrange in
/-- Nothing that was known is moved into the gap. -/
private theorem outside {r : Rev} (hr : r < h.revisions.size) :
    h'.score r < place.start ∨ place.score ≤ h'.score r := by
  rw [inserted.shifted r hr, Insertion.shift, Insertion.start]
  split <;> lia

theorem distinct (hdistinct : h.Distinct) : h'.Distinct := by
  have hstart : place.start < place.score := by
    rw [Insertion.start]
    lia
  -- Of two revisions one has become known after the other.
  have hne {r q : Rev} (hrq : r < q) (hq : q < h'.revisions.size) : h'.score r ≠ h'.score q := by
    rcases lt_or_ge r h.revisions.size with hr | hr
    · have houtside := inserted.outside hr
      rcases Nat.lt_trichotomy q h.revisions.size with hold | rfl | hnew
      · rw [inserted.shifted r hr, inserted.shifted q hold]
        intro heq
        exact hrq.ne (hdistinct r hr q hold ((Insertion.shift_strictMono hrange.le).injective heq))
      · rw [inserted.start]
        lia
      · have hinside := inserted.inside q hq hnew
        lia
    · have hinside := inserted.inside q hq (hr.trans_lt hrq)
      rcases hr.eq_or_lt with rfl | hlt
      · rw [inserted.start]
        exact hinside.1.ne
      · exact (inserted.rises r q hlt hrq hq).ne
  intro r hr q hq heq
  rcases Nat.lt_trichotomy r q with hlt | hself | hgt
  · exact absurd heq (hne hlt hq)
  · exact hself
  · exact absurd heq.symm (hne hgt hr)

end Inserted

/-- The insertion leaves room for the parents, and those that are known are not in front of it. -/
structure Arrival.Inserts (a : Arrival) (place : Insertion) (h : History) : Prop where
  insertion : a.insertion = some place
  new : h.find? a.id = none
  opens : place.Opens h
  room : a.parents.length < place.range
  ahead : ∀ p ∈ a.parents, p ≠ a.id → ∀ q, h.find? p = some q → place.score ≤ h.score q

private theorem enroll_of_none (hnew : h.find? id = none) (place : Insertion) :
    h.enroll id (some place) =
      ⟨((h.bump.openGap place).disturb place.start).push id place.start, h.revisions.size, true⟩ := by
  have hbump : History.find? { h with maxScore := h.maxScore + 1 } id = none := hnew
  simp only [enroll, hbump]
  rfl

/-- Before it is linked the row has its place, and all others are shifted. -/
private theorem score_enroll_of_none (hnew : h.find? id = none) (hopens : place.Opens h) :
    (h.enroll id (some place)).history.revisions.size = h.revisions.size + 1 ∧
      (∀ r < h.revisions.size,
        (h.enroll id (some place)).history.score r = place.shift (h.score r)) ∧
      (h.enroll id (some place)).history.score h.revisions.size = place.start := by
  have hgap := sameLinks_gap h place
  have hopens' : place.Opens h.bump := hopens
  rw [enroll_of_none hnew]
  refine ⟨?_, fun r hr => ?_, ?_⟩
  · rw [size_push, hgap.size]
  · rw [score_push_of_lt (hgap.size.symm ▸ hr)]
    exact score_openGap hopens' hr
  · rw [← hgap.size]
    exact score_push_size id place.start

section Arrive

variable {a : Arrival} (inserts : a.Inserts place h) (hc : h.Consistent)
include inserts

theorem Arrival.Inserts.enroll_eq : (h.added a).revision = h.revisions.size ∧
    h.arrive a = (linkParents true a.onlyFirst a.id h.revisions.size 0 a.parents
      (h.enroll a.id (some place)).history).complete h.revisions.size := by
  have henroll := enroll_of_none inserts.new place
  have hadd : h.added a = { h.enroll a.id a.insertion with
      history := (connect (h.enroll a.id a.insertion) a.id a.parents a.insertion.isSome
        a.onlyFirst).complete (h.enroll a.id a.insertion).revision } := rfl
  rw [inserts.insertion, henroll] at hadd
  rw [arrive, hadd, henroll]
  exact ⟨rfl, rfl⟩

include hc

/-- The parents that are known are behind the place that the row gets. -/
private theorem Arrival.Inserts.clears :
    (h.enroll a.id (some place)).history.Clears a.id place.start a.parents := by
  obtain ⟨hsize, hshifted, -⟩ := score_enroll_of_none inserts.new inserts.opens
  have henroll := enroll_enrollment h a.id (some place)
  obtain ⟨hnumbered, -, -⟩ := hc.enroll henroll
  intro p hp hne q hfind
  obtain ⟨hq, hid⟩ := hnumbered.consistent.find?_eq_some_iff.1 hfind
  rw [hsize, Nat.lt_succ_iff_lt_or_eq] at hq
  rcases hq with hold | rfl
  · rw [henroll.grown.id q hold] at hid
    have hscore := inserts.ahead p hp hne q (hc.find?_eq_some_iff.2 ⟨hold, hid⟩)
    have hroom := inserts.room
    rw [hshifted q hold, Insertion.shift, if_neg (not_lt.2 hscore), Insertion.start]
    lia
  · -- The only other revision is the row.
    have hself := hnumbered.child_id
    rw [enroll_of_none inserts.new] at hself hid
    exact absurd (hid.symm.trans hself) hne

/-- A parent of the row that was known is named by it. -/
private theorem Arrival.Inserts.score_le_of_isParent {p : Rev} (hp : p < h.revisions.size)
    (hlink : (h.arrive a).IsParent h.revisions.size p) : place.score ≤ h.score p := by
  obtain ⟨mid, hmid, hgrown, hdone⟩ := hc.exists_completed a
  rw [inserts.enroll_eq.1] at hmid hgrown hdone
  have hid : ((h.arrive a).revision h.revisions.size).id = a.id :=
    (hdone.id _).trans hmid.child_id
  have hold : ((h.arrive a).revision p).id = (h.revision p).id :=
    (hdone.id p).trans (hgrown.id p hp)
  rcases hc.of_links_arrive a ⟨_, p, hlink, hid, hold⟩ with ⟨r, q, hlink', hr, -⟩ | ⟨-, hnamed⟩
  · exact absurd hr (hc.id_ne_of_find? inserts.new hlink'.child_lt)
  · refine inserts.ahead _ hnamed (hc.id_ne_of_find? inserts.new hp) p ?_
    exact hc.find?_eq_some_iff.2 ⟨hp, rfl⟩

/-- The links of the row move nothing, and so all that happens to scores is the shift. -/
theorem inserted_arrive : Inserted a.id place h (h.arrive a) := by
  obtain ⟨hsize, hshifted, hstart⟩ := score_enroll_of_none inserts.new inserts.opens
  have henroll := enroll_enrollment h a.id (some place)
  obtain ⟨hnumbered, -, -⟩ := hc.enroll henroll
  have hrevision : (h.enroll a.id (some place)).revision = h.revisions.size := by
    rw [enroll_of_none inserts.new]
  rw [hrevision] at hnumbered
  have hplace : place.start =
      (h.enroll a.id (some place)).history.score h.revisions.size + (0 : Nat) := by
    rw [hstart, Int.natCast_zero, add_zero]
  have hfills : Fills h.revisions.size place.start (place.start + a.parents.length)
      (h.enroll a.id (some place)).history (linkParents true a.onlyFirst a.id h.revisions.size 0
        a.parents (h.enroll a.id (some place)).history) :=
    fills_linkParents hnumbered hplace (hstart ▸ inserts.clears hc)
  have hdone := complete_completed (hnumbered.child_lt.trans_le hfills.size_le)
  rw [inserts.enroll_eq.2]
  generalize linkParents true a.onlyFirst a.id h.revisions.size 0 a.parents
    (h.enroll a.id (some place)).history = linked at hfills hdone ⊢
  have hbelow {r : Rev} (hr : r < h.revisions.size) :
      r < (h.enroll a.id (some place)).history.revisions.size := by
    rw [hsize]
    exact Nat.lt_succ_of_lt hr
  have hroom := inserts.room
  exact {
    size_lt := by
      rw [hdone.size]
      exact hnumbered.child_lt.trans_le hfills.size_le
    id := fun r hr => by
      rw [hdone.id, hfills.id r (hbelow hr), henroll.grown.id r hr]
    start_id := by
      rw [hdone.id, hfills.id _ hnumbered.child_lt, hnumbered.child_id]
    shifted := fun r hr => by
      rw [hdone.score, hfills.score_eq r (hbelow hr), hshifted r hr]
    start := by
      rw [hdone.score, hfills.score_eq _ hnumbered.child_lt, hstart]
    inside := fun r hr hlt => by
      rw [hdone.size] at hr
      rw [hdone.score]
      obtain ⟨hlow, hhigh⟩ := hfills.inside r hr (hsize ▸ hlt)
      rw [Insertion.start] at hlow hhigh ⊢
      lia
    rises := fun r q hlt hrq hq => by
      rw [hdone.size] at hq
      rw [hdone.score, hdone.score]
      exact hfills.rises r q (hsize ▸ hlt) hrq hq
    linked := fun r hr hlt => by
      rw [hdone.size] at hr
      rw [hdone.isParent]
      exact hfills.linked r hr (hsize ▸ hlt) }

/-- A row that is not known is no parent of anything, so its links make no cycle. -/
theorem ordered_arrive_of_inserts (hord : h.Ordered) : (h.arrive a).Ordered := by
  have inserted := inserted_arrive inserts hc
  intro c p hlink
  have hp := (hc.arrive a).inRange c p hlink
  rcases eq_or_ne c h.revisions.size with rfl | hc'
  · rw [inserted.start]
    rcases Nat.lt_trichotomy p h.revisions.size with hold | rfl | hnew
    · have hscore := inserts.score_le_of_isParent hc hold hlink
      have hroom := inserts.room
      rw [inserted.shifted p hold, Insertion.shift, if_neg (not_lt.2 hscore), Insertion.start]
      lia
    · exact absurd hlink ((hc.arrive a).irrefl _)
    · exact (inserted.inside p hp hnew).1
  · -- A link that was there before is shifted as a whole.
    rw [← inserts.enroll_eq.1] at hc'
    have hold := (hc.isParent_arrive_of_ne a hc').1 hlink
    rw [inserted.shifted c hold.child_lt, inserted.shifted p (hc.inRange c p hold)]
    exact Insertion.shift_strictMono inserts.opens.1 (hord c p hold)

end Arrive

/-! ## Rows as numbers of revisions -/

instance (a b : Rev) : Decidable (h.Before a b) :=
  inferInstanceAs (Decidable (h.score a < h.score b ∨ h.score a = h.score b ∧ a < b))

/-- The row of a revision is the number of those before it. -/
theorem countP_before (hnodup : h.arrived.Nodup) {r : Rev} {row : Nat}
    (hrow : h.sorted[row]? = some r) : h.arrived.countP (h.Before · r) = row := by
  have hsplit : h.sorted = h.sorted.take row ++ r :: h.sorted.drop (row + 1) := by
    obtain ⟨hlt, rfl⟩ := List.getElem?_eq_some_iff.1 hrow
    rw [List.getElem_cons_drop, List.take_append_drop]
  have hlength : (h.sorted.take row).length = row :=
    List.length_take_of_le (List.getElem?_eq_some_iff.1 hrow).1.le
  have hpairwise := sorted_pairwise hnodup
  rw [hsplit, List.pairwise_append] at hpairwise
  obtain ⟨-, hrest, hcross⟩ := hpairwise
  have hfront : (h.sorted.take row).countP (h.Before · r) = row := by
    rw [List.countP_eq_length.2, hlength]
    exact fun q hq => decide_eq_true (hcross q hq r List.mem_cons_self)
  have hback : (r :: h.sorted.drop (row + 1)).countP (h.Before · r) = 0 := by
    rw [List.countP_eq_zero]
    intro q hq hbefore
    rcases List.mem_cons.1 hq with rfl | hq
    · exact Before.irrefl _ (of_decide_eq_true hbefore)
    · exact (of_decide_eq_true hbefore).asymm ((List.pairwise_cons.1 hrest).1 q hq)
  rw [← h.sorted_perm.countP_eq, hsplit, List.countP_append, hfront, hback, Nat.add_zero]

/-- The completed revisions that share the score of a revision and are shown above it. -/
def ties (h : History) (r : Rev) : Nat :=
  h.arrived.countP fun q => h.score q = h.score r ∧ q < r

theorem ties_eq_zero_iff (hw : h.WellLinked) {r : Rev} :
    h.ties r = 0 ↔ ∀ q, (h.revision q).completed = true → h.score q = h.score r → r ≤ q := by
  simp only [ties, List.countP_eq_zero, hw.mem_arrived, decide_eq_true_eq, not_and, not_lt]

/-- What comes before a revision has a lower score or ties with it. -/
theorem countP_before_eq (h : History) (r : Rev) :
    h.arrived.countP (h.Before · r) = h.arrived.countP (h.score · < h.score r) + h.ties r := by
  unfold ties
  induction h.arrived with
  | nil => rfl
  | cons q rest ih =>
    rw [List.countP_cons, List.countP_cons, List.countP_cons, ih]
    simp only [Before, decide_eq_true_eq]
    grind

namespace Inserted

variable (inserted : Inserted id place h h') (hrange : 0 < place.range)
include inserted hrange

/-- Above the row is what has a lower score than the one it is given. -/
theorem countP_before_new (hw : h.WellLinked) :
    h.arrived.countP (h'.Before · h.revisions.size) =
      h.arrived.countP (h.score · < place.score) := by
  refine List.countP_congr fun q hq => ?_
  have hlt := hw.completed_lt hq
  rw [decide_eq_true_eq, decide_eq_true_eq, Before, inserted.shifted q hlt, inserted.start,
    Insertion.shift, Insertion.start]
  split <;> lia

private theorem before_iff {r q : Rev} (hr : r < h.revisions.size) (hq : q < h.revisions.size) :
    h'.Before q r ↔ h.Before q r := by
  have hinjective := (Insertion.shift_strictMono hrange.le).injective
  rw [Before, Before, inserted.score_lt_iff hrange hq hr, inserted.shifted q hq,
    inserted.shifted r hr, hinjective.eq_iff]

/-- What was known is counted as before. -/
theorem countP_before_old (hw : h.WellLinked) {r : Rev} (hr : r < h.revisions.size) :
    h.arrived.countP (h'.Before · r) = h.arrived.countP (h.Before · r) := by
  refine List.countP_congr fun q hq => ?_
  rw [decide_eq_true_eq, decide_eq_true_eq, inserted.before_iff hrange hr (hw.completed_lt hq)]

/-- What has the score that the row is given, or a higher one, is below the row. -/
theorem before_new {r : Rev} (hr : r < h.revisions.size) (hle : place.score ≤ h.score r) :
    h'.Before h.revisions.size r := by
  left
  rw [inserted.start, inserted.shifted r hr, Insertion.shift, if_neg (not_lt.2 hle),
    Insertion.start]
  lia

end Inserted

/-- A new completed revision is counted next to those that were completed before. -/
theorem countP_arrived {new : Rev} (hw : h.WellLinked) (hw' : h'.WellLinked)
    (hcompleted : ∀ r, (h'.revision r).completed = true ↔
      r = new ∨ (h.revision r).completed = true)
    (hnew : (h.revision new).completed = false) (p : Rev → Bool) :
    h'.arrived.countP p = h.arrived.countP p + if p new then 1 else 0 := by
  have hnot : new ∉ h.arrived := by
    rw [hw.mem_arrived, hnew]
    exact Bool.false_ne_true
  have hperm : h'.arrived.Perm (new :: h.arrived) := by
    rw [List.perm_ext_iff_of_nodup hw'.arrived_nodup (List.nodup_cons.2 ⟨hnot, hw.arrived_nodup⟩)]
    intro r
    rw [hw'.mem_arrived, hcompleted, List.mem_cons, hw.mem_arrived]
  rw [hperm.countP_eq, List.countP_cons]

end CommitLanes.History
