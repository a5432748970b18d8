import CommitLanes.Proofs.History.Raise
import Mathlib.Data.Int.ConditionallyCompleteOrder
import Mathlib.Data.Multiset.DershowitzManna
import Mathlib.Data.Nat.SuccPred
import Mathlib.Order.ConditionallyCompleteLattice.Basic
import Mathlib.Order.SuccPred.Archimedean
import Mathlib.Order.WithBot

/-! # Raising in any order

Raising a revision leaves raises of its parents pending, and these leave others. In whatever order
they are seen to there is an end to it, and then scores are the least ones that fit: each ancestor is
as far above the minimum as the longest line of parents to it takes, unless it was higher before. -/

namespace CommitLanes.History

open Relation (ReflTransGen)

variable {h g : History} {x r v : Rev} {minimal : Score}

private theorem inRange_iff :
    h.InRange ↔ ∀ c < h.revisions.size, ∀ p ∈ h.parents c, p < h.revisions.size :=
  ⟨fun hrange c _ p hp => hrange c p hp, fun hall c p hp => hall c hp.child_lt p hp⟩

instance (h : History) : Decidable h.InRange := decidable_of_iff' _ inRange_iff

theorem revision_setScore (r : Rev) (score : Score) (q : Rev) :
    (h.setScore r score).revision q =
      { h.revision q with score := (h.setScore r score).score q } := by
  have hmodify (g : History) (hg : g.revisions = h.revisions) :
      (g.modify r ({ · with score })).revision q =
        { h.revision q with score := (g.modify r ({ · with score })).score q } := by
    have hsame (v : Rev) : g.revision v = h.revision v := by rw [revision, hg, revision]
    rw [History.score, revision_modify]
    split
    · next heq => rw [hsame, heq.1]
    · rw [hsame]
  unfold setScore
  split
  · exact hmodify _ rfl
  · exact hmodify _ rfl

/-! ## Lines of ancestors -/

/-- A line of `n` parents leads from a revision to another one. -/
inductive Ascent (h : History) (x : Rev) : Nat → Rev → Prop
  | here : Ascent h x 0 x
  | parent {n : Nat} {c p : Rev} (below : Ascent h x n c) (hp : h.IsParent c p) :
    Ascent h x (n + 1) p

namespace Ascent

variable {n : Nat}

private theorem eq_or_isAncestor (ascent : h.Ascent x n v) : v = x ∨ h.IsAncestor x v := by
  induction ascent with
  | here => exact .inl rfl
  | parent _ hp ih =>
    right
    rcases ih with rfl | ha
    · exact hp.isAncestor
    · exact ha.tail hp

private theorem exists_of_isAncestor (ha : h.IsAncestor x v) : ∃ n, h.Ascent x n v := by
  induction ha with
  | single hp => exact ⟨1, here.parent hp⟩
  | tail _ hp ih =>
    obtain ⟨n, below⟩ := ih
    exact ⟨n + 1, below.parent hp⟩

private theorem lt_size (ascent : h.Ascent x n v) (hrange : h.InRange) (hx : x < h.revisions.size) :
    v < h.revisions.size := by
  cases ascent with
  | here => exact hx
  | parent _ hp => exact hrange _ _ hp

/-- A line of ancestors takes one off the height with every parent. -/
private theorem add_height_le (ascent : h.Ascent x n v) (hac : h.Acyclic) (hrange : h.InRange) :
    n + h.height v ≤ h.height x := by
  induction ascent with
  | here => simp
  | parent _ hp ih =>
    have hlt := height_lt_of_isParent hac hrange hp
    omega

/-- There is a longest line to every ancestor. -/
private theorem exists_isGreatest (ascent : h.Ascent x n v) (hac : h.Acyclic) (hrange : h.InRange) :
    ∃ longest, IsGreatest {n | h.Ascent x n v} longest := by
  apply BddAbove.exists_isGreatest_of_nonempty
  · refine ⟨h.height x, fun m (other : h.Ascent x m v) => ?_⟩
    exact (Nat.le_add_right m _).trans (other.add_height_le hac hrange)
  · exact ⟨n, ascent⟩

end Ascent

/-- Scores rise along the lines that lead from a revision to its ancestors. -/
def Rises (h : History) (x : Rev) : Prop :=
  ∀ n c p, h.Ascent x n c → h.IsParent c p → h.score c < h.score p

theorem Ordered.rises (hord : h.Ordered) (x : Rev) : h.Rises x :=
  fun _ c p _ hp => hord c p hp

/-! ## The search -/

/-- Raises that are pending, with the highest score met so far. -/
structure Search where
  history : History
  /-- The revisions that are still to be raised, and the scores that they are to have at least. -/
  pending : Multiset (Rev × Score)
  peak : WithBot Score

namespace Search

/-- Any one of the pending raises is seen to: a revision that is high enough already is left alone,
and another one leaves raises of its parents pending. -/
inductive Step : Search → Search → Prop
  | low {h : History} {r : Rev} {minimal : Score} {pending : Multiset (Rev × Score)}
    {peak : WithBot Score} (hlow : minimal ≤ h.score r) :
    Step ⟨h, (r, minimal) ::ₘ pending, peak⟩ ⟨h, pending, max peak (h.score r)⟩
  | high {h : History} {r : Rev} {minimal : Score} {pending : Multiset (Rev × Score)}
    {peak : WithBot Score} (hhigh : h.score r < minimal) :
    Step ⟨h, (r, minimal) ::ₘ pending, peak⟩
      ⟨h.setScore r minimal, ((h.parents r).map (·, minimal + 1) : List _) + pending,
        max peak minimal⟩

/-- Nothing is pending but to raise one revision. -/
def start (h : History) (x : Rev) (minimal : Score) : Search := ⟨h, {(x, minimal)}, ⊥⟩

private theorem pending_eq_zero_iff {s : Search} : s.pending = 0 ↔ ∀ next, ¬ s.Step next := by
  constructor
  · rintro hnone next (⟨_⟩ | ⟨_⟩) <;> exact Multiset.cons_ne_zero hnone
  · intro hend
    by_contra hsome
    obtain ⟨⟨r, minimal⟩, hmem⟩ := Multiset.exists_mem_of_ne_zero hsome
    obtain ⟨rest, hpending⟩ := Multiset.exists_cons_of_mem hmem
    obtain ⟨history, pending, peak⟩ := s
    subst hpending
    rcases le_or_gt minimal (history.score r) with hlow | hhigh
    · exact hend _ (.low hlow)
    · exact hend _ (.high hhigh)

private theorem Step.sameLinks {s next : Search} (step : s.Step next) :
    SameLinks s.history next.history := by
  cases step with
  | low => exact .refl _
  | high => exact sameLinks_setScore _ _

/-- A raise that is seen to leaves raises of revisions with fewer ancestors at most. -/
private theorem Step.heights_lt {s next : Search} (step : s.Step next) (hac : s.history.Acyclic)
    (hrange : s.history.InRange) :
    (next.pending.map fun entry => s.history.height entry.1).IsDershowitzMannaLT
      (s.pending.map fun entry => s.history.height entry.1) := by
  cases step with
  | @low h r minimal pending peak hlow =>
    refine ⟨pending.map fun entry => h.height entry.1, 0, {h.height r}, ?_, ?_, ?_, ?_⟩
    · simp
    · simp
    · simp [add_comm]
    · simp
  | @high h r minimal pending peak hhigh =>
    refine ⟨pending.map fun entry => h.height entry.1,
      ((h.parents r).map h.height : List Nat), {h.height r}, ?_, ?_, ?_, ?_⟩
    · simp
    · simp [add_comm, Function.comp_def]
    · simp [add_comm]
    · intro height hmem
      obtain ⟨p, hp, rfl⟩ := List.mem_map.1 (Multiset.mem_coe.1 hmem)
      exact ⟨h.height r, Multiset.mem_singleton_self _, height_lt_of_isParent hac hrange hp⟩

/-- Where links make no cycle every search comes to an end. -/
theorem acc_step (s : Search) (hac : s.history.Acyclic) (hrange : s.history.InRange) :
    Acc (fun next s : Search => s.Step next) s := by
  generalize hheights : s.pending.map (fun entry => s.history.height entry.1) = heights
  have hwf : WellFounded (Multiset.IsDershowitzMannaLT : Multiset Nat → Multiset Nat → Prop) :=
    Multiset.wellFounded_isDershowitzMannaLT
  induction heights using hwf.induction generalizing s with
  | _ heights ih =>
    subst hheights
    refine .intro s fun next step => ?_
    have same := step.sameLinks
    refine ih _ ?_ next (same.acyclic hac) (same.inRange hrange) rfl
    -- Heights are a matter of links.
    simpa only [same.height] using step.heights_lt hac hrange

/-! ## What holds while the search goes on -/

/-- Scores go up, and only on lines of ancestors and as far as their lengths tell. The links on these
lines along which scores do not rise any more are pending, and so is `x` if it is too low. -/
structure Climbing (h : History) (x : Rev) (minimal : Score) (g : History)
    (pending : Multiset (Rev × Score)) (peak : WithBot Score) : Prop extends SameLinks h g where
  revision : ∀ v, g.revision v = { h.revision v with score := g.score v }
  maxScore : g.maxScore = h.maxScore
  diverged : g.diverged = h.diverged
  score_eq : ∀ v, g.score v = h.score v ∨
    ∃ n, h.Ascent x n v ∧ h.score v ≤ minimal + n ∧ g.score v = minimal + n
  entry : ∀ r needed, (r, needed) ∈ pending → ∃ n, h.Ascent x n r ∧ needed = minimal + n
  root : minimal ≤ g.score x ∨ (x, minimal) ∈ pending
  edge : ∀ n c p, h.Ascent x n c → h.IsParent c p →
    g.score c < g.score p ∨ (p, g.score c + 1) ∈ pending
  le_peak : ∀ v, g.score v ≠ h.score v → (g.score v : WithBot Score) ≤ peak
  peak_eq : (peak = ⊥ ∧ pending ≠ 0) ∨ ∃ n v, h.Ascent x n v ∧ peak = g.score v

namespace Climbing

variable {pending : Multiset (Rev × Score)} {peak : WithBot Score} {needed : Score}

private theorem start (hrises : h.Rises x) (minimal : Score) :
    Climbing h x minimal h {(x, minimal)} ⊥ where
  toSameLinks := .refl h
  revision _ := rfl
  maxScore := rfl
  diverged := rfl
  score_eq _ := .inl rfl
  entry r needed hmem := by
    obtain ⟨rfl, rfl⟩ := Prod.mk.inj (Multiset.mem_singleton.1 hmem)
    exact ⟨0, .here, by simp⟩
  root := .inr (Multiset.mem_singleton_self _)
  edge n c p ascent hp := .inl (hrises n c p ascent hp)
  le_peak v hne := absurd rfl hne
  peak_eq := .inl ⟨rfl, Multiset.singleton_ne_zero _⟩

private theorem low (climbing : Climbing h x minimal g ((r, needed) ::ₘ pending) peak)
    (hlow : needed ≤ g.score r) : Climbing h x minimal g pending (max peak (g.score r)) := by
  obtain ⟨n, ascent, -⟩ := climbing.entry r needed (Multiset.mem_cons_self _ _)
  have hroot : minimal ≤ g.score x ∨ (x, minimal) ∈ pending := by
    rcases climbing.root with hle | hmem
    · exact .inl hle
    · rcases Multiset.mem_cons.1 hmem with heq | hmem
      · cases heq
        exact .inl hlow
      · exact .inr hmem
  have hedge : ∀ n c p, h.Ascent x n c → h.IsParent c p →
      g.score c < g.score p ∨ (p, g.score c + 1) ∈ pending := by
    intro n c p below hp
    rcases climbing.edge n c p below hp with hlt | hmem
    · exact .inl hlt
    · rcases Multiset.mem_cons.1 hmem with heq | hmem
      · cases heq
        exact .inl (Int.lt_of_add_one_le hlow)
      · exact .inr hmem
  have hpeak : ∃ n v, h.Ascent x n v ∧ max peak (g.score r) = g.score v := by
    rcases climbing.peak_eq with ⟨rfl, -⟩ | ⟨m, v, other, rfl⟩
    · exact ⟨n, r, ascent, max_eq_right bot_le⟩
    · rcases max_choice (g.score v : WithBot Score) (g.score r) with hmax | hmax
      · exact ⟨m, v, other, hmax⟩
      · exact ⟨n, r, ascent, hmax⟩
  exact { climbing with
    entry := fun q m hmem => climbing.entry q m (Multiset.mem_cons_of_mem hmem)
    root := hroot
    edge := hedge
    le_peak := fun v hne => (climbing.le_peak v hne).trans (le_max_left _ _)
    peak_eq := .inr hpeak }

section High

variable (climbing : Climbing h x minimal g ((r, needed) ::ₘ pending) peak)
  (hr : r < g.revisions.size)
include climbing hr

theorem root_setScore :
    minimal ≤ (g.setScore r needed).score x ∨
      (x, minimal) ∈ ((g.parents r).map (·, needed + 1) : List _) + pending := by
  obtain ⟨n, -, hneeded⟩ := climbing.entry r needed (Multiset.mem_cons_self _ _)
  rw [score_setScore hr]
  split
  · left
    lia
  · next hne =>
    rcases climbing.root with hle | hmem
    · exact .inl hle
    · rcases Multiset.mem_cons.1 hmem with heq | hmem
      · exact absurd (Prod.mk.inj heq).1 hne
      · exact .inr (Multiset.mem_add.2 (.inr hmem))

theorem edge_setScore (hhigh : g.score r < needed) (hrises : h.Rises x) {n : Nat} {c p : Rev}
    (below : h.Ascent x n c) (hp : h.IsParent c p) :
    (g.setScore r needed).score c < (g.setScore r needed).score p ∨
      (p, (g.setScore r needed).score c + 1) ∈
        ((g.parents r).map (·, needed + 1) : List _) + pending := by
  have hscore := score_setScore hr needed
  have hne : c ≠ p := by
    rintro rfl
    exact (hrises n c c below hp).false
  by_cases hc : c = r
  · -- The parents of the revision are pending from now on.
    subst hc
    right
    rw [hscore, if_pos rfl, Multiset.mem_add]
    left
    exact Multiset.mem_coe.2 (List.mem_map_of_mem (climbing.isParent.2 hp))
  · rw [hscore c, if_neg hc, hscore p]
    rcases climbing.edge n c p below hp with hlt | hmem
    · left
      split
      · next heq => exact heq ▸ hlt |>.trans hhigh
      · exact hlt
    · rcases Multiset.mem_cons.1 hmem with heq | hmem
      · obtain ⟨rfl, rfl⟩ := Prod.mk.inj heq
        left
        rw [if_pos rfl]
        exact Int.lt_succ _
      · exact .inr (Multiset.mem_add.2 (.inr hmem))

theorem peak_setScore (hhigh : g.score r < needed) :
    ∃ n v, h.Ascent x n v ∧ max peak needed = (g.setScore r needed).score v := by
  obtain ⟨n, ascent, -⟩ := climbing.entry r needed (Multiset.mem_cons_self _ _)
  have hscore := score_setScore hr needed
  have hself : ((g.setScore r needed).score r : WithBot Score) = needed := by simp [hscore]
  rcases climbing.peak_eq with ⟨rfl, -⟩ | ⟨m, v, other, rfl⟩
  · exact ⟨n, r, ascent, (max_eq_right bot_le).trans hself.symm⟩
  · by_cases hv : v = r
    · -- The revision itself was the highest one, and now it is higher.
      subst hv
      refine ⟨n, v, ascent, (max_eq_right ?_).trans hself.symm⟩
      exact WithBot.coe_le_coe.2 hhigh.le
    · rcases max_choice (g.score v : WithBot Score) needed with hmax | hmax
      · exact ⟨m, v, other, by rw [hmax, hscore, if_neg hv]⟩
      · exact ⟨n, r, ascent, hmax.trans hself.symm⟩

private theorem high (hhigh : g.score r < needed) (hrises : h.Rises x) :
    Climbing h x minimal (g.setScore r needed)
      (((g.parents r).map (·, needed + 1) : List _) + pending) (max peak needed) := by
  obtain ⟨n, ascent, hneeded⟩ := climbing.entry r needed (Multiset.mem_cons_self _ _)
  have hscore := score_setScore hr needed
  exact {
    toSameLinks := climbing.toSameLinks.trans (sameLinks_setScore r needed)
    revision := fun v => by
      rw [revision_setScore, climbing.revision]
    maxScore := (maxScore_setScore r needed).trans climbing.maxScore
    diverged := (diverged_setScore r needed).trans climbing.diverged
    score_eq := fun v => by
      rw [hscore]
      split
      · next heq =>
        subst heq
        refine .inr ⟨n, ascent, ?_, hneeded⟩
        rcases climbing.score_eq v with hsame | ⟨m, -, hle, hset⟩
        · rw [← hsame, ← hneeded]
          exact hhigh.le
        · rw [← hneeded]
          exact (hle.trans hset.ge).trans hhigh.le
      · exact climbing.score_eq v
    entry := fun q m hmem => by
      rcases Multiset.mem_add.1 hmem with hmem | hmem
      · obtain ⟨p, hp, heq⟩ := List.mem_map.1 (Multiset.mem_coe.1 hmem)
        cases heq
        refine ⟨n + 1, ascent.parent (climbing.isParent.1 hp), ?_⟩
        push_cast
        lia
      · exact climbing.entry q m (Multiset.mem_cons_of_mem hmem)
    root := root_setScore climbing hr
    edge := fun _ _ _ below hp => edge_setScore climbing hr hhigh hrises below hp
    le_peak := fun v hne => by
      rw [hscore] at hne ⊢
      split
      · exact le_max_right _ _
      · next hv =>
        rw [if_neg hv] at hne
        exact (climbing.le_peak v hne).trans (le_max_left _ _)
    peak_eq := .inr (peak_setScore climbing hr hhigh) }

end High

theorem step {s next : Search} (step : s.Step next) (hrange : h.InRange)
    (hx : x < h.revisions.size) (hrises : h.Rises x)
    (climbing : Climbing h x minimal s.history s.pending s.peak) :
    Climbing h x minimal next.history next.pending next.peak := by
  cases step with
  | low hlow => exact climbing.low hlow
  | @high g r needed pending peak hhigh =>
    obtain ⟨n, ascent, -⟩ := climbing.entry r needed (Multiset.mem_cons_self _ _)
    apply climbing.high _ hhigh hrises
    rw [climbing.size]
    exact ascent.lt_size hrange hx

theorem run {s : Search} (hrange : h.InRange) (hx : x < h.revisions.size)
    (hrises : h.Rises x) (steps : ReflTransGen Search.Step (.start h x minimal) s) :
    Climbing h x minimal s.history s.pending s.peak := by
  induction steps with
  | refl => exact .start hrises minimal
  | tail _ step ih => exact ih.step step hrange hx hrises

/-- When nothing is pending the lines of ancestors bound their scores from below. -/
private theorem add_le_score {n : Nat} (climbing : Climbing h x minimal g 0 peak)
    (ascent : h.Ascent x n v) : minimal + n ≤ g.score v := by
  induction ascent with
  | here => simpa using climbing.root
  | @parent n c p below hp ih =>
    have hlt : g.score c < g.score p := by simpa using climbing.edge n c p below hp
    push_cast
    lia

end Climbing

end Search

/-! ## The least scores that fit -/

/-- A revision is raised to a score of at least `minimal`, which leads from the first history to the
second and meets `peak` as the highest score. -/
structure Settled (h : History) (x : Rev) (minimal : Score) (g : History) (peak : WithBot Score) :
    Prop extends SameLinks h g where
  revision : ∀ v, g.revision v = { h.revision v with score := g.score v }
  maxScore : g.maxScore = h.maxScore
  diverged : g.diverged = h.diverged
  longest : ∀ v, v = x ∨ h.IsAncestor x v →
    ∃ n, IsGreatest {n | h.Ascent x n v} n ∧ g.score v = max (h.score v) (minimal + n)
  other : ∀ v, ¬ (v = x ∨ h.IsAncestor x v) → g.score v = h.score v
  le_peak : ∀ v, g.score v ≠ h.score v → (g.score v : WithBot Score) ≤ peak
  peak_eq : ∃ v, (v = x ∨ h.IsAncestor x v) ∧ peak = g.score v

private theorem Search.Climbing.settled {peak : WithBot Score} (hac : h.Acyclic)
    (hrange : h.InRange)
    (climbing : Climbing h x minimal g 0 peak) : Settled h x minimal g peak where
  toSameLinks := climbing.toSameLinks
  revision := climbing.revision
  maxScore := climbing.maxScore
  diverged := climbing.diverged
  longest v hv := by
    have hsome : ∃ n, h.Ascent x n v := by
      rcases hv with rfl | ha
      · exact ⟨0, .here⟩
      · exact Ascent.exists_of_isAncestor ha
    obtain ⟨m, ascent⟩ := hsome
    obtain ⟨n, hgreatest⟩ := ascent.exists_isGreatest hac hrange
    refine ⟨n, hgreatest, ?_⟩
    have hfloor := climbing.add_le_score hgreatest.1
    rcases climbing.score_eq v with hsame | ⟨k, other, hle, hset⟩
    · rw [hsame] at hfloor ⊢
      exact (max_eq_left hfloor).symm
    · -- No line is longer than the one that the score was set for.
      have hk : k ≤ n := hgreatest.2 other
      lia
  other v hv := by
    rcases climbing.score_eq v with hsame | ⟨n, ascent, -, -⟩
    · exact hsame
    · exact absurd ascent.eq_or_isAncestor hv
  le_peak := climbing.le_peak
  peak_eq := by
    rcases climbing.peak_eq with ⟨-, hsome⟩ | ⟨n, v, ascent, heq⟩
    · exact absurd rfl hsome
    · exact ⟨v, ascent.eq_or_isAncestor, heq⟩

/-! ## One search among them -/

/-- Keeps the highest score at or above the highest one that a search has met. -/
def meet (h : History) (peak : WithBot Score) : History := peak.recBotCoe h h.raiseMax

@[simp] theorem revision_meet (h : History) (peak : WithBot Score) (v : Rev) :
    (h.meet peak).revision v = h.revision v := by
  cases peak <;> rfl

@[simp] theorem score_meet (h : History) (peak : WithBot Score) (v : Rev) :
    (h.meet peak).score v = h.score v := by
  simp [score]

@[simp] theorem parents_meet (h : History) (peak : WithBot Score) (v : Rev) :
    (h.meet peak).parents v = h.parents v := by
  simp [parents]

theorem raiseMax_meet (h : History) (peak : WithBot Score) (score : Score) :
    (h.meet peak).raiseMax score = h.meet (max peak score) := by
  cases peak with
  | bot => rw [max_eq_right bot_le]; rfl
  | coe peak =>
    rw [← WithBot.coe_max]
    simp only [meet, WithBot.recBotCoe_coe, raiseMax, max_assoc]

theorem setScore_meet (h : History) (peak : WithBot Score) (r : Rev) (score : Score) :
    (h.meet peak).setScore r score = (h.setScore r score).meet peak := by
  cases peak with
  | bot => rfl
  | coe peak =>
    unfold setScore
    rw [revision_meet]
    by_cases hr : (h.revision r).completed
    · rw [if_pos hr, if_pos hr]
      rfl
    · rw [if_neg hr, if_neg hr]
      rfl

private theorem Search.sameLinks_of_steps {s next : Search}
    (steps : ReflTransGen Search.Step s next) : SameLinks s.history next.history := by
  induction steps with
  | refl => exact .refl _
  | tail _ step ih => exact ih.trans step.sameLinks

/-- Raising takes the last entry each time, and a parent's entry follows right after its child's. -/
private theorem exists_steps_raiseWithin {depth : Nat} (hac : g.Acyclic) (hrange : g.InRange)
    (hdepth : g.height r < depth) (minimal : Score) (pending : Multiset (Rev × Score))
    (peak : WithBot Score) :
    ∃ g' peak', ReflTransGen Search.Step ⟨g, (r, minimal) ::ₘ pending, peak⟩ ⟨g', pending, peak'⟩ ∧
      raiseWithin depth r minimal (g.meet peak) = g'.meet peak' := by
  induction depth generalizing g r minimal pending peak with
  | zero => exact absurd hdepth (Nat.not_lt_zero _)
  | succ depth ih =>
    have hfold (f : History) (same : SameLinks g f) (peak : WithBot Score) (parents : List Rev)
        (hparents : ∀ p ∈ parents, g.IsParent r p) (pending : Multiset (Rev × Score)) :
        ∃ g' peak', ReflTransGen Search.Step
            ⟨f, (parents.map (·, minimal + 1) : List _) + pending, peak⟩ ⟨g', pending, peak'⟩ ∧
          parents.foldr (fun parent => raiseWithin depth parent (minimal + 1)) (f.meet peak) =
            g'.meet peak' := by
      induction parents generalizing pending with
      | nil => exact ⟨f, peak, by simpa using .refl, rfl⟩
      | cons p rest ihrest =>
        -- The other parents are seen to while this one stays pending.
        obtain ⟨mid, midPeak, hsteps, hmid⟩ := ihrest
          (fun q hq => hparents q (List.mem_cons_of_mem _ hq)) ((p, minimal + 1) ::ₘ pending)
        have hsame := same.trans (Search.sameLinks_of_steps hsteps)
        have hheight : mid.height p < depth := by
          have hlt := height_lt_of_isParent hac hrange (hparents p List.mem_cons_self)
          rw [hsame.height]
          omega
        obtain ⟨last, lastPeak, hsteps', hlast⟩ := ih (hsame.acyclic hac) (hsame.inRange hrange)
          hheight (minimal + 1) pending midPeak
        refine ⟨last, lastPeak, ?_, ?_⟩
        · refine ReflTransGen.trans ?_ hsteps'
          simpa [← Multiset.cons_coe, Multiset.cons_add, Multiset.add_cons] using hsteps
        · rw [List.foldr_cons, hmid, hlast]
    unfold raiseWithin
    rw [score_meet, parents_meet]
    split
    · next hlow => exact ⟨_, _, .single (.low hlow), raiseMax_meet _ _ _⟩
    · next hhigh =>
      rw [setScore_meet, raiseMax_meet]
      obtain ⟨last, lastPeak, hsteps, hlast⟩ := hfold (g.setScore r minimal)
        (sameLinks_setScore r minimal) (max peak minimal) (g.parents r) (fun p hp => hp) pending
      exact ⟨last, lastPeak, .head (.high (not_le.1 hhigh)) hsteps, hlast⟩

section Raise

variable (hac : h.Acyclic) (hrange : h.InRange) (hx : x < h.revisions.size)
include hac hrange hx

private theorem exists_steps_raise (minimal : Score) :
    ∃ s, ReflTransGen Search.Step (.start h x minimal) s ∧ s.pending = 0 ∧
      h.raise x minimal = s.history.meet s.peak := by
  obtain ⟨g, peak, hsteps, heq⟩ :=
    exists_steps_raiseWithin hac hrange (height_lt_size hac hx) minimal 0 ⊥
  exact ⟨⟨g, 0, peak⟩, hsteps, rfl, heq⟩

private theorem settled_of_steps (hrises : h.Rises x) {s : Search}
    (steps : ReflTransGen Search.Step (.start h x minimal) s) (hnone : s.pending = 0) :
    Settled h x minimal s.history s.peak := by
  have climbing := Search.Climbing.run hrange hx hrises steps
  rw [hnone] at climbing
  exact climbing.settled hac hrange

/-- The revision itself is raised no further than it is asked for. -/
theorem score_raise_self (hrises : h.Rises x) (minimal : Score) :
    (h.raise x minimal).score x = max (h.score x) minimal := by
  obtain ⟨s, steps, hnone, heq⟩ := exists_steps_raise hac hrange hx minimal
  have settled := settled_of_steps hac hrange hx hrises steps hnone
  obtain ⟨n, hgreatest, hscore⟩ := settled.longest x (.inl rfl)
  have hline : n + h.height x ≤ h.height x := hgreatest.1.add_height_le hac hrange
  have hn : n = 0 := by omega
  rw [heq, score_meet, hscore, hn]
  simp

/-- Raising a revision whose ancestors score above one another gives the least scores that fit, and
the order in which raises are seen to does not matter. -/
theorem raise_settles (hrises : h.Rises x) (minimal : Score) :
    Acc (fun next s : Search => s.Step next) (.start h x minimal) ∧
      (∀ s, ReflTransGen Search.Step (.start h x minimal) s → (∀ next, ¬ s.Step next) →
        Settled h x minimal s.history s.peak) ∧
      ∃ s, ReflTransGen Search.Step (.start h x minimal) s ∧ (∀ next, ¬ s.Step next) ∧
        h.raise x minimal = s.history.meet s.peak := by
  refine ⟨Search.acc_step _ hac hrange, ?_, ?_⟩
  · intro s steps hend
    exact settled_of_steps hac hrange hx hrises steps (Search.pending_eq_zero_iff.2 hend)
  · obtain ⟨s, steps, hnone, heq⟩ := exists_steps_raise hac hrange hx minimal
    exact ⟨s, steps, Search.pending_eq_zero_iff.1 hnone, heq⟩

end Raise

/-- A commit with a link to an ancestor that it reaches over two others as well. Some of the scores
are higher than links take. -/
def detour : History where
  revisions := #[
    { id := .repeated 1, score := 0, parents := [3, 1] },
    { id := .repeated 2, score := 1, parents := [2], children := [0] },
    { id := .repeated 3, score := 5, parents := [3], children := [1] },
    { id := .repeated 4, score := 7, children := [0, 2] }]
  maxScore := 7

theorem raise_settles_detour :
    detour.Ordered ∧ detour.InRange ∧ detour.Rises 0 ∧
      Acc (fun next s : Search => s.Step next) (.start detour 0 5) ∧
      (∃ s : Search, Settled detour 0 5 s.history s.peak ∧ detour.raise 0 5 = s.history.meet s.peak) ∧
      [0, 1, 2, 3].map (detour.raise 0 5).score = [5, 6, 7, 8] := by
  have hord : detour.Ordered := by decide +kernel
  have hrange : detour.InRange := by decide +kernel
  have hrises := hord.rises 0
  obtain ⟨hacc, hsettled, s, steps, hend, heq⟩ :=
    raise_settles hord.acyclic hrange (by decide) hrises 5
  exact ⟨hord, hrange, hrises, hacc, ⟨s, hsettled s steps hend, heq⟩, by decide +kernel⟩

end CommitLanes.History
