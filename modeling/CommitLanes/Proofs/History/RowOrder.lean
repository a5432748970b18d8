import CommitLanes.History.Order
import CommitLanes.Proofs.History.Gap
import CommitLanes.Proofs.History.Links

/-! # The row order that is remembered

The order found by the last sort is used again for as long as it is not marked as stale. It need
not be the whole order by then: revisions that arrived or moved after it was found come after all
that it lists, and so it is a prefix of the order that a sort would find now. -/

namespace CommitLanes

private theorem Ranking.covers_of_le {ranking : Ranking} {a b : Score} (hab : a ≤ b)
    (hb : ranking.covers b) : ranking.covers a := by
  unfold covers at hb ⊢
  cases hupTo : ranking.upTo with
  | none => simp [hupTo] at hb
  | some last =>
    simp only [hupTo, Option.any_some, decide_eq_true_eq] at hb ⊢
    exact hab.trans hb

namespace History

variable {h h' : History}

/-! ## The order of rows -/

/-- The row of `a` is above the row of `b`: scores decide, and numbers among equal ones. -/
def Before (h : History) (a b : Rev) : Prop :=
  h.score a < h.score b ∨ h.score a = h.score b ∧ a < b

namespace Before

variable {a b c : Rev}

theorem score_le (hab : h.Before a b) : h.score a ≤ h.score b := by
  rcases hab with hlt | ⟨heq, -⟩
  · exact hlt.le
  · exact heq.le

theorem asymm (hab : h.Before a b) (hba : h.Before b a) : False := by
  unfold Before at hab hba
  grind

theorem irrefl (a : Rev) : ¬ h.Before a a := fun haa => haa.asymm haa

private theorem of_precedes (hab : h.precedes a b) (hne : a ≠ b) : h.Before a b := by
  simp only [precedes, Bool.or_eq_true, Bool.and_eq_true, decide_eq_true_eq] at hab
  rcases hab with hlt | ⟨heq, hle⟩
  · exact .inl hlt
  · exact .inr ⟨heq, Nat.lt_of_le_of_ne hle hne⟩

/-- Only the scores of the two revisions matter. -/
theorem of_score_eq (hab : h.Before a b) (ha : h'.score a = h.score a)
    (hb : h'.score b = h.score b) : h'.Before a b := by
  unfold Before
  rw [ha, hb]
  exact hab

end Before

private theorem precedes_trans (a b c : Rev) (hab : h.precedes a b) (hbc : h.precedes b c) :
    h.precedes a c := by
  simp only [precedes, Bool.or_eq_true, Bool.and_eq_true, decide_eq_true_eq] at *
  grind

private theorem precedes_total (a b : Rev) : h.precedes a b || h.precedes b a := by
  simp only [precedes, Bool.or_eq_true, Bool.and_eq_true, decide_eq_true_eq]
  grind

theorem sorted_perm (h : History) : h.sorted.Perm h.arrived := List.mergeSort_perm _ _

theorem mem_sorted {r : Rev} : r ∈ h.sorted ↔ r ∈ h.arrived := h.sorted_perm.mem_iff

theorem length_sorted (h : History) : h.sorted.length = h.count := h.sorted_perm.length_eq

theorem sorted_nodup (hnodup : h.arrived.Nodup) : h.sorted.Nodup := h.sorted_perm.symm.nodup hnodup

private theorem sorted_pairwise_precedes (h : History) :
    h.sorted.Pairwise fun a b => h.precedes a b :=
  List.pairwise_mergeSort precedes_trans precedes_total _

theorem sorted_pairwise (hnodup : h.arrived.Nodup) : h.sorted.Pairwise h.Before :=
  h.sorted_pairwise_precedes.imp₂ (fun _ _ => Before.of_precedes) (sorted_nodup hnodup)

/-- An order of all completed revisions that has each before those that follow is the sorted one. -/
theorem sorted_eq_of_pairwise {order : List Rev} (hperm : order.Perm h.arrived)
    (hpairwise : order.Pairwise fun a b => h.precedes a b) : h.sorted = order := by
  refine List.Perm.eq_of_pairwise (fun a b _ _ hab hba => ?_) h.sorted_pairwise_precedes hpairwise
    (h.sorted_perm.trans hperm.symm)
  -- Of two different ones only one is before the other.
  by_contra hne
  exact (Before.of_precedes hab hne).asymm (.of_precedes hba (Ne.symm hne))

/-! ## A part of the order from the top -/

/-- The list is in order, and all completed revisions that it does not hold come after it. -/
structure Leads (h : History) (order : List Rev) : Prop where
  pairwise : order.Pairwise h.Before
  mem : ∀ r ∈ order, r ∈ h.arrived
  before : ∀ r ∈ order, ∀ q ∈ h.arrived, q ∉ order → h.Before r q

private theorem Leads.nodup {order : List Rev} (hleads : h.Leads order) : order.Nodup := by
  apply hleads.pairwise.imp
  rintro a _ hab rfl
  exact Before.irrefl a hab

/-- Such a list is what a sort puts first. -/
theorem leads_iff_isPrefix (hnodup : h.arrived.Nodup) {order : List Rev} :
    h.Leads order ↔ order <+: h.sorted := by
  constructor
  · -- The list and what it leaves of the sorted order are in order one after the other, and there is
    -- only one order to put all of them in.
    intro hleads
    refine ⟨h.sorted.filter (· ∉ order), ?_⟩
    refine List.Perm.eq_of_pairwise (fun a b _ _ (hab : h.Before a b) hba => (hab.asymm hba).elim)
      ?_ ?_ ?_
    · rw [List.pairwise_append]
      refine ⟨hleads.pairwise, (sorted_pairwise hnodup).filter _, fun r hr q hq => ?_⟩
      obtain ⟨hq, hout⟩ := List.mem_filter.1 hq
      exact hleads.before r hr q (mem_sorted.1 hq) (of_decide_eq_true hout)
    · exact sorted_pairwise hnodup
    · rw [List.perm_ext_iff_of_nodup]
      · intro r
        have := hleads.mem r
        simp only [List.mem_append, List.mem_filter, mem_sorted, decide_eq_true_eq]
        tauto
      · rw [List.nodup_append]
        refine ⟨hleads.nodup, (sorted_nodup hnodup).filter _, fun r hr q hq heq => ?_⟩
        exact of_decide_eq_true (List.mem_filter.1 hq).2 (heq ▸ hr)
      · exact sorted_nodup hnodup
  · -- What a sorted list puts first comes before the rest of it.
    rintro ⟨rest, hrest⟩
    have hpairwise := sorted_pairwise hnodup
    rw [← hrest, List.pairwise_append] at hpairwise
    refine ⟨hpairwise.1, fun r hr => ?_, fun r hr q hq hout => ?_⟩
    · rw [← mem_sorted, ← hrest]
      exact List.mem_append_left _ hr
    · rw [← mem_sorted, ← hrest] at hq
      exact hpairwise.2.2 r hr q ((List.mem_append.1 hq).resolve_left hout)

/-- The last revision of a list in order has the highest score. -/
private theorem Leads.score_le_last {order : List Rev} (hleads : h.Leads order) {r last : Rev}
    (hr : r ∈ order) (hlast : order.getLast? = some last) : h.score r ≤ h.score last := by
  obtain ⟨front, rfl⟩ := List.getLast?_eq_some_iff.1 hlast
  rcases List.mem_append.1 hr with hfront | hr
  · have hpairwise := List.pairwise_append.1 hleads.pairwise
    exact (hpairwise.2.2 r hfront last (List.mem_singleton_self last)).score_le
  · rw [List.mem_singleton.1 hr]

/-! ## The order as last computed -/

/-- The order as last computed leads, and its last score is known, unless it is marked as stale. -/
def Ranked (h : History) : Prop :=
  h.ranking.stale = false →
    h.Leads h.ranking.order ∧ h.ranking.upTo = h.ranking.order.getLast?.map h.score

namespace Ranked

theorem of_stale (hstale : h.ranking.stale = true) : h.Ranked :=
  fun hs => absurd (hs.symm.trans hstale) (by decide)

private theorem covers_of_mem (hr : h.Ranked) (hs : h.ranking.stale = false) {r : Rev}
    (hmem : r ∈ h.ranking.order) : h.ranking.covers (h.score r) := by
  obtain ⟨hleads, hupTo⟩ := hr hs
  cases hlast : h.ranking.order.getLast? with
  | none => exact absurd hmem (by simp [List.getLast?_eq_none_iff.1 hlast])
  | some last =>
    rw [Ranking.covers, hupTo, hlast]
    exact decide_eq_true (hleads.score_le_last hmem hlast)

/-- A score that is not covered lies after all that is ordered. -/
theorem lt_of_not_covers (hr : h.Ranked) (hs : h.ranking.stale = false) {r : Rev}
    (hmem : r ∈ h.ranking.order) {score : Score} (hscore : ¬ h.ranking.covers score) :
    h.score r < score := by
  have hcovers := hr.covers_of_mem hs hmem
  unfold Ranking.covers at hcovers hscore
  cases hupTo : h.ranking.upTo with
  | none => simp [hupTo] at hcovers
  | some last =>
    simp only [hupTo, Option.any_some, decide_eq_true_eq, not_le] at hcovers hscore
    exact hcovers.trans_lt hscore

/-- What covers a score is a completed revision at or below it. -/
theorem exists_of_covers (hr : h.Ranked) (hs : h.ranking.stale = false) {score : Score}
    (hcovers : h.ranking.covers score) : ∃ last ∈ h.arrived, score ≤ h.score last ∧
      h.ranking.upTo = some (h.score last) := by
  obtain ⟨hleads, hupTo⟩ := hr hs
  cases hlast : h.ranking.order.getLast? with
  | none => simp [Ranking.covers, hupTo, hlast] at hcovers
  | some last =>
    rw [hlast] at hupTo
    refine ⟨last, hleads.mem last (List.mem_of_getLast? hlast), ?_, hupTo⟩
    simpa [Ranking.covers, hupTo] using hcovers

end Ranked

/-- Scores may move about where nothing is ordered, but not up into what is. -/
private theorem Rescored.ranked (moved : Rescored h h')
    (hstay : h'.ranking.stale = false → ∀ r ∈ h.arrived,
      ¬ h.ranking.covers (h.score r) → ¬ h.ranking.covers (h'.score r))
    (hmem : ∀ r, r ∈ h.arrived ↔ (h.revision r).completed = true)
    (hr : h.Ranked) : h'.Ranked := by
  intro hs'
  have hs := moved.stale hs'
  obtain ⟨hleads, hupTo⟩ := hr hs
  -- What is ordered is covered, and it would have disturbed the order by moving.
  have hordered : ∀ r ∈ h.ranking.order, h'.score r = h.score r := fun r hmemr =>
    moved.unmoved hs' r ((hmem r).1 (hleads.mem r hmemr)) (hr.covers_of_mem hs hmemr)
  have hbefore : ∀ r ∈ h.ranking.order, ∀ q ∈ h.arrived, q ∉ h.ranking.order → h'.Before r q := by
    intro r hmemr q hq hout
    by_cases hcovers : h.ranking.covers (h.score q)
    · -- It has the last score of the order, and there its number decides as before.
      have hq' := moved.unmoved hs' q ((hmem q).1 hq) hcovers
      exact (hleads.before r hmemr q hq hout).of_score_eq (hordered r hmemr) hq'
    · left
      rw [hordered r hmemr]
      exact hr.lt_of_not_covers hs hmemr (hstay hs' q hq hcovers)
  have hupTo' : h.ranking.order.getLast?.map h.score = h.ranking.order.getLast?.map h'.score := by
    cases hlast : h.ranking.order.getLast? with
    | none => rfl
    | some last => exact congrArg some (hordered last (List.mem_of_getLast? hlast)).symm
  rw [moved.order, moved.upTo, hupTo, hupTo']
  exact ⟨{
    pairwise := hleads.pairwise.imp_of_mem fun ha hb hab =>
      hab.of_score_eq (hordered _ ha) (hordered _ hb)
    mem := fun r hr => moved.arrivals ▸ hleads.mem r hr
    before := fun r hr q hq hout => hbefore r hr q (moved.arrivals ▸ hq) hout }, rfl⟩

/-- What moves up out of the order or further down was no part of it. -/
theorem Rescored.ranked_of_le (moved : Rescored h h') (hle : ∀ r ∈ h.arrived, h.score r ≤ h'.score r)
    (hmem : ∀ r, r ∈ h.arrived ↔ (h.revision r).completed = true) (hr : h.Ranked) : h'.Ranked := by
  refine moved.ranked (fun _ r harrived hcovers hcovers' => hcovers ?_) hmem hr
  exact Ranking.covers_of_le (hle r harrived) hcovers'

/-- If a gap moves nothing that is ordered then all scores that it moves stay after the order. -/
theorem Shifted.ranked {insertion : Insertion} {rs : List Rev} (shifted : Shifted insertion rs h h')
    (hw : h.WellLinked) (hall : ∀ r ∈ h.arrived, r ∈ rs) (hr : h.Ranked) : h'.Ranked := by
  refine shifted.toRescored.ranked (fun hs' r harrived hcovers hcovers' => hcovers ?_)
    hw.mem_arrived hr
  have hs := shifted.stale hs'
  obtain ⟨last, hlast, hle, hupTo⟩ := hr.exists_of_covers hs hcovers'
  have hself : h.ranking.covers (h.score last) := by
    simp [Ranking.covers, hupTo]
  have hunmoved := shifted.unmoved hs' last ((hw.mem_arrived last).1 hlast) hself
  rw [shifted.score, if_pos (hall last hlast)] at hunmoved
  rw [shifted.score, if_pos (hall r harrived)] at hle
  -- The last revision stays, so that it scores at or above the insertion, or nothing moves at all.
  have hscore : h.score r ≤ h.score last := by
    unfold Insertion.shift at hunmoved hle
    lia
  simpa [Ranking.covers, hupTo] using hscore

/-! ## Bringing the order up to date -/

theorem ranked_rerank (hnodup : h.arrived.Nodup) : h.rerank.Ranked :=
  fun _ => ⟨(leads_iff_isPrefix (h := h.rerank) hnodup).2 List.prefix_rfl, rfl⟩

private theorem rank_cases (h : History) (row : Nat) :
    (h.rank row = h ∧ h.ranking.stale = false ∧
      min h.count (row + 1) ≤ h.ranking.order.length) ∨ h.rank row = h.rerank := by
  unfold rank
  split
  · next hserves => exact .inl ⟨rfl, by simpa [Ranking.serves] using hserves⟩
  · exact .inr rfl

theorem ranked_rank (hnodup : h.arrived.Nodup) (hr : h.Ranked) (row : Nat) :
    (h.rank row).Ranked := by
  rcases rank_cases h row with ⟨heq, -⟩ | heq
  · rwa [heq]
  · rw [heq]
    exact ranked_rerank hnodup

/-- After it is brought up to date through a row, the order leads, and it reaches that row as far as
there are revisions. -/
theorem order_rank (hnodup : h.arrived.Nodup) (hr : h.Ranked) (row : Nat) :
    (h.rank row).ranking.order <+: h.sorted ∧
      min h.count (row + 1) ≤ (h.rank row).ranking.order.length := by
  rcases rank_cases h row with ⟨heq, hs, hlength⟩ | heq
  · rw [heq]
    exact ⟨(leads_iff_isPrefix hnodup).1 (hr hs).1, hlength⟩
  · rw [heq]
    exact ⟨List.prefix_rfl, (min_le_left _ _).trans h.length_sorted.ge⟩

end History

end CommitLanes
