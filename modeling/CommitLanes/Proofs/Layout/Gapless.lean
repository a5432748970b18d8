import CommitLanes.Proofs.Layout.Rise

/-! # Rows without gaps

The lanes of a row that is drawn are used one after the other from the left, and none is left out. A
revision that no strand touches is in the lane right of them all. -/

namespace CommitLanes

variable {revision : Rev} {above : Option Row} {merge : Bool} {row : Row}

namespace Row

private theorem lt_laneCount_iff {lane : Nat} :
    lane < row.laneCount ↔ lane ≤ row.revisionLane ∨ ∃ b ∈ row.drawn, lane ≤ b.lane := by
  have hmax (drawn : List Drawn) (width : Nat) :
      lane < drawn.foldl (fun width strand => max width (strand.lane + 1)) width ↔
        lane < width ∨ ∃ b ∈ drawn, lane ≤ b.lane := by
    induction drawn generalizing width with
    | nil => simp
    | cons b rest ih =>
      rw [List.foldl_cons, ih, lt_max_iff, Nat.lt_succ_iff, or_assoc, List.exists_mem_cons_iff]
  rw [laneCount, hmax, Nat.lt_succ_iff]

/-- The leftmost strand of a lane is its primary one, and it is the only one. -/
private theorem Shares.sharing_of_inLane (shares : row.Shares above merge) {lane : Nat}
    {first : Drawn} {rest : List Drawn} (hlane : row.inLane lane = first :: rest) :
    first.sharing = .primary ∧ ∀ other ∈ rest, other.sharing ≠ .primary := by
  obtain ⟨left, right, hrow, hleft, hfirst, rfl⟩ := List.filter_eq_cons_iff.1 hlane
  have hin := of_decide_eq_true hfirst
  refine ⟨(shares.each left first right hrow).primary_iff.2 fun a ha heq => ?_, ?_⟩
  · exact hleft a ha (decide_eq_true (heq.trans hin))
  · intro other hother hprimary
    obtain ⟨hmem, hsame⟩ := List.mem_filter.1 hother
    obtain ⟨between, after, rfl⟩ := List.append_of_mem hmem
    rw [← List.cons_append, ← List.append_assoc] at hrow
    -- The first strand in the lane stands to its left.
    refine (shares.each _ other after hrow).primary_iff.1 hprimary first (by simp) ?_
    exact hin.trans (of_decide_eq_true hsame).symm

end Row

/-- The lanes given out so far are just those that some strand is in. -/
private theorem Draft.lt_free_iff {draft : Draft} (shares : Draft.Shares revision above merge draft)
    (counts : draft.Counts) {lane : Nat} : lane < draft.free ↔ ∃ b ∈ draft.drawn, b.lane = lane := by
  constructor
  · intro hlt
    have hmem : lane ∈ primaryLanes draft.drawn := counts ▸ List.mem_range.2 hlt
    obtain ⟨b, hb, heq⟩ := List.mem_map.1 hmem
    exact ⟨b, List.mem_of_mem_filter hb, heq⟩
  · rintro ⟨b, hb, rfl⟩
    exact shares.lane_lt b hb

namespace Row

/-- The lanes that strands are in are the first so many, and that of the revision is one of them or the
next one. -/
private theorem exists_free_draw (revision : Rev) (strands : List Strand) (above : Option Row)
    (merge : Bool) :
    ∃ free, (∀ lane, lane < free ↔ ∃ b ∈ (draw revision strands above merge).drawn, b.lane = lane) ∧
      (draw revision strands above merge).revisionLane ≤ free := by
  have shares : Draft.Shares revision above merge
      (strands.foldl (Draft.place revision above merge) {}) := Draft.Shares.empty.foldl strands
  have counts : (strands.foldl (Draft.place revision above merge) {}).Counts :=
    Draft.counts_empty.foldl strands
  refine ⟨_, fun _ => Draft.lt_free_iff shares counts, ?_⟩
  unfold draw
  dsimp only
  cases hlane : (strands.foldl (Draft.place revision above merge) {}).revisionLane with
  | none => exact le_rfl
  | some lane =>
    obtain ⟨b, hb, rfl⟩ := shares.exists_of_lane lane hlane
    exact (shares.lane_lt b hb).le

/-- A row that is drawn shows the strands it is given, in that order. All of its lanes are in use, by a
strand or by the revision. The lanes of the primary strands rise from left to right, and the leftmost
strand of each lane is the only primary one there. The revision has a lane of its own, the last one, if
no strand touches it, and only then. -/
theorem gapless_draw (revision : Rev) (strands : List Strand) (above : Option Row) (merge : Bool) :
    let row := draw revision strands above merge
    row.content = (revision, strands) ∧
      (∀ lane, lane < row.laneCount ↔ lane = row.revisionLane ∨ ∃ b ∈ row.drawn, b.lane = lane) ∧
      row.Rises ∧
      (∀ lane first rest, row.inLane lane = first :: rest →
        first.sharing = .primary ∧ ∀ other ∈ rest, other.sharing ≠ .primary) ∧
      ((∀ b ∈ row.drawn, ¬ b.touches revision) ↔
        row.laneCount = row.revisionLane + 1 ∧ ∀ b ∈ row.drawn, b.lane ≠ row.revisionLane) := by
  intro row
  have shares : row.Shares above merge := shares_draw revision strands above merge
  obtain ⟨free, hfree, hle⟩ := exists_free_draw revision strands above merge
  have hlanes (lane : Nat) : lane < row.laneCount ↔
      lane = row.revisionLane ∨ ∃ b ∈ row.drawn, b.lane = lane := by
    rw [lt_laneCount_iff, ← hfree]
    constructor
    · rintro (hrevision | ⟨b, hb, hlane⟩)
      · exact hrevision.eq_or_lt.imp_right fun hlt => hlt.trans_le hle
      · exact .inr (hlane.trans_lt ((hfree b.lane).2 ⟨b, hb, rfl⟩))
    · rintro (rfl | hlt)
      · exact .inl le_rfl
      · obtain ⟨b, hb, rfl⟩ := (hfree lane).1 hlt
        exact .inr ⟨b, hb, le_rfl⟩
  have hapart : (∀ b ∈ row.drawn, ¬ b.touches revision) ↔
      ∀ b ∈ row.drawn, b.lane ≠ row.revisionLane :=
    forall₂_congr fun b hb => not_congr (shares.lane_eq_iff b hb).symm
  refine ⟨?_, hlanes, rises_draw _ _ _ _, fun _ _ _ => shares.sharing_of_inLane, ?_⟩
  · exact Prod.ext rfl (strands_draw revision strands above merge)
  · rw [hapart, iff_and_self]
    intro hnone
    -- The lane of the revision is the one right of all that strands are in.
    have hlast : row.revisionLane = free := by
      refine hle.eq_of_not_lt fun hlt => ?_
      obtain ⟨b, hb, heq⟩ := (hfree _).1 hlt
      exact hnone b hb heq
    refine eq_of_forall_lt_iff fun lane => ?_
    rw [hlanes, ← hfree, hlast, Nat.lt_succ_iff, le_iff_eq_or_lt]

end Row

end CommitLanes
