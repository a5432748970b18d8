import CommitLanes.Proofs.Layout.Sharing

/-! # Lanes from left to right

A strand that gets a lane of its own gets the first one right of all those given out before. So the
lanes of the primary strands of a row that is drawn count up from left to right. Renumbering lanes in
order leaves gaps, but it leaves those further right in lanes further right. -/

namespace CommitLanes

variable {revision : Rev} {above : Option Row} {merge : Bool} {row : Row}

/-- Of two primary strands the right one is in the right one of their lanes. -/
def Row.Rises (row : Row) : Prop :=
  row.drawn.Pairwise fun a b => a.sharing = .primary → b.sharing = .primary → a.lane < b.lane

/-- The lanes of the primary strands from left to right. -/
def primaryLanes (drawn : List Drawn) : List Nat :=
  (drawn.filter (·.sharing = .primary)).map (·.lane)

private theorem primaryLanes_append (left right : List Drawn) :
    primaryLanes (left ++ right) = primaryLanes left ++ primaryLanes right := by
  simp [primaryLanes]

private theorem Row.rises_iff : row.Rises ↔ (primaryLanes row.drawn).Pairwise (· < ·) := by
  simp only [Rises, primaryLanes, List.pairwise_map, List.pairwise_filter, decide_eq_true_eq]

/-! ## Drawing -/

/-- The lanes given out are those of the primary strands, each once and in order. -/
def Draft.Counts (draft : Draft) : Prop := primaryLanes draft.drawn = List.range draft.free

namespace Draft.Counts

variable {draft : Draft} (counts : draft.Counts)
include counts

theorem own (strand : Strand) (lane? : Option Nat) :
    Draft.Counts { draft.own strand with revisionLane := lane? } :=
  calc primaryLanes (draft.drawn ++ [⟨strand, draft.free, .primary⟩])
    _ = primaryLanes draft.drawn ++ [draft.free] := primaryLanes_append _ _
    _ = List.range draft.free ++ [draft.free] := by rw [counts]
    _ = List.range (draft.free + 1) := List.range_succ.symm

theorem share (strand : Strand) (lane : Nat) {sharing : Sharing} (hshares : sharing ≠ .primary) :
    (draft.share strand lane sharing).Counts := by
  have hnone : primaryLanes [⟨strand, lane, sharing⟩] = [] := by simp [primaryLanes, hshares]
  calc primaryLanes (draft.drawn ++ [⟨strand, lane, sharing⟩])
    _ = primaryLanes draft.drawn ++ [] := hnone ▸ primaryLanes_append _ _
    _ = List.range draft.free := by rw [List.append_nil, counts]

/-- A strand is the primary one of a new lane, or not a primary one. -/
theorem place (strand : Strand) : (draft.place revision above merge strand).Counts := by
  unfold Draft.place
  split
  · split
    · exact counts.own strand _
    · refine counts.share strand _ ?_
      split <;> nofun
  · split
    · exact counts.own strand _
    · refine counts.share strand _ ?_
      split <;> nofun

theorem foldl (strands : List Strand) :
    (strands.foldl (Draft.place revision above merge) draft).Counts := by
  induction strands generalizing draft with
  | nil => exact counts
  | cons strand rest ih => exact ih (counts.place strand)

end Draft.Counts

theorem Draft.counts_empty : Draft.Counts {} := rfl

theorem Row.rises_draw (revision : Rev) (strands : List Strand) (above : Option Row) (merge : Bool) :
    (Row.draw revision strands above merge).Rises := by
  have counts : (strands.foldl (Draft.place revision above merge) {}).Counts :=
    Draft.counts_empty.foldl strands
  rw [rises_iff, draw, counts]
  exact List.pairwise_lt_range

namespace Row.Rises

theorem relabel {f : Nat → Nat} (rises : row.Rises) (hf : StrictMono f) : (row.relabel f).Rises :=
  List.pairwise_map.2 <| List.Pairwise.imp (fun hlt ha hb => hf (hlt ha hb)) rises

/-- The lanes of primary strands tell which one is further left. -/
theorem lane_lt_iff (rises : row.Rises) (hnodup : row.segments.Nodup) {a b : Drawn}
    (ha : a ∈ row.drawn) (hb : b ∈ row.drawn) (hprimary : a.sharing = .primary)
    (hprimary' : b.sharing = .primary) :
    a.lane < b.lane ↔ row.segments.idxOf a.segment < row.segments.idxOf b.segment := by
  have hposition {i : Nat} (hi : i < row.drawn.length) :
      row.segments.idxOf row.drawn[i].segment = i := by
    have hget := hnodup.idxOf_getElem i (by simpa [segments] using hi)
    simpa [segments] using hget
  obtain ⟨i, hi, rfl⟩ := List.getElem_of_mem ha
  obtain ⟨j, hj, rfl⟩ := List.getElem_of_mem hb
  have hlane := List.pairwise_iff_getElem.1 rises
  rw [hposition hi, hposition hj]
  constructor
  · intro hlt
    by_contra hge
    rcases Nat.lt_or_eq_of_le (Nat.not_lt.1 hge) with hji | rfl
    · exact absurd (hlane j i hj hi hji hprimary' hprimary) hlt.not_gt
    · exact absurd hlt (lt_irrefl _)
  · exact fun hij => hlane i j hi hj hij hprimary hprimary'

end Row.Rises

/-! ## From layout to layout -/

namespace Layout

variable {rows rows' : Layout}

/-- In all rows lanes rise from left to right. -/
def Rises (rows : Layout) : Prop := ∀ row ∈ rows, row.Rises

theorem rises_empty : Rises #[] := fun _ hmem => absurd hmem (Array.not_mem_empty _)

theorem Rises.take (rises : Rises rows) (n : Nat) : Rises (rows.take n) := by
  intro row hmem
  obtain ⟨i, hrow⟩ := Array.mem_iff_getElem?.1 hmem
  rw [getElem?_take] at hrow
  split at hrow
  · exact rises row (Array.mem_of_getElem? hrow)
  · cases hrow

theorem Rises.drawRow (rises : Rises rows) (h : History) (config : Config) (order : List Rev)
    (r : Rev) : Rises (rows.drawRow h config order r) := by
  intro row hmem
  rcases Array.mem_push.1 hmem with hmem | rfl
  · exact rises row hmem
  · exact Row.rises_draw _ _ _ _

theorem Rises.shift (rises : Rises rows) (move : Shift) : Rises (rows.shift move) := by
  intro row hmem
  obtain ⟨i, hrow⟩ := Array.mem_iff_getElem?.1 hmem
  obtain ⟨f, hf, -, heq⟩ := relabels_shift rows move i
  rw [hrow] at heq
  obtain ⟨old, hold, rfl⟩ := Option.map_eq_some_iff.1 heq.symm
  exact (rises old (Array.mem_of_getElem? hold)).relabel hf

end Layout

end CommitLanes
