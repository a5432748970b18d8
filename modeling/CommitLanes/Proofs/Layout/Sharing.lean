import CommitLanes.Proofs.Layout.Relabel
import CommitLanes.Proofs.Layout.Threads

/-! # Lanes that are shared

Which strands of a row share a lane is decided when the row is drawn: those that touch the revision
do, and with merging on those that pass it on their way to the same parent. Straightening renumbers
the lanes of each row in order, so it never changes that, and neither does it change which strands
have come together in the row above. -/

namespace CommitLanes

theorem Strand.touches_iff {strand : Strand} {r : Rev} :
    strand.touches r ↔ strand.parent = r ∨ strand.child = r := by
  simp [touches]

/-- The two strands of the row of a revision belong in one lane. -/
def Strand.Joins (revision : Rev) (merge : Bool) (a b : Strand) : Prop :=
  (a.touches revision ∧ b.touches revision) ∨
    (merge ∧ ¬ a.touches revision ∧ ¬ b.touches revision ∧ a.parent = b.parent)

private theorem Strand.joins_comm {revision : Rev} {merge : Bool} {a b : Strand} :
    a.Joins revision merge b ↔ b.Joins revision merge a := by
  unfold Joins
  rw [and_comm (a := a.touches revision = true), and_left_comm (a := ¬ a.touches revision = true),
    eq_comm (a := a.parent)]

/-- Two segments are drawn in one lane of the row above. -/
def Met (above : Option Row) (s t : Seg) : Prop :=
  ∃ row ∈ above, ∃ lane, row.lane? s = some lane ∧ row.lane? t = some lane

/-- A strand is drawn as it should be in the row of a revision, to the right of the strands `left`. -/
structure Drawn.Shares (revision : Rev) (above : Option Row) (merge : Bool) (left : List Drawn)
    (b : Drawn) : Prop where
  lane_eq_iff : ∀ a ∈ left, a.lane = b.lane ↔ a.Joins revision merge b.toStrand
  primary_iff : b.sharing = .primary ↔ ∀ a ∈ left, a.lane ≠ b.lane
  ending : b.sharing ≠ .primary → b.parent = revision → b.sharing = .differentStart
  starting : b.sharing ≠ .primary → b.child = revision → b.parent ≠ revision →
    b.sharing = .differentEnd
  passing : ¬ b.touches revision → ∀ a ∈ left, a.lane = b.lane → a.sharing = .primary →
    (Met above a.segment b.segment → b.sharing = .entire) ∧
      (¬ Met above a.segment b.segment → b.sharing = .differentStart)

/-- All strands of a row are drawn as they should be. -/
structure Row.Shares (above : Option Row) (merge : Bool) (row : Row) : Prop where
  lane_eq_iff : ∀ b ∈ row.drawn, b.lane = row.revisionLane ↔ b.touches row.revision
  each : Each (Drawn.Shares row.revision above merge) row.drawn

/-! ## Drawing -/

/-- What holds of a row of which some strands have their lanes. -/
structure Draft.Shares (revision : Rev) (above : Option Row) (merge : Bool) (draft : Draft) :
    Prop where
  lane_lt : ∀ a ∈ draft.drawn, a.lane < draft.free
  touches_iff : ∀ a ∈ draft.drawn, a.touches revision ↔ draft.revisionLane = some a.lane
  exists_of_lane : ∀ lane ∈ draft.revisionLane, ∃ a ∈ draft.drawn, a.lane = lane
  each : Each (Drawn.Shares revision above merge) draft.drawn

namespace Draft.Shares

variable {revision : Rev} {above : Option Row} {merge : Bool} {draft : Draft} {strand : Strand}

theorem empty : Draft.Shares revision above merge {} where
  lane_lt _ hmem := absurd hmem List.not_mem_nil
  touches_iff _ hmem := absurd hmem List.not_mem_nil
  exists_of_lane _ hlane := nomatch hlane
  each := .nil

private theorem met_iff {s t : Seg} : above.any (together · s t) ↔ Met above s t := by
  cases above with
  | none => simp [Met]
  | some row =>
    simp only [Met, Option.any_some, Option.mem_def, Option.some.injEq, exists_eq_left', together]
    cases row.lane? s <;> cases row.lane? t <;> simp [eq_comm]

variable (shares : Draft.Shares revision above merge draft)
include shares

/-- A strand gets a lane of its own if no strand to its left belongs in one with it. -/
private theorem own_shares (hnone : ∀ a ∈ draft.drawn, ¬ a.Joins revision merge strand) :
    Drawn.Shares revision above merge draft.drawn ⟨strand, draft.free, .primary⟩ where
  lane_eq_iff a hmem := iff_of_false (shares.lane_lt a hmem).ne (hnone a hmem)
  primary_iff := iff_of_true rfl fun a hmem => (shares.lane_lt a hmem).ne
  ending hnot := absurd rfl hnot
  starting hnot := absurd rfl hnot
  passing _ a hmem heq := absurd heq (shares.lane_lt a hmem).ne

/-- One more strand is drawn, and the lane of the revision stays what it is to those before. -/
private theorem concat {x : Drawn} {lane? : Option Nat} {free : Nat}
    (hx : Drawn.Shares revision above merge draft.drawn x) (hlt : x.lane < free)
    (hle : draft.free ≤ free) (htouches : x.touches revision ↔ lane? = some x.lane)
    (hsame : ∀ a ∈ draft.drawn, draft.revisionLane = some a.lane ↔ lane? = some a.lane)
    (hexists : ∀ lane ∈ lane?, lane = x.lane ∨ draft.revisionLane = some lane) :
    Draft.Shares revision above merge ⟨draft.drawn ++ [x], lane?, free⟩ where
  lane_lt a hmem := by
    rcases List.mem_append.1 hmem with hmem | hmem
    · exact (shares.lane_lt a hmem).trans_le hle
    · rwa [List.mem_singleton.1 hmem]
  touches_iff a hmem := by
    rcases List.mem_append.1 hmem with hmem | hmem
    · exact (shares.touches_iff a hmem).trans (hsame a hmem)
    · rwa [List.mem_singleton.1 hmem]
  exists_of_lane lane hlane := by
    rcases hexists lane hlane with rfl | hold
    · exact ⟨x, List.mem_concat_self, rfl⟩
    · obtain ⟨a, hmem, heq⟩ := shares.exists_of_lane lane hold
      exact ⟨a, List.mem_append_left _ hmem, heq⟩
  each := shares.each.concat hx

/-- A strand that passes by gets a lane of its own. -/
theorem own (htouches : ¬ strand.touches revision)
    (hnone : ∀ a ∈ draft.drawn, ¬ a.Joins revision merge strand) :
    Draft.Shares revision above merge (draft.own strand) := by
  refine shares.concat (shares.own_shares hnone) (Nat.lt_succ_self _) (Nat.le_succ _)
    (iff_of_false htouches fun hlane => ?_) (fun _ _ => .rfl) fun _ => .inr
  -- The lane is a new one, and so not that of the revision.
  obtain ⟨a, hmem, heq⟩ := shares.exists_of_lane _ hlane
  exact absurd heq (shares.lane_lt a hmem).ne

/-- The first strand that touches the revision gives it a lane. -/
private theorem own_revision (htouches : strand.touches revision)
    (hlane : draft.revisionLane = none) :
    Draft.Shares revision above merge
      { draft.own strand with revisionLane := some draft.free } := by
  have hnot : ∀ a ∈ draft.drawn, ¬ a.touches revision := by
    intro a hmem
    rw [shares.touches_iff a hmem, hlane]
    nofun
  have hnone : ∀ a ∈ draft.drawn, ¬ a.Joins revision merge strand := by
    rintro a hmem (⟨ha, -⟩ | ⟨-, -, hb, -⟩)
    · exact hnot a hmem ha
    · exact hb htouches
  refine shares.concat (shares.own_shares hnone) (Nat.lt_succ_self _) (Nat.le_succ _)
    (iff_of_true htouches rfl) (fun a hmem => ?_) fun lane hlane => .inl (Option.some.inj hlane).symm
  rw [hlane]
  simpa using (shares.lane_lt a hmem).ne'

/-- A strand that touches the revision shares the lane that another one has given it. -/
private theorem share_revision {lane : Nat} (htouches : strand.touches revision)
    (hlane : draft.revisionLane = some lane) :
    Draft.Shares revision above merge (draft.share strand lane
      (if strand.parent = revision then .differentStart else .differentEnd)) := by
  obtain ⟨first, hfirst, heq⟩ := shares.exists_of_lane lane hlane
  refine shares.concat ?_ (heq ▸ shares.lane_lt first hfirst) le_rfl
    (iff_of_true htouches hlane) (fun _ _ => .rfl) fun _ => .inr
  refine {
    lane_eq_iff := fun a hmem => ?_
    primary_iff := ?_
    ending := fun _ hends => if_pos hends
    starting := fun _ _ hnot => if_neg hnot
    passing := fun hpasses => absurd htouches hpasses }
  · -- A strand is in this lane if it touches the revision too.
    have hsame : a.touches revision ↔ a.lane = lane := by
      rw [shares.touches_iff a hmem, hlane, Option.some.injEq, eq_comm]
    rw [← hsame]
    simp [Strand.Joins, htouches]
  · refine iff_of_false ?_ fun hall => hall first hfirst heq
    dsimp only
    split <;> nofun

/-- The strands in the lane of the first one on the way to a parent are those that go there too, and
it is the primary one of them. -/
private theorem lane_partner {earlier : Drawn} (hmerge : merge)
    (htouches : ¬ strand.touches revision)
    (hpartner : draft.partner? revision strand = some earlier) {a : Drawn} (ha : a ∈ draft.drawn) :
    (a.lane = earlier.lane ↔ a.Joins revision merge strand) ∧
      (a.lane = earlier.lane → a.sharing = .primary → a = earlier) := by
  obtain ⟨hearlier, before, after, heq, hfirst⟩ := List.find?_eq_some_iff_append.1 hpartner
  simp only [Bool.and_eq_true, decide_eq_true_eq, Bool.not_eq_true'] at hearlier
  obtain ⟨hparent, hpasses⟩ := hearlier
  have hjoins (a : Drawn) :
      a.Joins revision merge strand ↔ a.Joins revision merge earlier.toStrand := by
    simp [Strand.Joins, htouches, hpasses, hparent]
  rw [heq, List.mem_append, List.mem_cons] at ha
  rcases ha with ha | rfl | ha
  · -- No strand further left goes to that parent.
    have hiff := (shares.each before earlier after heq).lane_eq_iff a ha
    rw [← hjoins] at hiff
    refine ⟨hiff, fun hsame => ?_⟩
    have hnot := hfirst a ha
    rcases hiff.1 hsame with ⟨-, htouch⟩ | ⟨-, hpass, -, hto⟩
    · exact absurd htouch htouches
    · simp [hto, hpass] at hnot
  · exact ⟨iff_of_true rfl (.inr ⟨hmerge, by simp [hpasses], htouches, hparent⟩), fun _ _ => rfl⟩
  · obtain ⟨between, rest, rfl⟩ := List.append_of_mem ha
    rw [← List.cons_append, ← List.append_assoc] at heq
    have hshares := shares.each _ a rest heq
    have hleft : earlier ∈ before ++ earlier :: between := by simp
    have hiff := hshares.lane_eq_iff earlier hleft
    refine ⟨?_, fun hsame hprimary =>
      absurd hsame.symm (hshares.primary_iff.1 hprimary earlier hleft)⟩
    rw [eq_comm, hiff, hjoins, Strand.joins_comm]

/-- A strand that passes by joins the first one on the way to the same parent. -/
private theorem share_partner {earlier : Drawn} (hmerge : merge)
    (htouches : ¬ strand.touches revision)
    (hpartner : draft.partner? revision strand = some earlier) :
    Draft.Shares revision above merge (draft.share strand earlier.lane
      (if above.any (together · earlier.segment strand.segment) then .entire
      else .differentStart)) := by
  have hmem : earlier ∈ draft.drawn := List.mem_of_find?_eq_some hpartner
  have hlane {a : Drawn} (ha : a ∈ draft.drawn) := shares.lane_partner hmerge htouches hpartner ha
  have hpasses : ¬ earlier.touches revision := by
    rcases (hlane hmem).1.1 rfl with ⟨-, htouch⟩ | ⟨-, hpass, -, -⟩
    · exact absurd htouch htouches
    · exact hpass
  refine shares.concat ?_ (shares.lane_lt earlier hmem) le_rfl
    (iff_of_false htouches fun hlane => hpasses ((shares.touches_iff earlier hmem).2 hlane))
    (fun _ _ => .rfl) fun _ => .inr
  refine {
    lane_eq_iff := fun a ha => (hlane ha).1
    primary_iff := ?_
    ending := fun _ hends => absurd (Strand.touches_iff.2 (.inl hends)) htouches
    starting := fun _ hstarts => absurd (Strand.touches_iff.2 (.inr hstarts)) htouches
    passing := fun _ a ha hsame hprimary => ?_ }
  · refine iff_of_false ?_ fun hall => hall earlier hmem rfl
    dsimp only
    split <;> nofun
  · rw [(hlane ha).2 hsame hprimary]
    constructor
    · exact fun hmet => if_pos (met_iff.2 hmet)
    · exact fun hnot => if_neg fun hmet => hnot (met_iff.1 hmet)

omit shares in
/-- A strand that passes by and has none to join does not belong in a lane with any. -/
private theorem not_joins_of_partner? (htouches : ¬ strand.touches revision)
    (hnone : (if merge then draft.partner? revision strand else none) = none) :
    ∀ a ∈ draft.drawn, ¬ a.Joins revision merge strand := by
  rintro a hmem (⟨-, htouch⟩ | ⟨hmerge, hpasses, -, hparent⟩)
  · exact htouches htouch
  · rw [if_pos hmerge] at hnone
    have hnot := List.find?_eq_none.1 hnone a hmem
    simp [hparent, hpasses] at hnot

theorem place (strand : Strand) :
    Draft.Shares revision above merge (draft.place revision above merge strand) := by
  unfold Draft.place
  split
  · next htouches =>
    split
    · next hlane => exact shares.own_revision htouches hlane
    · next lane hlane => exact shares.share_revision htouches hlane
  · next htouches =>
    split
    · next hnone => exact shares.own htouches (not_joins_of_partner? htouches hnone)
    · next earlier hpartner =>
      split at hpartner
      · next hmerge => exact shares.share_partner hmerge htouches hpartner
      · cases hpartner

theorem foldl (strands : List Strand) :
    Draft.Shares revision above merge
      (strands.foldl (Draft.place revision above merge) draft) := by
  induction strands generalizing draft with
  | nil => exact shares
  | cons strand rest ih => exact ih (shares.place strand)

end Draft.Shares

theorem Row.shares_draw (revision : Rev) (strands : List Strand) (above : Option Row)
    (merge : Bool) : (Row.draw revision strands above merge).Shares above merge := by
  have shares : Draft.Shares revision above merge
      (strands.foldl (Draft.place revision above merge) {}) := Draft.Shares.empty.foldl strands
  refine ⟨fun b hmem => ?_, shares.each⟩
  have hlt := shares.lane_lt b hmem
  have htouches := shares.touches_iff b hmem
  unfold draw
  dsimp only
  rw [htouches]
  generalize (strands.foldl (Draft.place revision above merge) {}).revisionLane = lane?
  cases lane? with
  | none => simpa using hlt.ne
  | some lane => simp [eq_comm]

/-! ## Renumbering -/

namespace Row

variable {above : Option Row} {merge : Bool} {row : Row} {f g : Nat → Nat}

theorem met_relabel (hg : Function.Injective g) {s t : Seg} :
    Met (above.map (relabel g)) s t ↔ Met above s t := by
  cases above with
  | none => simp [Met]
  | some row =>
    simp only [Met, Option.map_some, Option.mem_def, Option.some.injEq, exists_eq_left',
      lane?_relabel, Option.map_eq_some_iff]
    constructor
    · rintro ⟨_, ⟨lane, hs, rfl⟩, ⟨lane', ht, heq⟩⟩
      exact ⟨lane, hs, hg heq ▸ ht⟩
    · rintro ⟨lane, hs, ht⟩
      exact ⟨g lane, ⟨lane, hs, rfl⟩, ⟨lane, ht, rfl⟩⟩

/-- Numbers in which different lanes stay different change nothing. -/
theorem Shares.relabel (shares : row.Shares above merge) (hf : Function.Injective f)
    (hg : Function.Injective g) : (row.relabel f).Shares (above.map (Row.relabel g)) merge where
  lane_eq_iff b hmem := by
    obtain ⟨b, hb, rfl⟩ := List.mem_map.1 hmem
    exact hf.eq_iff.trans (shares.lane_eq_iff b hb)
  each := by
    intro left b right heq
    obtain ⟨left, rest, hrow, rfl, hrest⟩ := List.map_eq_append_iff.1 heq
    obtain ⟨b, right, rfl, rfl, rfl⟩ := List.map_eq_cons_iff.1 hrest
    have hb := shares.each left b right hrow
    refine ⟨fun a ha => ?_, ?_, hb.ending, hb.starting, fun hpasses a ha hsame hprimary => ?_⟩
    · obtain ⟨a, hmem, rfl⟩ := List.mem_map.1 ha
      exact hf.eq_iff.trans (hb.lane_eq_iff a hmem)
    · rw [List.forall_mem_map]
      simp only [ne_eq, hf.eq_iff]
      exact hb.primary_iff
    · obtain ⟨a, hmem, rfl⟩ := List.mem_map.1 ha
      simp only [met_relabel hg]
      exact hb.passing hpasses a hmem (hf hsame) hprimary

end Row

namespace Layout

variable {merge : Bool} {rows rows' : Layout}

/-- The row above a row. -/
def above? (rows : Layout) : Nat → Option Row
  | 0 => none
  | k + 1 => rows[k]?

private theorem back?_eq_above? (rows : Layout) : rows.back? = rows.above? rows.size := by
  rw [Array.back?_eq_getElem?]
  cases hsize : rows.size with
  | zero => exact Array.getElem?_eq_none hsize.le
  | succ k => rfl

/-- All strands of all rows are drawn as they should be. -/
def Shares (merge : Bool) (rows : Layout) : Prop :=
  ∀ (k : Nat) (row : Row), rows[k]? = some row → row.Shares (rows.above? k) merge

theorem shares_empty (merge : Bool) : Shares merge #[] := by
  intro k row hrow
  cases hrow

theorem getElem?_take (rows : Layout) (n k : Nat) :
    (rows.take n)[k]? = if k < n then rows[k]? else none := by
  rcases Nat.lt_or_ge k rows.size with hlt | hge
  · simp [Array.getElem?_extract, hlt]
  · simp [Nat.not_lt.2 hge]

theorem Shares.take (shares : Shares merge rows) (n : Nat) : Shares merge (rows.take n) := by
  intro k row hrow
  rw [getElem?_take] at hrow
  split at hrow
  · next hlt =>
    have habove : above? (rows.take n) k = rows.above? k := by
      cases k with
      | zero => rfl
      | succ k => exact (getElem?_take rows n k).trans (if_pos (Nat.lt_of_succ_lt hlt))
    rw [habove]
    exact shares k row hrow
  · cases hrow

private theorem Shares.relabels (shares : Shares merge rows) (relabels : Relabels rows rows') :
    Shares merge rows' := by
  intro k row' hrow'
  obtain ⟨f, hf, -, heq⟩ := relabels k
  rw [hrow'] at heq
  obtain ⟨row, hrow, rfl⟩ := Option.map_eq_some_iff.1 heq.symm
  have hshares := shares k row hrow
  cases k with
  | zero => exact hshares.relabel hf.injective (g := id) Function.injective_id
  | succ k =>
    obtain ⟨g, hg, -, habove⟩ := relabels k
    have hrelabel := hshares.relabel hf.injective hg.injective
    dsimp only [above?] at hrelabel ⊢
    rwa [habove]

theorem shares_drawRow {h : History} {config : Config} {order : List Rev}
    (shares : Shares config.mergeLanes rows) (r : Rev) :
    Shares config.mergeLanes (rows.drawRow h config order r) := by
  intro k row hrow
  unfold drawRow at hrow ⊢
  dsimp only at hrow ⊢
  generalize strandsBelow h config.palette rows.back? r
    (startsAt h config order rows.size r) = strands at hrow ⊢
  have habove {k : Nat} (hle : k ≤ rows.size) (row : Row) :
      above? (rows.push row) k = rows.above? k := by
    cases k with
    | zero => rfl
    | succ k => exact Array.getElem?_push.trans (if_neg (Nat.ne_of_lt hle))
  rw [Array.getElem?_push] at hrow
  split at hrow
  · next heq =>
    -- It is drawn below the last row there is.
    cases hrow
    rw [heq, habove le_rfl, ← back?_eq_above?]
    exact Row.shares_draw r strands rows.back? config.mergeLanes
  · have hlt : k < rows.size := (Array.getElem?_eq_some_iff.1 hrow).1
    rw [habove hlt.le]
    exact shares k row hrow

theorem Redrawn.shares {h : History} {config : Config} {order : List Rev} {keep stop : Nat}
    {old : Layout} (redrawn : Redrawn h config order keep stop old rows)
    (shares : Shares config.mergeLanes old) : Shares config.mergeLanes rows :=
  redrawn.induction shares.take (fun _ r _ shares => shares_drawRow shares r)
    fun rows move shares => shares.relabels (relabels_shift rows move)

end Layout

end CommitLanes
