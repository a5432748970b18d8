import CommitLanes.Proofs.Layout.Shifts
import Mathlib.Data.List.Nodup
import Mathlib.Order.MinMax

/-! # What rows hold

A row holds a revision and strands, and in what lanes these are is another matter. Drawing a row
gives every strand that it is to hold a place, and straightening moves lanes about and nothing else.
So what an extended layout holds was either there before or put there by drawing. -/

namespace CommitLanes

namespace Row

/-- The strands of a row without their lanes. -/
def strands (row : Row) : List Strand := row.drawn.map (·.toStrand)

/-- The segments of a row. -/
def segments (row : Row) : List Seg := row.drawn.map (·.segment)

/-- What a row holds. -/
def content (row : Row) : Rev × List Strand := (row.revision, row.strands)

theorem segments_eq (row : Row) : row.segments = row.strands.map (·.segment) := by
  simp [segments, strands]

theorem carried_eq (row : Row) :
    row.carried = row.strands.filter fun strand => strand.parent ≠ row.revision := by
  simp [carried, strands, List.filter_map, Function.comp_def]

/-- A row that lists no segment twice has one strand for each. -/
theorem find?_of_mem {row : Row} (hnodup : row.segments.Nodup) {strand : Drawn}
    (hmem : strand ∈ row.drawn) : row.find? strand.segment = some strand := by
  unfold find?
  cases hfind : row.drawn.find? (·.segment = strand.segment) with
  | none => exact absurd (decide_eq_true rfl) (List.find?_eq_none.1 hfind strand hmem)
  | some other =>
    have hsegment := List.find?_some hfind
    rw [decide_eq_true_eq] at hsegment
    rw [List.inj_on_of_nodup_map hnodup (List.mem_of_find?_eq_some hfind) hmem hsegment]

@[simp] theorem content_moveRight (row : Row) (lane shift : Nat) :
    (row.moveRight lane shift).content = row.content := by
  simp [content, strands, moveRight, Function.comp_def]

end Row

/-! ## Drawing -/

theorem Draft.strands_place (revision : Rev) (above : Option Row) (merge : Bool) (draft : Draft)
    (strand : Strand) :
    (draft.place revision above merge strand).drawn.map (·.toStrand) =
      draft.drawn.map (·.toStrand) ++ [strand] := by
  unfold place
  split
  · split
    · simp [own]
    · simp [share]
  · split
    · simp [own]
    · simp [share]

theorem Row.revision_draw (revision : Rev) (strands : List Strand) (above : Option Row)
    (merge : Bool) : (Row.draw revision strands above merge).revision = revision := rfl

@[simp] theorem Row.strands_draw (revision : Rev) (strands : List Strand) (above : Option Row)
    (merge : Bool) : (Row.draw revision strands above merge).strands = strands := by
  -- Strands are placed one by one, each after those before.
  have hplaced (draft : Draft) :
      (strands.foldl (Draft.place revision above merge) draft).drawn.map (·.toStrand) =
        draft.drawn.map (·.toStrand) ++ strands := by
    induction strands generalizing draft with
    | nil => simp
    | cons strand rest ih =>
      rw [List.foldl_cons, ih, Draft.strands_place, List.append_assoc]
      rfl
  exact hplaced {}

namespace Layout

/-- What the rows of a layout hold, from the top. -/
def contents (rows : Layout) : List (Rev × List Strand) := rows.toList.map Row.content

/-- The revisions of a layout from the top. -/
def revisions (rows : Layout) : List Rev := rows.toList.map (·.revision)

@[simp] theorem length_revisions (rows : Layout) : rows.revisions.length = rows.size := by
  simp [revisions]

theorem length_contents (rows : Layout) : rows.contents.length = rows.size := by
  simp [contents]

theorem getElem?_contents (rows : Layout) (k : Nat) :
    rows.contents[k]? = rows[k]?.map Row.content := by
  simp [contents]

theorem fst_contents (rows : Layout) : rows.contents.map Prod.fst = rows.revisions := by
  simp [contents, revisions, Row.content, Function.comp_def]

/-- What a row shows is what the layout shows in its place. -/
theorem content_of_getElem? {rows : Layout} {k : Nat} {row : Row} (hrow : rows[k]? = some row) :
    rows.contents[k]? = some row.content := by
  rw [getElem?_contents, hrow]
  rfl

theorem revisions_take_succ {rows : Layout} {k : Nat} {row : Row} (hrow : rows[k]? = some row) :
    rows.revisions.take (k + 1) = rows.revisions.take k ++ [row.revision] := by
  have hrevision : rows.revisions[k]? = some row.revision := by simp [revisions, hrow]
  rw [List.take_add_one, hrevision]
  rfl

theorem contents_take (rows : Layout) (n : Nat) :
    Layout.contents (rows.take n) = rows.contents.take n := by
  simp [contents, List.map_take]

theorem contents_drawRow (h : History) (config : Config) (order : List Rev) (rows : Layout)
    (r : Rev) : (rows.drawRow h config order r).contents =
      rows.contents ++ [(r, strandsBelow h config.palette rows.back? r
        (startsAt h config order rows.size r))] := by
  simp [contents, drawRow, Row.content, Row.revision_draw]

theorem revisions_take (rows : Layout) (n : Nat) :
    Layout.revisions (rows.take n) = rows.revisions.take n := by
  simp [revisions, List.map_take]

theorem revisions_drawRow (h : History) (config : Config) (order : List Rev) (rows : Layout)
    (r : Rev) : (rows.drawRow h config order r).revisions = rows.revisions ++ [r] := by
  simp [revisions, drawRow, Row.revision_draw]

/-! ## Straightening -/

@[simp] theorem contents_shift (rows : Layout) (move : Shift) :
    (rows.shift move).contents = rows.contents := by
  -- A shift has to do with one row, and there with lanes only.
  have hmap : (rows.shift move).map Row.content = rows.map Row.content := by
    refine Array.ext (by simp) fun i hi hi' => ?_
    simp only [shift, Array.getElem_map, Array.getElem_modify]
    split
    · exact Row.content_moveRight _ _ _
    · rfl
  simpa [contents] using congrArg Array.toList hmap

theorem contents_straighten (config : Config) (start : Nat) (final : Bool) (rows : Layout) :
    (rows.straighten config start final).contents = rows.contents :=
  straighten_induction (P := fun rows' => rows'.contents = rows.contents)
    (fun rows' move same => (contents_shift rows' move).trans same) config start final rfl

@[simp] theorem size_straighten (config : Config) (start : Nat) (final : Bool) (rows : Layout) :
    (rows.straighten config start final).size = rows.size := by
  rw [← length_contents, contents_straighten, length_contents]

/-! ## Extending -/

private theorem agreement_le (rows : Layout) (order : List Rev) :
    rows.agreement order ≤ rows.size ∧ rows.agreement order ≤ order.length := by
  have htake := (List.takeWhile_sublist (l := rows.toList.zip order)
    fun x => decide (x.1.revision = x.2)).length_le
  rw [List.length_zip, le_min_iff] at htake
  exact htake

/-- Rows that agree with the order show its revisions. -/
private theorem revisions_take_of_le_agreement {rows : Layout} {order : List Rev} {n : Nat}
    (hn : n ≤ rows.agreement order) : Layout.revisions (rows.take n) = order.take n := by
  have hlist (rows : List Row) (order : List Rev) (n : Nat)
      (hn : n ≤ ((rows.zip order).takeWhile fun x => decide (x.1.revision = x.2)).length) :
      (rows.map (·.revision)).take n = order.take n := by
    induction rows generalizing order n with
    | nil => simp_all
    | cons row rest ih =>
      cases order with
      | nil => simp_all
      | cons r order =>
        cases n with
        | zero => rfl
        | succ n =>
          rw [List.zip_cons_cons, List.takeWhile_cons] at hn
          split at hn
          · next heq =>
            have hrest := ih order n (by simpa using hn)
            simp_all
          · exact absurd hn (Nat.not_succ_le_zero n)
  rw [revisions_take]
  exact hlist rows.toList order n hn

/-- Draws the given revisions below the rows there are. -/
def drawAll (h : History) (config : Config) (order rs : List Rev) (rows : Layout) : Layout :=
  rs.foldl (drawRow h config order) rows

theorem revisions_drawAll {h : History} (config : Config) (order rs : List Rev) (rows : Layout) :
    (drawAll h config order rs rows).revisions = rows.revisions ++ rs := by
  induction rs generalizing rows with
  | nil => simp [drawAll]
  | cons r rest ih =>
    have hrest := ih (rows.drawRow h config order r)
    rw [revisions_drawRow, List.append_assoc] at hrest
    exact hrest

/-- Rows are drawn below those there are. -/
theorem take_drawAll (h : History) (config : Config) (order rs : List Rev) (rows : Layout) {n : Nat}
    (hn : n ≤ rows.size) : (drawAll h config order rs rows).take n = rows.take n := by
  induction rs generalizing rows with
  | nil => rfl
  | cons r rest ih =>
    have hsize : n ≤ (rows.drawRow h config order r).size := by
      simp only [drawRow, Array.size_push]
      omega
    refine (ih _ hsize).trans ?_
    unfold drawRow
    dsimp only
    rw [Array.take_eq_extract, Array.take_eq_extract, Array.extract_push_of_le hn]

theorem size_drawTo (h : History) (config : Config) {order : List Rev} {last : Nat}
    (hlast : last < order.length) (rows : Layout) :
    (rows.drawTo h config order last).size = max rows.size (last + 1) := by
  have hdrawn := congrArg List.length (revisions_drawAll (h := h) config order
    ((order.drop rows.size).take (last + 1 - rows.size)) rows)
  rw [length_revisions, List.length_append, length_revisions, List.length_take,
    List.length_drop] at hdrawn
  exact hdrawn.trans (by omega)

/-- The second layout comes from the first by keeping `keep` rows that agree with the order, by
drawing it from there up to row `stop`, and perhaps by straightening the result. -/
structure Redrawn (h : History) (config : Config) (order : List Rev) (keep stop : Nat)
    (old rows : Layout) : Prop where
  keep_le : keep ≤ stop
  stop_le : stop ≤ order.length
  agrees : Layout.revisions (old.take keep) = order.take keep
  eq : rows = drawAll h config order ((order.drop keep).take (stop - keep)) (old.take keep) ∨
    ∃ start final, rows = straighten config start final
      (drawAll h config order ((order.drop keep).take (stop - keep)) (old.take keep))

private theorem drawAll_induction {P : Layout → Prop} {h : History} {config : Config}
    {order rs : List Rev} {rows : Layout}
    (draw : ∀ rows r, rows.revisions ++ [r] <+: order → P rows → P (rows.drawRow h config order r))
    (hrs : rows.revisions ++ rs <+: order) (start : P rows) :
    P (drawAll h config order rs rows) := by
  induction rs generalizing rows with
  | nil => exact start
  | cons r rest ih =>
    rw [List.append_cons] at hrs
    refine ih ?_ (draw rows r ((List.prefix_append _ _).trans hrs) start)
    rwa [revisions_drawRow]

/-- What holds of every part from the top, and is kept by one more row that agrees with the order and
by a shift, holds of the layout that comes of it. -/
theorem Redrawn.induction {P : Layout → Prop} {h : History} {config : Config} {order : List Rev}
    {keep stop : Nat} {old rows : Layout} (redrawn : Redrawn h config order keep stop old rows)
    (top : ∀ n, P (old.take n))
    (draw : ∀ rows r, rows.revisions ++ [r] <+: order → P rows → P (rows.drawRow h config order r))
    (shift : ∀ rows move, P rows → P (rows.shift move)) : P rows := by
  have hdrawn : P (drawAll h config order ((order.drop keep).take (stop - keep))
      (old.take keep)) := by
    refine drawAll_induction draw ?_ (top keep)
    rw [redrawn.agrees, ← List.take_add]
    exact List.take_prefix _ order
  rcases redrawn.eq with rfl | ⟨start, final, rfl⟩
  · exact hdrawn
  · exact straighten_induction shift config start final hdrawn

/-- The rows that are kept are a part of the layout from the top that agrees with the order, and if
not all are kept then that is published in any case. -/
private theorem exists_keep_eq_take (config : Config) (order : List Rev) (old : Layout) :
    ∃ keep ≤ old.agreement order, keep ≤ old.size ∧ old.keep config order = old.take keep ∧
      ((if old.agreement order < old.size then some (old.keep config order) else none).getD old =
        old.take keep) := by
  obtain ⟨hsize, -⟩ := agreement_le old order
  unfold keep
  dsimp only
  split
  · next hlt =>
    refine ⟨old.agreement order - config.margin, Nat.sub_le _ _, ?_, rfl, rfl⟩
    exact (Nat.sub_le _ _).trans hsize
  · next hge =>
    -- All rows agree with the order.
    have heq : old.agreement order = old.size := by omega
    refine ⟨old.size, heq.ge, le_rfl, ?_, ?_⟩
    · simp
    · simp

theorem contents_keep_isPrefix (config : Config) (order : List Rev) (rows : Layout) :
    (rows.keep config order).contents <+: rows.contents := by
  obtain ⟨keep, -, -, heq, -⟩ := exists_keep_eq_take config order rows
  rw [heq, contents_take]
  exact List.take_prefix _ _

theorem getElem?_contents_keep {config : Config} {order : List Rev} {rows : Layout} {k : Nat}
    (hk : k < (rows.keep config order).size) :
    (rows.keep config order).contents[k]? = rows.contents[k]? := by
  obtain ⟨more, hmore⟩ := contents_keep_isPrefix config order rows
  rw [← hmore, List.getElem?_append_left (hk.trans_eq (length_contents _).symm)]

theorem lastRow?_lt {config : Config} {completed : Bool} {count possible : Nat}
    (hlast : config.lastRow? completed count = some possible) : possible < count := by
  unfold Config.lastRow? at hlast
  dsimp only at hlast
  generalize (if (completed || !config.reduceCrossings) = true then 0
    else config.crossingLookAhead) = reserve at hlast
  split at hlast
  · cases hlast
    omega
  · cases hlast

/-- No row is held back for those below it without crossing reduction, or once all commits are there. -/
theorem lastRow?_eq_some {config : Config} {completed : Bool}
    (hopen : completed = true ∨ config.reduceCrossings = false) {count : Nat} (hpos : 0 < count) :
    config.lastRow? completed count = some (count - 1) := by
  unfold Config.lastRow?
  rcases hopen with rfl | hreduce
  · simp [hpos]
  · simp [hreduce, hpos]

/-- What an extension of a layout down to row `last` comes to: it keeps rows, and if there is
anything below them it draws that and straightens the end. -/
inductive Extension (h : History) (config : Config) (order : List Rev) (last : Nat)
    (completed : Bool) (old : Layout) : Layout → Prop
  | kept (hnone : ∀ possible, config.lastRow? completed order.length = some possible →
      min last possible < (old.keep config order).size) :
    Extension h config order last completed old (old.keep config order)
  | drawn {possible : Nat} (final : Bool)
      (hlast : config.lastRow? completed order.length = some possible)
      (hbelow : (old.keep config order).size ≤ min last possible) :
    Extension h config order last completed old
      (straighten config (old.keep config order).size final
        ((old.keep config order).drawTo h config order (min last possible)))

theorem extension_extend? (h : History) (config : Config) (order : List Rev) (last : Nat)
    (completed : Bool) (published : Option Layout) :
    Extension h config order last completed (published.getD #[])
      ((extend? h config order last completed published).getD (published.getD #[])) := by
  unfold extend?
  generalize published.getD #[] = old
  obtain ⟨keep, -, -, heq, hshort⟩ := exists_keep_eq_take config order old
  rw [← heq] at hshort
  dsimp only
  cases hlast : config.lastRow? completed order.length with
  | none =>
    dsimp only
    rw [hshort]
    refine .kept fun possible hsome => ?_
    rw [hlast] at hsome
    cases hsome
  | some possible =>
    dsimp only
    split
    · next hlt =>
      rw [hshort]
      refine .kept fun p hp => ?_
      rw [hlast] at hp
      cases hp
      exact hlt
    · next hge => exact .drawn _ hlast (Nat.not_lt.1 hge)

section Extension

variable {h : History} {config : Config} {order : List Rev} {last : Nat} {completed : Bool}
  {old rows : Layout} (extension : Extension h config order last completed old rows)
include extension

theorem Extension.size_eq {possible : Nat}
    (hlast : config.lastRow? completed order.length = some possible) :
    rows.size = max (old.keep config order).size (min last possible + 1) := by
  cases extension with
  | kept hnone =>
    have hlt := hnone possible hlast
    omega
  | @drawn bound final hbound hbelow =>
    cases hbound.symm.trans hlast
    have hpossible := lastRow?_lt hlast
    rw [size_straighten, size_drawTo h config (by omega)]

theorem Extension.size_eq_of_none (hnone : config.lastRow? completed order.length = none) :
    rows.size = (old.keep config order).size := by
  cases extension with
  | kept => rfl
  | drawn final hlast => cases hlast.symm.trans hnone

theorem Extension.exists_redrawn : ∃ keep stop, Redrawn h config order keep stop old rows := by
  obtain ⟨-, hlength⟩ := agreement_le old order
  obtain ⟨keep, hkeep, hkeepsize, heq, -⟩ := exists_keep_eq_take config order old
  have hagrees := revisions_take_of_le_agreement hkeep
  have hsize : (old.take keep).size = keep := by simp [hkeepsize]
  cases extension with
  | kept =>
    rw [heq]
    refine ⟨keep, keep, le_rfl, hkeep.trans hlength, hagrees, .inl ?_⟩
    simp [drawAll]
  | @drawn possible final hlast hbelow =>
    have hpossible := lastRow?_lt hlast
    rw [heq, hsize] at hbelow
    rw [heq, hsize]
    refine ⟨keep, min last possible + 1, by omega, by omega, hagrees, .inr ⟨keep, final, ?_⟩⟩
    unfold drawTo
    rw [hsize]
    rfl

/-- What holds of the rows that are kept, and is kept by one more row that agrees with the order and
by a shift, holds of the layout that is extended. -/
theorem Extension.induction {P : Layout → Prop} (kept : P (old.keep config order))
    (draw : ∀ rows r, rows.revisions ++ [r] <+: order → P rows → P (rows.drawRow h config order r))
    (shift : ∀ rows move, P rows → P (rows.shift move)) : P rows := by
  cases extension with
  | kept => exact kept
  | @drawn possible final hlast hbelow =>
    obtain ⟨keep, hkeep, hkeepsize, heq, -⟩ := exists_keep_eq_take config order old
    have hsize : (old.take keep).size = keep := by simp [hkeepsize]
    refine straighten_induction shift config _ final (drawAll_induction draw ?_ kept)
    rw [heq, hsize, revisions_take_of_le_agreement hkeep, ← List.take_add]
    exact List.take_prefix _ order

end Extension

end Layout

end CommitLanes
