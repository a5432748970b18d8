import CommitLanes.Proofs.Layout.Margin
import Mathlib.Order.Monotone.Basic

/-! # Lanes that are renumbered

A shift gives other numbers to the lanes of a row: none gets further left, and their order stays. So
does all straightening, which is made of shifts. -/

namespace CommitLanes

namespace Row

/-- The row with other numbers for its lanes. -/
def relabel (f : Nat → Nat) (row : Row) : Row :=
  { row with
    drawn := row.drawn.map fun strand => { strand with lane := f strand.lane }
    revisionLane := f row.revisionLane }

@[simp] theorem relabel_id (row : Row) : row.relabel id = row := by
  simp [relabel]

theorem relabel_relabel (f g : Nat → Nat) (row : Row) :
    (row.relabel f).relabel g = row.relabel (g ∘ f) := by
  simp [relabel, Function.comp_def]

@[simp] theorem lane?_relabel (f : Nat → Nat) (row : Row) (s : Seg) :
    (row.relabel f).lane? s = (row.lane? s).map f := by
  simp [lane?, find?, relabel, List.find?_map, Function.comp_def]

end Row

namespace Layout

variable {rows rows' rows'' : Layout}

/-- The rows of the second layout are those of the first with their lanes renumbered. -/
def Relabels (rows rows' : Layout) : Prop :=
  ∀ i : Nat, ∃ f : Nat → Nat, StrictMono f ∧ (∀ lane, lane ≤ f lane) ∧
    rows'[i]? = rows[i]?.map (Row.relabel f)

namespace Relabels

theorem refl (rows : Layout) : Relabels rows rows := by
  intro i
  refine ⟨id, strictMono_id, fun _ => le_rfl, ?_⟩
  cases rows[i]? <;> simp

theorem trans (first : Relabels rows rows') (second : Relabels rows' rows'') :
    Relabels rows rows'' := by
  intro i
  obtain ⟨f, hf, hle, hfirst⟩ := first i
  obtain ⟨g, hg, hle', hsecond⟩ := second i
  refine ⟨g ∘ f, hg.comp hf, fun lane => (hle lane).trans (hle' _), ?_⟩
  rw [hsecond, hfirst, Option.map_map]
  congr 1
  exact funext fun row => row.relabel_relabel f g

end Relabels

theorem relabels_shift (rows : Layout) (move : Shift) : Relabels rows (rows.shift move) := by
  intro i
  rw [getElem?_shift]
  split
  · exact ⟨Row.shiftLane move.lane move.width, fun _ _ hlt => Row.shiftLane_lt hlt,
      Row.le_shiftLane _ _, rfl⟩
  · simpa using Relabels.refl rows i

theorem Relabels.shift (relabels : Relabels rows rows') (move : Shift) :
    Relabels rows (rows'.shift move) := relabels.trans (relabels_shift rows' move)

theorem relabels_sweep (find : Stretch → Layout → Nat → Option (List Shift)) (stretch : Stretch)
    (rows : Layout) : Relabels rows (sweep find stretch rows) :=
  sweep_induction (P := Relabels rows)
    (fun _ _ _ _ relabels => shiftAll_induction (fun _ move _ h => h.shift move) relabels)
    (.refl rows)

end Layout

end CommitLanes
