import CommitLanes.History.Add
import CommitLanes.Line
import Mathlib.Data.List.Nodup
import Mathlib.Data.List.Perm.Subperm
import Mathlib.Data.Nat.ModEq

/-! # A color of its own

Three seeds in a row give three colors, and of five seeds that are tried some three are in a row even
where seeds start again at zero. So a color is found that is none of the two that may be taken. -/

namespace CommitLanes

/-- The color that a seed some steps further on gives. -/
def colorAfter (palette : Nat) (seed : UInt32) (steps : Nat) : Nat :=
  (seed + steps.toUInt32).toNat % palette

private theorem toNat_add_toUInt32 (seed : UInt32) (steps : Nat) :
    (seed + steps.toUInt32).toNat = (seed.toNat + steps) % UInt32.size := by
  simp [UInt32.toNat_add, UInt32.size]

/-- Some three of the seeds are numbers in a row. -/
private theorem exists_run_of_seeds (seed : UInt32) :
    ∃ skip ≤ 2, ∃ first, ∀ i < 3, (seed + (skip + i).toUInt32).toNat = first + i := by
  have hlt := seed.toNat_lt
  by_cases hfits : seed.toNat + 2 < UInt32.size
  · refine ⟨0, by omega, seed.toNat, fun i hi => ?_⟩
    rw [toNat_add_toUInt32, Nat.mod_eq_of_lt (by omega), Nat.zero_add]
  · refine ⟨2, le_rfl, seed.toNat + 2 - UInt32.size, fun i hi => ?_⟩
    rw [toNat_add_toUInt32]
    unfold UInt32.size at *
    omega

private theorem add_mod_injOn {palette : Nat} (hpalette : 3 ≤ palette) (first : Nat) {i j : Nat}
    (hi : i < 3) (hj : j < 3) (heq : (first + i) % palette = (first + j) % palette) : i = j := by
  have hmod : i ≡ j [MOD palette] := Nat.ModEq.add_left_cancel' first heq
  exact hmod.eq_of_lt_of_lt (hi.trans_le hpalette) (hj.trans_le hpalette)

private theorem exists_color {palette : Nat} (hpalette : 3 ≤ palette) (seed : UInt32)
    {taken : List Nat} (htaken : taken.length ≤ 2) :
    ∃ steps < 5, colorAfter palette seed steps ∉ taken := by
  obtain ⟨skip, hskip, first, hrun⟩ := exists_run_of_seeds seed
  by_contra hnone
  have hall : ∀ steps < 5, colorAfter palette seed steps ∈ taken := by
    intro steps hsteps
    by_contra hfree
    exact hnone ⟨steps, hsteps, hfree⟩
  -- Three different colors would be taken.
  have hcolors : ((List.range 3).map fun i => (first + i) % palette).Nodup :=
    List.Nodup.map_on (fun i hi j hj heq =>
      add_mod_injOn hpalette first (List.mem_range.1 hi) (List.mem_range.1 hj) heq) List.nodup_range
  have hsubset : ((List.range 3).map fun i => (first + i) % palette) ⊆ taken := by
    intro color hcolor
    obtain ⟨i, hi, rfl⟩ := List.mem_map.1 hcolor
    rw [List.mem_range] at hi
    rw [← hrun i hi]
    exact hall (skip + i) (by omega)
  have hlength := (List.Nodup.subperm hcolors hsubset).length_le
  rw [List.length_map, List.length_range] at hlength
  omega

namespace Line

/-- The color that is picked is the first one that is not taken. -/
private theorem exists_pickColor_eq {palette : Nat} (hpalette : 3 ≤ palette) (seed : UInt32)
    {taken : List Nat} (htaken : taken.length ≤ 2) :
    ∃ steps < 5, pickColor palette seed taken = colorAfter palette seed steps ∧
      colorAfter palette seed steps ∉ taken ∧ ∀ i < steps, colorAfter palette seed i ∈ taken := by
  have hpick : pickColor palette seed taken =
      (((List.range 5).find? fun steps => colorAfter palette seed steps ∉ taken).map
        (colorAfter palette seed)).getD 0 := by
    rw [pickColor, List.find?_map]
    rfl
  cases hfind : (List.range 5).find? fun steps => colorAfter palette seed steps ∉ taken with
  | none =>
    obtain ⟨steps, hsteps, hfree⟩ := exists_color hpalette seed htaken
    exact absurd (decide_eq_true hfree)
      (List.find?_eq_none.1 hfind steps (List.mem_range.2 hsteps))
  | some steps =>
    obtain ⟨hfree, hsteps, hbefore⟩ := List.find?_range_eq_some.1 hfind
    rw [hfind] at hpick
    exact ⟨steps, List.mem_range.1 hsteps, hpick, of_decide_eq_true hfree, by simpa using hbefore⟩

private theorem pickColor_notMem {palette : Nat} (hpalette : 3 ≤ palette) (seed : UInt32)
    {taken : List Nat} (htaken : taken.length ≤ 2) : pickColor palette seed taken ∉ taken := by
  obtain ⟨steps, -, heq, hfree, -⟩ := exists_pickColor_eq hpalette seed htaken
  rwa [heq]

variable {h : History} {palette : Nat} (hpalette : 3 ≤ palette) (segment : Segment)
include hpalette

theorem color_opening_ne (left : Line) :
    (opening h palette segment (some left)).color ≠ left.color := by
  have hfree : (opening h palette segment (some left)).color ∉ [left.color] :=
    pickColor_notMem hpalette _ (Nat.le_succ 1)
  rwa [List.mem_singleton] at hfree

theorem color_branching_ne (trunk left : Line) :
    (branching h palette segment trunk (some left)).color ≠ trunk.color ∧
      (branching h palette segment trunk (some left)).color ≠ left.color := by
  have hfree : (branching h palette segment trunk (some left)).color ∉ [trunk.color, left.color] :=
    pickColor_notMem hpalette _ le_rfl
  simpa using hfree

end Line

/-! ## The search -/

/-- The search for a color that starts at a seed, by the number of seeds it passes over and the color
it ends with. It ends as soon as a color is free. -/
inductive ColorSearch (palette : Nat) (taken : List Nat) : UInt32 → Nat → Nat → Prop
  | found {seed : UInt32} (hfree : seed.toNat % palette ∉ taken) :
    ColorSearch palette taken seed 0 (seed.toNat % palette)
  | next {seed : UInt32} {steps color : Nat} (htaken : seed.toNat % palette ∈ taken)
    (later : ColorSearch palette taken (seed + 1) steps color) :
    ColorSearch palette taken seed (steps + 1) color

section Search

variable {palette : Nat} {taken : List Nat} {seed : UInt32} {steps color : Nat}

private theorem colorAfter_zero : colorAfter palette seed 0 = seed.toNat % palette := by
  rw [colorAfter, toNat_add_toUInt32, Nat.add_zero, Nat.mod_eq_of_lt seed.toNat_lt]

private theorem colorAfter_succ (steps : Nat) :
    colorAfter palette seed (steps + 1) = colorAfter palette (seed + 1) steps := by
  have hone : (seed + 1).toNat = (seed.toNat + 1) % UInt32.size := toNat_add_toUInt32 seed 1
  rw [colorAfter, colorAfter, toNat_add_toUInt32, toNat_add_toUInt32, hone, Nat.mod_add_mod,
    Nat.add_assoc, Nat.add_comm 1 steps]

/-- The search passes over the seeds whose colors are taken. -/
private theorem colorSearch_iff : ColorSearch palette taken seed steps color ↔
    color = colorAfter palette seed steps ∧ color ∉ taken ∧
      ∀ i < steps, colorAfter palette seed i ∈ taken := by
  constructor
  · intro search
    induction search with
    | found hfree => exact ⟨colorAfter_zero.symm, hfree, fun _ hi => absurd hi (Nat.not_lt_zero _)⟩
    | next htaken _ ih =>
      obtain ⟨heq, hfree, hbefore⟩ := ih
      refine ⟨heq.trans (colorAfter_succ _).symm, hfree, fun i hi => ?_⟩
      cases i with
      | zero => rwa [colorAfter_zero]
      | succ i =>
        rw [colorAfter_succ]
        exact hbefore i (Nat.lt_of_succ_lt_succ hi)
  · rintro ⟨rfl, hfree, hbefore⟩
    induction steps generalizing seed with
    | zero =>
      rw [colorAfter_zero] at hfree ⊢
      exact .found hfree
    | succ steps ih =>
      rw [colorAfter_succ] at hfree ⊢
      refine .next (colorAfter_zero ▸ hbefore 0 steps.succ_pos) (ih hfree fun i hi => ?_)
      rw [← colorAfter_succ]
      exact hbefore (i + 1) (Nat.succ_lt_succ hi)

/-- A search ends in one way only. -/
private theorem ColorSearch.eq {steps' color' : Nat}
    (search : ColorSearch palette taken seed steps color)
    (other : ColorSearch palette taken seed steps' color') : steps' = steps ∧ color' = color := by
  induction search generalizing steps' color' with
  | found hfree =>
    cases other with
    | found => exact ⟨rfl, rfl⟩
    | next htaken => exact absurd htaken hfree
  | next htaken _ ih =>
    cases other with
    | found hfree => exact absurd htaken hfree
    | next _ later =>
      obtain ⟨rfl, rfl⟩ := ih later
      exact ⟨rfl, rfl⟩

end Search

namespace Line

variable (h : History) (palette : Nat) (segment : Segment)

/-- The line of a segment that goes on with no other line. It branches off `trunk`, or opens a line if
there is none to branch off. -/
def fresh : Option Line → Option Line → Line
  | none, left => opening h palette segment left
  | some trunk, left => branching h palette segment trunk left

/-- The seed from which the color of a line is searched for. -/
def freshSeed : Option Line → UInt32
  | none => (h.revision segment.child).id.seed ^^^ (h.revision segment.parent).id.seed
  | some _ => (h.revision segment.parent).id.seed

/-- The colors that a line may not have. -/
def takenColors (trunk left : Option Line) : List Nat := (trunk.toList ++ left.toList).map (·.color)

private theorem color_fresh (trunk left : Option Line) :
    (fresh h palette segment trunk left).color =
    pickColor palette (freshSeed h segment trunk) (takenColors trunk left) := by
  cases trunk <;> cases left <;> rfl

private theorem length_takenColors_le (trunk left : Option Line) :
    (takenColors trunk left).length ≤ 2 := by
  cases trunk <;> cases left <;> simp [takenColors]

/-- The search for the color of a line passes over four seeds at most, also where seeds start again at
zero. It ends with a color of the palette that neither the line it branches off has nor the one to its
left, whatever colors these are. -/
theorem colorSearch_fresh {palette : Nat} (hpalette : 3 ≤ palette) (trunk left : Option Line) :
    let line := fresh h palette segment trunk left
    (∃ steps ≤ 4, ∀ n color,
      ColorSearch palette (takenColors trunk left) (freshSeed h segment trunk) n color ↔
        n = steps ∧ color = line.color) ∧
      line.color < palette ∧ (∀ other ∈ trunk, line.color ≠ other.color) ∧
      ∀ other ∈ left, line.color ≠ other.color := by
  intro line
  obtain ⟨steps, hsteps, hcolor, hfree, hbefore⟩ := exists_pickColor_eq hpalette
    (freshSeed h segment trunk) (length_takenColors_le trunk left)
  rw [← color_fresh] at hcolor
  have hsearch := colorSearch_iff.2 ⟨hcolor, hcolor ▸ hfree, hbefore⟩
  have hline : line.color ∉ takenColors trunk left := hcolor ▸ hfree
  simp only [takenColors, List.mem_map, List.mem_append, Option.mem_toList, not_exists,
    not_and] at hline
  refine ⟨⟨steps, Nat.le_of_lt_succ hsteps, fun n color => ⟨fun search => ?_, ?_⟩⟩, ?_, ?_, ?_⟩
  · exact hsearch.eq search
  · rintro ⟨rfl, rfl⟩
    exact hsearch
  · exact hcolor ▸ Nat.mod_lt _ (by omega)
  · exact fun other hother heq => hline other (.inl hother) heq.symm
  · exact fun other hother heq => hline other (.inr hother) heq.symm

/-- A child of a commit whose seed is the last but one. -/
def lateSeeded : History :=
  (History.add {} (.repeated 1)
    [⟨0xFE :: 0xFF :: 0xFF :: 0xFF :: List.replicate 16 0, rfl⟩] none false).history

private theorem freshSeed_lateSeeded (trunk : Line) :
    freshSeed lateSeeded (lateSeeded.segment 0) (some trunk) = 4294967294 := by
  rw [freshSeed]
  decide +kernel

/-- The last two seeds give the colors 0 and 1, and so do the first two, with which seeds go on. -/
theorem colorSearch_fresh_lateSeeded :
    3 ≤ 2147483647 ∧
      ColorSearch 2147483647 (takenColors (some ⟨0, 0⟩) (some ⟨1, 0⟩))
        (freshSeed lateSeeded (lateSeeded.segment 0) (some ⟨0, 0⟩)) 4 2 ∧
      (fresh lateSeeded 2147483647 (lateSeeded.segment 0) (some ⟨0, 0⟩) (some ⟨1, 0⟩)).color = 2 := by
  have hpalette : 3 ≤ 2147483647 := by decide
  obtain ⟨⟨steps, -, hends⟩, -⟩ := colorSearch_fresh lateSeeded (lateSeeded.segment 0) hpalette
    (some ⟨0, 0⟩) (some ⟨1, 0⟩)
  have hsearch : ColorSearch 2147483647 (takenColors (some ⟨0, 0⟩) (some ⟨1, 0⟩))
      (freshSeed lateSeeded (lateSeeded.segment 0) (some ⟨0, 0⟩)) 4 2 := by
    rw [freshSeed_lateSeeded]
    exact colorSearch_iff.2 ⟨by decide, by decide, by decide⟩
  exact ⟨hpalette, hsearch, ((hends 4 2).1 hsearch).2.symm⟩

end Line

end CommitLanes
