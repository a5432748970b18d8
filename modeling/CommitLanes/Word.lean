/-! # Numbers of 64 bits

Sizes and row numbers are unsigned numbers of 64 bits, scores and positions of lanes are signed ones.
They are kept as plain numbers, and a sum or a difference that may not fit is wrapped around. -/

namespace CommitLanes

/-- An unsigned number as one of 64 bits. -/
def wrapSize (n : Nat) : Nat := n % UInt64.size

theorem wrapSize_of_lt {n : Nat} (hlt : n < UInt64.size) : wrapSize n = n := Nat.mod_eq_of_lt hlt

theorem wrapSize_le (n : Nat) : wrapSize n ≤ n := Nat.mod_le n _

/-- The number is a signed one of 64 bits. -/
def Fits (x : Int) : Prop := -0x8000000000000000 ≤ x ∧ x < 0x8000000000000000

instance (x : Int) : Decidable (Fits x) := inferInstanceAs (Decidable (_ ∧ _))

/-- A signed number as one of 64 bits. -/
def wrapInt (x : Int) : Int := x.bmod UInt64.size

theorem wrapInt_of_fits {x : Int} (hfits : Fits x) : wrapInt x = x :=
  Int.bmod_eq_of_le hfits.1 hfits.2

theorem fits_wrapInt (x : Int) : Fits (wrapInt x) :=
  have hpos : 0 < UInt64.size := by decide
  ⟨Int.le_bmod hpos, Int.bmod_lt hpos⟩

theorem wrapInt_wrapInt_add (x y : Int) : wrapInt (wrapInt x + y) = wrapInt (x + y) :=
  Int.bmod_add_bmod

theorem wrapInt_wrapInt_sub (x y : Int) : wrapInt (wrapInt x - y) = wrapInt (x - y) :=
  Int.bmod_sub_bmod

/-- Wrapping around changes a number by a multiple of the number of words. -/
theorem exists_wrapInt_eq (x : Int) : ∃ k : Int, wrapInt x = x + 0x10000000000000000 * k := by
  refine ⟨-x.bdiv UInt64.size, ?_⟩
  rw [wrapInt, Int.bmod_eq_self_sub_mul_bdiv]
  simp only [UInt64.size]
  omega

/-- A number that is at most as large as an unsigned one becomes negative where it is wrapped
around. -/
theorem wrapInt_of_nonneg {x : Int} (hle : -0x8000000000000000 ≤ x) (hlt : x < 0x10000000000000000)
    (hnonneg : 0 ≤ wrapInt x) : wrapInt x = x := by
  obtain ⟨k, hk⟩ := exists_wrapInt_eq x
  obtain ⟨-, hsigned⟩ := fits_wrapInt x
  omega

end CommitLanes
