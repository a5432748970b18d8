import CommitLanes.CommitId.Hex
import Mathlib.Data.List.Basic

/-! # Digits

A byte has one spelling in lower case, and a greater byte a greater one. Reading finds the bytes whose
spelling the digits are once they are in lower case. -/

namespace CommitLanes

namespace Hex

variable {c : Char} {cs : List Char} {n : Nat} {bytes : List UInt8}

/-! ## One digit -/

private theorem value?_digit (hn : n < 16) : value? (digit n) = some n := by
  have hall : ∀ n < 16, value? (digit n) = some n := by decide
  exact hall n hn

private theorem toLower_digit (hn : n < 16) : (digit n).toLower = digit n := by
  have hall : ∀ n < 16, (digit n).toLower = digit n := by decide
  exact hall n hn

/-- Digits are ordered as their values are. -/
private theorem digit_lt_digit_iff {m : Nat} (hm : m < 16) (hn : n < 16) :
    digit m < digit n ↔ m < n := by
  have hall : ∀ m < 16, ∀ n < 16, (digit m < digit n ↔ m < n) := by decide
  exact hall m hm n hn

private theorem digit_eq_digit_iff {m : Nat} (hm : m < 16) (hn : n < 16) :
    digit m = digit n ↔ m = n := by
  refine ⟨fun heq => ?_, congrArg digit⟩
  exact Option.some.inj ((value?_digit hm).symm.trans (heq ▸ value?_digit hn))

theorem value?_eq_some_iff : value? c = some n ↔ n < 16 ∧ digit n = c.toLower := by
  constructor
  · intro hvalue
    obtain ⟨hn, heq, -⟩ := List.idxOf?_eq_some_iff.1 hvalue
    refine ⟨hn, ?_⟩
    rw [← heq]
    exact (List.getElem_eq_getD '0').symm
  · rintro ⟨hn, heq⟩
    rw [← value?_digit hn, value?, value?, toLower_digit hn, heq]

/-! ## Bytes -/

private theorem ofNat_halves (byte : UInt8) :
    UInt8.ofNat (16 * (byte.toNat / 16) + byte.toNat % 16) = byte := by
  rw [Nat.div_add_mod, UInt8.ofNat_toNat]

private theorem halves_lt (byte : UInt8) : byte.toNat / 16 < 16 ∧ byte.toNat % 16 < 16 := by
  have hlt := byte.toNat_lt
  omega

theorem length_flatMap_ofByte (bytes : List UInt8) :
    (bytes.flatMap ofByte).length = 2 * bytes.length := by
  induction bytes with
  | nil => rfl
  | cons byte rest ih =>
    rw [List.flatMap_cons, List.length_append, ih, List.length_cons]
    simp only [ofByte, List.length_cons, List.length_nil]
    omega

theorem map_toLower_flatMap_ofByte (bytes : List UInt8) :
    (bytes.flatMap ofByte).map Char.toLower = bytes.flatMap ofByte := by
  induction bytes with
  | nil => rfl
  | cons byte rest ih =>
    obtain ⟨hhigh, hlow⟩ := halves_lt byte
    rw [List.flatMap_cons, List.map_append, ih, ofByte, List.map_cons, List.map_singleton,
      toLower_digit hhigh, toLower_digit hlow]

private theorem flatMap_ofByte_of_bytes? (hbytes : bytes? cs = some bytes) :
    bytes.flatMap ofByte = cs.map Char.toLower := by
  fun_induction bytes? cs generalizing bytes with
  | case1 =>
    cases hbytes
    rfl
  | case2 => cases hbytes
  | case3 high low rest ih =>
    simp only [Option.bind_eq_bind, Option.bind_eq_some_iff, Option.pure_def,
      Option.some.injEq] at hbytes
    obtain ⟨m, hm, n, hn, others, hothers, rfl⟩ := hbytes
    obtain ⟨hm, hhigh⟩ := value?_eq_some_iff.1 hm
    obtain ⟨hn, hlow⟩ := value?_eq_some_iff.1 hn
    have htoNat : (UInt8.ofNat (16 * m + n)).toNat = 16 * m + n :=
      UInt8.toNat_ofNat_of_lt' (by unfold UInt8.size; omega)
    have hhalves : (16 * m + n) / 16 = m ∧ (16 * m + n) % 16 = n := by omega
    rw [List.flatMap_cons, ih hothers, ofByte, htoNat, hhalves.1, hhalves.2, hhigh, hlow]
    rfl

private theorem bytes?_of_flatMap_ofByte (heq : bytes.flatMap ofByte = cs.map Char.toLower) :
    bytes? cs = some bytes := by
  induction bytes generalizing cs with
  | nil =>
    rw [List.map_eq_nil_iff.1 heq.symm]
    rfl
  | cons byte rest ih =>
    obtain ⟨hhigh, hlow⟩ := halves_lt byte
    rw [List.flatMap_cons, ofByte, List.cons_append, List.cons_append, List.nil_append] at heq
    obtain ⟨high, _, rfl, hhighEq, heq⟩ := List.map_eq_cons_iff.1 heq.symm
    obtain ⟨low, cs, rfl, hlowEq, heq⟩ := List.map_eq_cons_iff.1 heq
    rw [bytes?, value?_eq_some_iff.2 ⟨hhigh, hhighEq.symm⟩,
      value?_eq_some_iff.2 ⟨hlow, hlowEq.symm⟩, ih heq.symm]
    simp only [Option.bind_eq_bind, Option.bind_some, Option.pure_def, ofNat_halves]

/-- What is read are the bytes whose spelling the digits are, apart from the case. -/
theorem bytes?_eq_some_iff :
    bytes? cs = some bytes ↔ bytes.flatMap ofByte = cs.map Char.toLower :=
  ⟨flatMap_ofByte_of_bytes?, bytes?_of_flatMap_ofByte⟩

/-- Digits can be read if each is one and they come in pairs. -/
theorem isSome_bytes?_iff :
    (bytes? cs).isSome ↔ cs.length % 2 = 0 ∧ ∀ c ∈ cs, (value? c).isSome := by
  fun_induction bytes? cs with
  | case1 => simp
  | case2 => simp
  | case3 high low rest ih =>
    have hlength : (high :: low :: rest).length % 2 = rest.length % 2 := Nat.add_mod_right _ 2
    rw [hlength, List.forall_mem_cons, List.forall_mem_cons]
    cases value? high with
    | none => simp
    | some m =>
      cases value? low with
      | none => simp
      | some n =>
        simp only [Option.isSome_some, true_and]
        rw [← ih]
        cases bytes? rest <;> simp

/-! ## Order -/

/-- A greater byte has a greater spelling, and what comes after it makes no difference. -/
private theorem ofByte_append_lt_iff {a b : UInt8} {left right : List Char} :
    ofByte a ++ left < ofByte b ++ right ↔ a < b ∨ a = b ∧ left < right := by
  obtain ⟨hhigh, hlow⟩ := halves_lt a
  obtain ⟨hhigh', hlow'⟩ := halves_lt b
  have hlt : a < b ↔ a.toNat / 16 < b.toNat / 16 ∨
      a.toNat / 16 = b.toNat / 16 ∧ a.toNat % 16 < b.toNat % 16 := by
    rw [UInt8.lt_iff_toNat_lt]
    omega
  have heq : a = b ↔ a.toNat / 16 = b.toNat / 16 ∧ a.toNat % 16 = b.toNat % 16 := by
    rw [← UInt8.toNat_inj]
    omega
  simp only [ofByte, List.cons_append, List.nil_append, List.cons_lt_cons_iff]
  rw [digit_lt_digit_iff hhigh hhigh', digit_eq_digit_iff hhigh hhigh',
    digit_lt_digit_iff hlow hlow', digit_eq_digit_iff hlow hlow', hlt, heq]
  tauto

theorem flatMap_ofByte_lt_iff {xs ys : List UInt8} :
    xs.flatMap ofByte < ys.flatMap ofByte ↔ xs < ys := by
  induction xs generalizing ys with
  | nil =>
    cases ys with
    | nil => simp
    | cons b ys => simp [ofByte]
  | cons a xs ih =>
    cases ys with
    | nil => simp
    | cons b ys =>
      rw [List.flatMap_cons, List.flatMap_cons, ofByte_append_lt_iff, ih, List.cons_lt_cons_iff]

end Hex

end CommitLanes
