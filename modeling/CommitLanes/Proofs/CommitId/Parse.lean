import CommitLanes.CommitId.Parse
import CommitLanes.Proofs.CommitId.Hex
import Mathlib.Data.String.Basic

/-! # Texts that name commits

A text names a commit if it has forty bytes and all of them are digits. It makes no difference that
digits are read as characters: a character that takes several bytes has some that are no digits. -/

namespace CommitLanes

namespace Hex

/-- A byte that is a digit of either case. -/
def IsDigit (byte : UInt8) : Prop :=
  (0x30 ≤ byte ∧ byte ≤ 0x39) ∨ (0x41 ≤ byte ∧ byte ≤ 0x46) ∨ (0x61 ≤ byte ∧ byte ≤ 0x66)

instance (byte : UInt8) : Decidable (IsDigit byte) := inferInstanceAs (Decidable (_ ∨ _))

/-- A character begins at every digit. -/
private theorem IsDigit.isUTF8FirstByte {byte : UInt8} (hdigit : IsDigit byte) :
    byte.IsUTF8FirstByte := by
  have hall : ∀ n < 256, IsDigit (UInt8.ofNat n) → UInt8.ofNat n &&& 128 = 0 := by
    decide +kernel
  have hbyte := hall byte.toNat byte.toNat_lt
  rw [UInt8.ofNat_toNat] at hbyte
  exact .inl (hbyte hdigit)

private theorem utf8Size_of_isDigit {c : Char}
    (hdigits : ∀ byte ∈ String.utf8EncodeChar c, IsDigit byte) : c.utf8Size = 1 := by
  have hpos := c.utf8Size_pos
  by_contra hne
  -- A second byte belongs to the character before it.
  have hsecond : 1 < (String.utf8EncodeChar c).length := by
    rw [String.length_utf8EncodeChar]
    omega
  have hfirst := (hdigits _ (List.getElem_mem hsecond)).isUTF8FirstByte
  rw [UInt8.isUTF8FirstByte_getElem_utf8EncodeChar] at hfirst
  exact Nat.one_ne_zero hfirst

private theorem utf8Size_of_toLower {c : Char} (hlower : c.toLower.utf8Size = 1) :
    c.utf8Size = 1 := by
  unfold Char.toLower at hlower
  split at hlower
  · next hupper => exact Char.utf8Size_eq_one_iff.2 (UInt32.le_trans hupper.2 (by decide))
  · exact hlower

private theorem utf8Size_of_value? {c : Char} (hvalue : (value? c).isSome) : c.utf8Size = 1 := by
  obtain ⟨n, hn⟩ := Option.isSome_iff_exists.1 hvalue
  obtain ⟨hlt, hdigit⟩ := value?_eq_some_iff.1 hn
  have hall : ∀ n < 16, (digit n).utf8Size = 1 := by decide
  exact utf8Size_of_toLower (hdigit ▸ hall n hlt)

/-- A character is a digit exactly if all of its bytes are. -/
private theorem isSome_value?_iff {c : Char} :
    (value? c).isSome ↔ ∀ byte ∈ String.utf8EncodeChar c, IsDigit byte := by
  by_cases hsize : c.utf8Size = 1
  · have hall : ∀ n < 128, ((value? (Char.ofNat n)).isSome ↔ IsDigit (UInt8.ofNat n)) := by
      decide +kernel
    have hle : c.toNat ≤ 127 := UInt32.le_iff_toNat_le.1 (Char.utf8Size_eq_one_iff.1 hsize)
    have hc := hall c.toNat (Nat.lt_succ_of_le hle)
    rw [Char.ofNat_toNat] at hc
    rw [String.utf8EncodeChar_eq_singleton hsize, List.forall_mem_singleton]
    exact hc
  · exact iff_of_false (fun hvalue => hsize (utf8Size_of_value? hvalue))
      fun hdigits => hsize (utf8Size_of_isDigit hdigits)

end Hex

namespace CommitId

variable {text : String} {id : CommitId}

/-- A text of forty bytes that are all digits. -/
def Spelled (text : String) : Prop :=
  text.utf8ByteSize = 40 ∧ ∀ byte ∈ text.toByteArray.data, Hex.IsDigit byte

instance (text : String) : Decidable (Spelled text) := inferInstanceAs (Decidable (_ ∧ _))

private theorem toList_data_toByteArray (text : String) :
    text.toByteArray.data.toList = text.toList.flatMap String.utf8EncodeChar := by
  rw [← String.utf8Encode_toList, List.utf8Encode, List.toList_data_toByteArray]

/-- Characters that take one byte each are as many as there are bytes. -/
private theorem utf8ByteSize_of_utf8Size (hsize : ∀ c ∈ text.toList, c.utf8Size = 1) :
    text.utf8ByteSize = text.toList.length := by
  have hsizes : text.toList.map (fun c => (String.utf8EncodeChar c).length) =
      List.replicate text.toList.length 1 := by
    refine List.eq_replicate_iff.2 ⟨List.length_map _, fun size hmem => ?_⟩
    obtain ⟨c, hc, rfl⟩ := List.mem_map.1 hmem
    rw [String.length_utf8EncodeChar, hsize c hc]
  rw [← String.size_toByteArray, ← ByteArray.size_data, ← Array.length_toList,
    toList_data_toByteArray, List.length_flatMap, hsizes, List.sum_replicate_nat, Nat.mul_one]

private theorem toList_toLower (text : String) :
    text.toLower.toList = text.toList.map Char.toLower :=
  String.toList_map

private theorem spelled_iff :
    Spelled text ↔ text.toList.length = 40 ∧ ∀ c ∈ text.toList, (Hex.value? c).isSome := by
  have hdigits : (∀ byte ∈ text.toByteArray.data, Hex.IsDigit byte) ↔
      ∀ c ∈ text.toList, (Hex.value? c).isSome := by
    simp only [← Array.mem_toList_iff, toList_data_toByteArray, List.forall_mem_flatMap,
      Hex.isSome_value?_iff]
  rw [Spelled, hdigits]
  refine and_congr_left fun hall => ?_
  rw [utf8ByteSize_of_utf8Size fun c hc => Hex.utf8Size_of_value? (hall c hc)]

/-- A character begins at each byte of such a text. -/
private theorem Spelled.isValid (spelled : Spelled text) {i : Nat} (hi : i ≤ 40) :
    (⟨i⟩ : String.Pos.Raw).IsValid text := by
  obtain ⟨hsize, hdigits⟩ := spelled
  rw [String.Pos.Raw.isValid_iff_isUTF8FirstByte]
  rcases Nat.eq_or_lt_of_le hi with rfl | hlt
  · exact .inl (congrArg String.Pos.Raw.mk hsize.symm)
  · have hbefore : (⟨i⟩ : String.Pos.Raw) < text.rawEndPos :=
      String.Pos.Raw.lt_iff.2 (hlt.trans_eq hsize.symm)
    exact .inr ⟨hbefore, (hdigits _ (Array.getElem_mem _)).isUTF8FirstByte⟩

/-! ## Reading -/

private theorem ofHex?_eq_some_iff_bytes? :
    ofHex? text = some id ↔ Hex.bytes? text.toList = some id.bytes := by
  unfold ofHex?
  simp only [Option.bind_eq_bind, Option.bind_eq_some_iff]
  constructor
  · rintro ⟨bytes, hbytes, hid⟩
    split at hid
    · cases hid
      exact hbytes
    · cases hid
  · intro hbytes
    exact ⟨id.bytes, hbytes, dif_pos id.length_bytes⟩

theorem ofHex?_eq_some_iff : ofHex? text = some id ↔ id.toHex = text.toLower := by
  rw [ofHex?_eq_some_iff_bytes?, Hex.bytes?_eq_some_iff, ← String.toList_inj, toHex,
    String.toList_ofList, toList_toLower, hexDigits]

private theorem exists_ofHex?_iff : (∃ id, ofHex? text = some id) ↔ Spelled text := by
  simp only [ofHex?_eq_some_iff_bytes?, spelled_iff]
  constructor
  · rintro ⟨id, hbytes⟩
    have hlength := congrArg List.length (Hex.bytes?_eq_some_iff.1 hbytes)
    rw [Hex.length_flatMap_ofByte, id.length_bytes, List.length_map] at hlength
    exact ⟨hlength.symm, (Hex.isSome_bytes?_iff.1 (Option.isSome_of_eq_some hbytes)).2⟩
  · rintro ⟨hlength, hdigits⟩
    have hsome := Hex.isSome_bytes?_iff.2 ⟨by rw [hlength], hdigits⟩
    obtain ⟨bytes, hbytes⟩ := Option.isSome_iff_exists.1 hsome
    have htwice := congrArg List.length (Hex.bytes?_eq_some_iff.1 hbytes)
    rw [Hex.length_flatMap_ofByte, List.length_map, hlength] at htwice
    exact ⟨⟨bytes, by omega⟩, hbytes⟩

theorem parse_eq_ok_iff : parse text = .ok id ↔ id.toHex = text.toLower := by
  rw [← ofHex?_eq_some_iff, parse]
  cases ofHex? text <;> simp

private theorem parse_of_not_spelled (hspelled : ¬ Spelled text) :
    parse text = .error (.malformedId text) := by
  rw [← exists_ofHex?_iff, not_exists] at hspelled
  rw [parse, Option.eq_none_iff_forall_ne_some.2 hspelled]

/-- A text of forty bytes that are all digits is read as the name that is written like it in lower
case, and it can be cut in front of every two digits. Any other text is refused as it stands. What is
written is read back, and the order of names is that of their texts. -/
theorem parse_spelled :
    (∀ text,
      (Spelled text ∧ (∃ id, parse text = .ok id ∧ id.toHex = text.toLower) ∧
        ∀ i ≤ 20, (⟨2 * i⟩ : String.Pos.Raw).IsValid text) ∨
      (¬ Spelled text ∧ parse text = .error (.malformedId text))) ∧
    (∀ id : CommitId, parse id.toHex = .ok id) ∧
    ∀ a b : CommitId, a < b ↔ a.toHex < b.toHex := by
  refine ⟨fun text => ?_, fun id => ?_, fun a b => ?_⟩
  · by_cases hspelled : Spelled text
    · obtain ⟨id, hid⟩ := exists_ofHex?_iff.2 hspelled
      have hlower := ofHex?_eq_some_iff.1 hid
      exact .inl ⟨hspelled, ⟨id, parse_eq_ok_iff.2 hlower, hlower⟩,
        fun i hi => hspelled.isValid (by omega)⟩
    · exact .inr ⟨hspelled, parse_of_not_spelled hspelled⟩
  · rw [parse_eq_ok_iff, ← String.toList_inj, toList_toLower, toHex, String.toList_ofList, hexDigits,
      Hex.map_toLower_flatMap_ofByte]
  · rw [lt_def, String.lt_iff_toList_lt, toHex, toHex, String.toList_ofList, String.toList_ofList,
      hexDigits, hexDigits, Hex.flatMap_ofByte_lt_iff]

/-- Both cases are read, also side by side. Characters that take two bytes are refused, also if there
are as many bytes as there should be. -/
theorem parse_spelled_mixedCase :
    (∃ id, parse "ABCDEF0123456789abcdef0123456789ABCDEF01" = .ok id ∧
      id.toHex = "abcdef0123456789abcdef0123456789abcdef01") ∧
    "éééééééééééééééééééé".utf8ByteSize = 40 ∧
    parse "éééééééééééééééééééé" = .error (.malformedId "éééééééééééééééééééé") := by
  obtain ⟨hread, -, -⟩ := parse_spelled
  have hmixed : Spelled "ABCDEF0123456789abcdef0123456789ABCDEF01" := by decide +kernel
  have haccents : ¬ Spelled "éééééééééééééééééééé" := by decide +kernel
  have hlower : "ABCDEF0123456789abcdef0123456789ABCDEF01".toLower =
      "abcdef0123456789abcdef0123456789abcdef01" := by decide +kernel
  refine ⟨?_, by decide +kernel, ?_⟩
  · rw [← hlower]
    exact ((hread _).resolve_right fun hnot => hnot.1 hmixed).2.1
  · exact ((hread _).resolve_left fun hspelled => haccents hspelled.1).2

end CommitId

end CommitLanes
