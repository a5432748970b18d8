import CommitLanes.CommitId.Basic

/-! # Commit identifiers as text

A name is written as forty hexadecimal digits in lower case, two for each byte, high half first.
Digits of either case are read. -/

namespace CommitLanes

namespace Hex

/-- The sixteen digits in the order of their values. -/
def digits : List Char :=
  ['0', '1', '2', '3', '4', '5', '6', '7', '8', '9', 'a', 'b', 'c', 'd', 'e', 'f']

/-- The value of a digit of either case. -/
def value? (c : Char) : Option Nat := digits.idxOf? c.toLower

/-- The digit of a value below sixteen. -/
def digit (n : Nat) : Char := digits.getD n '0'

/-- The two digits of a byte. -/
def ofByte (byte : UInt8) : List Char := [digit (byte.toNat / 16), digit (byte.toNat % 16)]

/-- The bytes that the digits spell, two digits a byte. -/
def bytes? : List Char → Option (List UInt8)
  | [] => some []
  | [_] => none
  | high :: low :: rest => do
    let high ← value? high
    let low ← value? low
    let bytes ← bytes? rest
    return UInt8.ofNat (16 * high + low) :: bytes

end Hex

namespace CommitId

/-- The forty digits of a name. -/
def hexDigits (id : CommitId) : List Char := id.bytes.flatMap Hex.ofByte

def toHex (id : CommitId) : String := String.ofList id.hexDigits

/-- The first eight digits, by which people refer to a commit. -/
def toShortHex (id : CommitId) : String := String.ofList (id.hexDigits.take 8)

/-- The name that a text of forty digits spells. -/
def ofHex? (text : String) : Option CommitId := do
  let bytes ← Hex.bytes? text.toList
  if h : bytes.length = 20 then some ⟨bytes, h⟩ else none

end CommitId

end CommitLanes
