import BitAssembly.Fault
import BitAssembly.Text.Blank
import BitAssembly.Text.Numeral

/-!
# Bits and bytes

A program file holds its bits eight to a byte, the first bit highest, with
zeros added to fill the last byte.
-/

namespace BitAssembly.Bits

open BitAssembly.Text

def bytesOfDigitsOnto (before : List UInt8) : List Nat → List UInt8
  | d7 :: d6 :: d5 :: d4 :: d3 :: d2 :: d1 :: d0 :: rest =>
      let byte := UInt8.ofNat (digitsValue 2 [d7, d6, d5, d4, d3, d2, d1, d0])
      bytesOfDigitsOnto (byte :: before) rest
  | _ => before.reverse

/-- Digits zero and one, eight to a byte; fewer than eight at the end are left out. -/
def bytesOfDigits (digits : List Nat) : List UInt8 :=
  bytesOfDigitsOnto [] digits

def hasRadixMark : List Char → Bool
  | '0' :: 'b' :: _ => true
  | _ :: rest => hasRadixMark rest
  | [] => false

def trimBits (text : List Char) : List Char :=
  let body := if hasRadixMark text then text.drop 2 else text
  body.filter fun c => !isBlank c

def fillByte (text : List Char) : List Char :=
  text ++ List.replicate ((8 - text.length % 8) % 8) '0'

/-- The bytes of a bit text.  Its digits are those of a binary numeral, which may
have fewer digits than the text has characters. -/
def pack (text : List Char) : Except Fault (List UInt8) := do
  let filled := fillByte (trimBits text)
  let numeral ← Numeral.ofText 2 filled
  if numeral.negative && numeral.digits.any (· != 0) then .error .negativeByte
  else
    let lead := List.replicate (filled.length - numeral.digits.length) 0
    .ok (bytesOfDigits (lead ++ numeral.digits))

def byteBits (byte : UInt8) : List Char :=
  let digits := Nat.toDigits 2 byte.toNat
  List.replicate (8 - digits.length) '0' ++ digits

def unpack (bytes : List UInt8) : List Char :=
  bytes.flatMap byteBits

end BitAssembly.Bits
