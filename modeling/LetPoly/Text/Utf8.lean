/-!
# Decoding bytes

Text is stored as UTF-8.  Decoding either gives all characters or says where the first
bytes are that are no character, and whether they are wrong or only cut off.  Of a
wrong sequence those bytes count that could still begin a character.
-/

namespace LetPoly.Text

/-- Why bytes are not UTF-8. -/
inductive Utf8Error where
  /-- The given number of bytes from an index on begin no character. -/
  | invalid (count index : Nat)
  /-- The bytes end within the character that begins at an index. -/
  | incomplete (index : Nat)
  deriving DecidableEq, Repr

/-- The message of a decoding error. -/
def Utf8Error.message : Utf8Error → String
  | invalid count index =>
    "invalid utf-8 sequence of " ++ toString count ++ " bytes from index " ++ toString index
  | incomplete index => "incomplete utf-8 byte sequence from index " ++ toString index

/-- Whether a byte lies in a range. -/
def inRange (low high b : UInt8) : Bool := decide (low ≤ b) && decide (b ≤ high)

/-- The number of bytes behind the first byte of a character, and the range of the next of them. -/
def expected? (b : UInt8) : Option (Nat × UInt8 × UInt8) :=
  if inRange 0xc2 0xdf b then some (1, 0x80, 0xbf)
  else if b = 0xe0 then some (2, 0xa0, 0xbf)
  else if b = 0xed then some (2, 0x80, 0x9f)
  else if inRange 0xe1 0xef b then some (2, 0x80, 0xbf)
  else if b = 0xf0 then some (3, 0x90, 0xbf)
  else if inRange 0xf1 0xf3 b then some (3, 0x80, 0xbf)
  else if b = 0xf4 then some (3, 0x80, 0x8f)
  else none

/-- How far a character has been decoded. -/
structure Pending where
  /-- The index of its first byte. -/
  index : Nat
  /-- The number of its bytes so far. -/
  count : Nat
  /-- The number of its bytes to come. -/
  missing : Nat
  /-- The range of the next byte. -/
  low : UInt8
  /-- The range of the next byte. -/
  high : UInt8
  /-- The bits so far. -/
  bits : Nat

/-- Decodes bytes from an index on, perhaps within a character.  The characters in `acc` came
before, in reverse. -/
def decodeFrom (index : Nat) (acc : List Char) (open? : Option Pending) :
    List UInt8 → Except Utf8Error (List Char)
  | [] =>
    match open? with
    | none => .ok acc.reverse
    | some p => .error (.incomplete p.index)
  | b :: bs =>
    match open? with
    | some p =>
      if inRange p.low p.high b then
        let bits := p.bits * 64 + b.toNat % 64
        if p.missing ≤ 1 then decodeFrom (index + 1) (Char.ofNat bits :: acc) none bs
        else
          decodeFrom (index + 1) acc
            (some ⟨p.index, p.count + 1, p.missing - 1, 0x80, 0xbf, bits⟩) bs
      else .error (.invalid p.count p.index)
    | none =>
      if b < 0x80 then decodeFrom (index + 1) (Char.ofNat b.toNat :: acc) none bs
      else
        match expected? b with
        | some (n, low, high) =>
          decodeFrom (index + 1) acc (some ⟨index, 1, n, low, high, b.toNat % 2 ^ (6 - n)⟩) bs
        | none => .error (.invalid 1 index)

/-- Decodes bytes. -/
def decode (bs : List UInt8) : Except Utf8Error String := String.ofList <$> decodeFrom 0 [] none bs

end LetPoly.Text
