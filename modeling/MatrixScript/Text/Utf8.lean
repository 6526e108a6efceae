/-!
# UTF-8

Text as bytes. Reading refuses overlong forms, surrogates and what lies beyond the last code point,
and says how many bytes are wrong: those that could still have begun a character, or all that are
left when a character breaks off at the end.
-/

namespace MatrixScript

inductive Utf8Fault where
  | invalid (length index : Nat)
  | incomplete (index : Nat)
deriving DecidableEq

def Utf8Fault.message : Utf8Fault → String
  | invalid length index =>
    "invalid utf-8 sequence of " ++ toString length ++ " bytes from index " ++ toString index
  | incomplete index => "incomplete utf-8 byte sequence from index " ++ toString index

namespace Utf8

def encode (cs : List Char) : List UInt8 := cs.flatMap String.utf8EncodeChar

/-- Whether a byte goes on with a character. -/
def continues (b : UInt8) : Bool := 0x80 ≤ b && b ≤ 0xBF

/-- Whether a second byte may follow the first one of three. -/
def secondOfThree (a b : UInt8) : Bool :=
  continues b && (a != 0xE0 || 0xA0 ≤ b) && (a != 0xED || b ≤ 0x9F)

/-- Whether a second byte may follow the first one of four. -/
def secondOfFour (a b : UInt8) : Bool :=
  continues b && (a != 0xF0 || 0x90 ≤ b) && (a != 0xF4 || b ≤ 0x8F)

/-- The six bits of a byte that goes on with a character. -/
def lowBits (b : UInt8) : Nat := b.toNat % 64

/-- The characters of bytes that start at an index. -/
def decodeFrom : Nat → List UInt8 → Except Utf8Fault (List Char)
  | _, [] => .ok []
  | i, a :: rest =>
    if a < 0x80 then (Char.ofNat a.toNat :: ·) <$> decodeFrom (i + 1) rest
    else if 0xC2 ≤ a && a ≤ 0xDF then
      match rest with
      | [] => .error (.incomplete i)
      | b :: rest =>
        if continues b then
          (Char.ofNat (a.toNat % 32 * 64 + lowBits b) :: ·) <$> decodeFrom (i + 2) rest
        else .error (.invalid 1 i)
    else if 0xE0 ≤ a && a ≤ 0xEF then
      match rest with
      | [] => .error (.incomplete i)
      | b :: rest =>
        if secondOfThree a b then
          match rest with
          | [] => .error (.incomplete i)
          | c :: rest =>
            if continues c then
              (Char.ofNat ((a.toNat % 16 * 64 + lowBits b) * 64 + lowBits c) :: ·)
                <$> decodeFrom (i + 3) rest
            else .error (.invalid 2 i)
        else .error (.invalid 1 i)
    else if 0xF0 ≤ a && a ≤ 0xF4 then
      match rest with
      | [] => .error (.incomplete i)
      | b :: rest =>
        if secondOfFour a b then
          match rest with
          | [] => .error (.incomplete i)
          | c :: rest =>
            if continues c then
              match rest with
              | [] => .error (.incomplete i)
              | d :: rest =>
                if continues d then
                  (Char.ofNat
                      (((a.toNat % 8 * 64 + lowBits b) * 64 + lowBits c) * 64 + lowBits d) :: ·)
                    <$> decodeFrom (i + 4) rest
                else .error (.invalid 3 i)
            else .error (.invalid 2 i)
        else .error (.invalid 1 i)
    else .error (.invalid 1 i)

def decode (bytes : List UInt8) : Except Utf8Fault (List Char) := decodeFrom 0 bytes

end Utf8

end MatrixScript
