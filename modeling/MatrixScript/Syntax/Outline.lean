import MatrixScript.Decimal.Basic
import MatrixScript.Syntax.Forest

/-!
# Outlines

A tree as one line of text. Each node stands between parentheses, with a word for its kind, its
children, and its span behind it. A child that is left out is an underscore, and a muted statement
is followed by a semicolon. Bytes are written as two hexadecimal digits each.
-/

namespace MatrixScript

namespace Hex

def digit (n : Nat) : Char := (Nat.toDigits 16 n).headD '0'

/-- Small letters and capitals are the same digits. -/
def digitValue? (c : Char) : Option Nat :=
  if '0' ≤ c ∧ c ≤ '9' then some (c.toNat - '0'.toNat)
  else if 'a' ≤ c ∧ c ≤ 'f' then some (c.toNat - 'a'.toNat + 10)
  else if 'A' ≤ c ∧ c ≤ 'F' then some (c.toNat - 'A'.toNat + 10)
  else none

def ofBytes (bytes : List UInt8) : List Char :=
  bytes.flatMap fun b => [digit (b.toNat / 16), digit (b.toNat % 16)]

def toBytes? : List Char → Option (List UInt8)
  | [] => some []
  | [_] => none
  | a :: b :: rest => do
    let high ← digitValue? a
    let low ← digitValue? b
    return UInt8.ofNat (high * 16 + low) :: (← toBytes? rest)

end Hex

/-! ### Lines of text -/

/-- A character between double quotes. -/
def outlineChar (c : Char) : List Char :=
  if c = '"' then ['\\', '"']
  else if c = '\\' then ['\\', '\\']
  else if c = '\n' then ['\\', 'n']
  else if c = '\r' then ['\\', 'r']
  else if c = '\t' then ['\\', 't']
  else if c = '\x08' then ['\\', 'b']
  else if c = '\x0c' then ['\\', 'f']
  else if c.toNat < 32 then
    ['\\', 'u', '0', '0', Hex.digit (c.toNat / 16), Hex.digit (c.toNat % 16)]
  else [c]

def outlineText (s : String) : String :=
  String.ofList ('"' :: s.toList.flatMap outlineChar ++ ['"'])

namespace NodeKind

/-- The text of a kind whose children have the texts `cs`. -/
def outline (cs : List String) (k : NodeKind Unit) : String :=
  let line (head : String) : String := " ".intercalate (head :: cs)
  match k with
  | real x => "real " ++ x.signedText
  | imaginary x => "imag " ++ x.signedText
  | text s => "str " ++ outlineText s
  | name s => "id " ++ s
  | last => "end"
  | everything => "all"
  | unary op _ => line ("un " ++ op.word)
  | binary op _ _ => line ("bin " ++ op.word)
  | range _ _ => line "range"
  | assign _ op _ => line ("assign " ++ op.elim "-" BinaryOp.word)
  | call _ _ => line "call"
  | matrix rows => " ".intercalate ("mat" :: (rowsOf (rows.map List.length) cs))
  | tuple _ => line "tuple"
  | lambda params _ => line ("lambda [" ++ " ".intercalate params ++ "]")
  | block statements =>
    " ".intercalate ("block" :: statements.zipWith (fun t c => if t.2 then c ++ ";" else c) cs)
  | branch .. => line "if"
  | whileLoop .. => line "while"
  | forLoop .. => line "for"
where
  /-- The texts in rows of the given lengths. -/
  rowsOf : List Nat → List String → List String
    | [], _ => []
    | n :: ns, cs => ("[" ++ " ".intercalate (cs.take n) ++ "]") :: rowsOf ns (cs.drop n)

end NodeKind

namespace Tree

mutual

def outline : Tree → String
  | absent => "_"
  | node k span cs => "(" ++ k.outline (outlineAll cs) ++ ")@" ++ span.text

def outlineAll : List Tree → List String
  | [] => []
  | c :: cs => c.outline :: outlineAll cs

end

end Tree

/-- The outline of the tree below a node. -/
def Forest.outline (f : Forest) (root : NodeId) : String := (f.unfold root).outline

end MatrixScript
