import MatrixScript.Source.Span

/-!
# The reading position

A cursor is the text that is still to be read together with the number of bytes passed so far. It
only moves forward; going back means keeping the earlier cursor.
-/

namespace MatrixScript

structure Cursor where
  offset : Nat
  rest : List Char
deriving Inhabited

namespace Cursor

def ofText (text : List Char) : Cursor := ⟨0, text⟩

def atEnd (c : Cursor) : Bool := c.rest.isEmpty

def peek? (c : Cursor) : Option Char := c.rest.head?

/-- The character after the next one. -/
def peekSecond? (c : Cursor) : Option Char := c.rest.tail.head?

def startsWith (c : Cursor) (start : List Char) : Bool := start.isPrefixOf c.rest

/-- Passes one character. -/
def next (c : Cursor) : Cursor :=
  match c.rest with
  | [] => c
  | x :: xs => ⟨c.offset + x.utf8Size, xs⟩

/-- Passes `n` bytes, at most to the end of the text. -/
def advance (c : Cursor) (n : Nat) : Cursor :=
  let rest := dropBytes n c.rest
  ⟨c.offset + (byteCount c.rest - byteCount rest), rest⟩

/-- Passes the characters of a longest run for which `p` holds, and gives them. -/
def takeWhile (c : Cursor) (p : Char → Bool) : List Char × Cursor :=
  let run := c.rest.takeWhile p
  (run, ⟨c.offset + byteCount run, c.rest.dropWhile p⟩)

/-- Passes `x` if it comes next. -/
def eat? (c : Cursor) (x : Char) : Option Cursor :=
  if c.peek? = some x then some c.next else none

/-- Passes everything. -/
def toEnd (c : Cursor) : Cursor := ⟨c.offset + byteCount c.rest, []⟩

/-- From an earlier offset to the cursor. -/
def spanFrom (c : Cursor) (start : Nat) : Span := Span.ofRange start c.offset

/-- The span of the next character, empty at the end. -/
def peekSpan (c : Cursor) : Span :=
  Span.ofRange c.offset (c.offset + (c.peek?.elim 0 Char.utf8Size))

end Cursor

end MatrixScript
