/-!
# Places in a text

Every node and every report points at a range of bytes of the text being read. Offsets are kept in
32 bits: an offset that does not fit is replaced by the largest one that does.

Positions are byte offsets of the UTF-8 form of a text, while the text itself is a list of
characters. The two are converted: the size of a text, and the characters that remain after, or
stand within, a number of bytes.

Lines and columns are counted from one. The line of an offset is the number of lines that start at
or before it, and its column counts the characters from the start of that line. An offset inside a
character has no such count, so there the bytes are counted.
-/

namespace MatrixScript

/-- A range of bytes, from `start` up to and without `stop`. -/
structure Span where
  start : UInt32
  stop : UInt32
deriving DecidableEq, Inhabited

/-- The offset kept for byte `n`, the largest one when `n` does not fit. -/
def clampOffset (n : Nat) : UInt32 :=
  if n < 4294967296 then UInt32.ofNat n else 4294967295

namespace Span

def ofRange (start stop : Nat) : Span := ⟨clampOffset start, clampOffset stop⟩

/-- The empty span at an offset. -/
def point (offset : Nat) : Span := ofRange offset offset

/-- The span of what stands in no text. -/
def none : Span := ⟨0, 0⟩

/-- The number of bytes; a reversed span has none. -/
def length (s : Span) : Nat := s.stop.toNat - s.start.toNat

def isEmpty (s : Span) : Bool := s.stop ≤ s.start

def contains (s : Span) (offset : UInt32) : Bool := s.start ≤ offset && offset < s.stop

/-- The least span that covers both. -/
def merge (s t : Span) : Span := ⟨min s.start t.start, max s.stop t.stop⟩

def text (s : Span) : String := toString s.start.toNat ++ ".." ++ toString s.stop.toNat

theorem length_eq_zero_iff (s : Span) : s.length = 0 ↔ s.isEmpty = true := by
  simp only [length, isEmpty, decide_eq_true_eq, UInt32.le_iff_toNat_le]
  omega

end Span

/-! ### Bytes and characters -/

/-- The number of bytes of a text. -/
def byteCount : List Char → Nat
  | [] => 0
  | c :: cs => c.utf8Size + byteCount cs

/-- What remains after `n` bytes; a character that is only partly among them is passed whole. -/
def dropBytes : Nat → List Char → List Char
  | 0, cs => cs
  | _ + 1, [] => []
  | n + 1, c :: cs => dropBytes (n + 1 - c.utf8Size) cs
termination_by _ cs => cs.length

/-- The number of characters in exactly the first `n` bytes, if a character ends there. -/
def charsWithin? : Nat → List Char → Option Nat
  | 0, _ => some 0
  | _ + 1, [] => none
  | n + 1, c :: cs =>
    if c.utf8Size ≤ n + 1 then (charsWithin? (n + 1 - c.utf8Size) cs).map (· + 1) else none
termination_by _ cs => cs.length

@[simp] theorem byteCount_nil : byteCount [] = 0 := rfl

@[simp] theorem byteCount_cons (c : Char) (cs : List Char) :
    byteCount (c :: cs) = c.utf8Size + byteCount cs := rfl

@[simp] theorem byteCount_append (cs ds : List Char) :
    byteCount (cs ++ ds) = byteCount cs + byteCount ds := by
  induction cs with
  | nil => simp
  | cons c cs ih => simp [ih, Nat.add_assoc]

theorem length_le_byteCount (cs : List Char) : cs.length ≤ byteCount cs := by
  induction cs with
  | nil => simp
  | cons c cs ih =>
    have := c.utf8Size_pos
    simp only [List.length_cons, byteCount_cons]
    omega

/-- Passing the bytes of a first part leaves the second. -/
theorem dropBytes_append (cs ds : List Char) : dropBytes (byteCount cs) (cs ++ ds) = ds := by
  induction cs with
  | nil => simp [dropBytes]
  | cons c cs ih =>
    have := c.utf8Size_pos
    obtain ⟨k, hk⟩ : ∃ k, byteCount (c :: cs) = k + 1 :=
      ⟨byteCount (c :: cs) - 1, by simp only [byteCount_cons]; omega⟩
    rw [hk, List.cons_append, dropBytes, ← hk, byteCount_cons, Nat.add_sub_cancel_left, ih]

theorem charsWithin?_append (cs ds : List Char) :
    charsWithin? (byteCount cs) (cs ++ ds) = some cs.length := by
  induction cs with
  | nil => simp [charsWithin?]
  | cons c cs ih =>
    have := c.utf8Size_pos
    obtain ⟨k, hk⟩ : ∃ k, byteCount (c :: cs) = k + 1 :=
      ⟨byteCount (c :: cs) - 1, by simp only [byteCount_cons]; omega⟩
    have hle : c.utf8Size ≤ byteCount (c :: cs) := by simp
    rw [hk, List.cons_append, charsWithin?, ← hk, if_pos hle, byteCount_cons,
      Nat.add_sub_cancel_left, ih]
    rfl

/-! ### Lines and columns -/

/-- A text together with the offsets at which its lines start. -/
structure LineTable where
  source : List Char
  starts : List Nat

namespace LineTable

/-- The offsets just behind the newlines of a text that begins at `offset`. -/
def startsAfterNewlines : Nat → List Char → List Nat
  | _, [] => []
  | offset, c :: cs =>
    if c = '\n' then (offset + 1) :: startsAfterNewlines (offset + 1) cs
    else startsAfterNewlines (offset + c.utf8Size) cs

def ofText (source : List Char) : LineTable := ⟨source, 0 :: startsAfterNewlines 0 source⟩

def lineOf (t : LineTable) (offset : Nat) : Nat := t.starts.countP (· ≤ offset)

/-- Where a line starts; lines that do not exist start where the text does. -/
def startOf (t : LineTable) (line : Nat) : Nat := t.starts.getD (line - 1) 0

/-- Line and column of an offset; an offset past the end counts as the end. -/
def position (t : LineTable) (offset : Nat) : Nat × Nat :=
  let line := t.lineOf offset
  let size := byteCount t.source
  let start := min (t.startOf line) size
  let stop := max (min offset size) start
  let column := (charsWithin? (stop - start) (dropBytes start t.source)).getD (stop - start)
  (line, column + 1)

/-- The text of a line, without its newline and the carriage returns before that. -/
def textOf (t : LineTable) (line : Nat) : List Char :=
  let start := min (t.startOf line) (byteCount t.source)
  (((dropBytes start t.source).takeWhile (· ≠ '\n')).reverse.dropWhile (· = '\r')).reverse

end LineTable

end MatrixScript
