import MatrixScript.Proofs.Numerals.Scanning
import MatrixScript.Proofs.Reading.Expressions

/-!
# Reading numbers

What the scanner takes is a number, so the reader for doubles accepts it, and reading it cannot
fail. It is made of characters of one byte, so passing as many bytes as the scanner has counted
characters passes what it has taken. An `i` behind it is passed too if it is a word of its own.
-/

namespace MatrixScript

open Decimal

/-- Reads a number by a reader for doubles that may refuse what has been scanned. -/
def Form.numberBy (read? : List Char → Option Double) : Form where
  name := "number"
  accepts := Form.number.accepts
  premise := some ['*']
  read _ := do
    let start ← Reading.cursor
    let length := numberLength start.rest
    match read? (start.rest.take length) with
    | none => Reading.fail (.unexpected start.peek?) start.peekSpan
    | some value =>
      Reading.advance length
      if startsWithWord ['i'] (← Reading.cursor).rest then
        Reading.next
        Reading.allocFrom (.imaginary value) start.offset
      else Reading.allocFrom (.real value) start.offset

/-- The reader behind an operand: it has moved to `c` and stored a node over what it has passed. -/
def Reader.behind (r : Reader) (kind : NodeKind NodeId) (c : Cursor) : Reader :=
  (r.movedTo c).withNode kind (c.spanFrom r.cursor.offset)

namespace Form

/-- What the scanner takes from a text is the longest number at its start, of one byte a
character. -/
structure Takes (cs w rest : List Char) : Prop where
  split : cs = w ++ rest
  length : w.length = numberLength cs
  literal : Literal w
  longest : ∀ v, Literal v → v <+: cs → v <+: w
  ascii : ∀ c ∈ w, c.val ≤ 0x7f
  bytes : byteCount w = numberLength cs

/-- Numbers are read without an error, and with the number only a lone `i` is passed. -/
def Passes (read? : List Char → Option Double) (w rest : List Char) : Prop :=
  ∀ (s : Surroundings) (r : Reader), r.cursor.rest = w ++ rest → ∃ value, read? w = some value
    ∧ (∀ after, rest = 'i' :: after → after.head?.any isWordChar = false →
      (numberBy read?).read s r = .ok (r.forest.nextId,
        r.behind (.imaginary value) ⟨r.cursor.offset + w.length + 1, after⟩))
    ∧ ((∀ after, rest = 'i' :: after → after.head?.any isWordChar = true) →
      (numberBy read?).read s r = .ok (r.forest.nextId,
        r.behind (.real value) ⟨r.cursor.offset + w.length, rest⟩))

variable {cs w rest : List Char} {read? : List Char → Option Double} {value : Double} {r : Reader}

/-- Numbers are read by a reader for doubles that takes whatever has been scanned. -/
theorem number_eq : number = numberBy fun cs => some (toDouble cs) := rfl

/-- A number of a program can be read as a double. -/
theorem doubleText_of_literal (h : Literal cs) : DoubleText cs := by
  obtain @⟨whole, fraction, exponent, hwhole, hfraction, hsome, hexponent⟩ := h
  have hmantissa : Mantissa (whole ++ fraction) := by
    cases hfraction with
    | absent =>
        rw [List.append_nil]
        exact .whole ⟨hsome.resolve_right fun h => h rfl, hwhole⟩
    | point hds => exact .inFront hwhole hds
  have hunsigned : [] ∈ [[], ['+'], ['-']] := List.mem_cons_self
  exact .number hunsigned hmantissa hexponent

theorem startsWithWord_i_iff :
    startsWithWord ['i'] rest = true
      ↔ ∃ after, rest = 'i' :: after ∧ after.head?.any isWordChar = false := by
  rcases rest with _ | ⟨c, rest⟩
  · simp [startsWithWord]
  · simp [startsWithWord, @eq_comm _ 'i' c]

theorem numberBy_read (s : Surroundings) (hrest : r.cursor.rest = w ++ rest)
    (hlength : numberLength r.cursor.rest = w.length) (hbytes : byteCount w = w.length)
    (hvalue : read? w = some value) :
    (numberBy read?).read s r
      = if startsWithWord ['i'] rest then
          .ok (r.forest.nextId, r.behind (.imaginary value)
            (Cursor.next ⟨r.cursor.offset + w.length, rest⟩))
        else
          .ok (r.forest.nextId, r.behind (.real value) ⟨r.cursor.offset + w.length, rest⟩) := by
  have hread : read? (r.cursor.rest.take (numberLength r.cursor.rest)) = some value := by
    rw [hlength, hrest, List.take_left, hvalue]
  have hadvance :
      r.cursor.advance (numberLength r.cursor.rest) = ⟨r.cursor.offset + w.length, rest⟩ := by
    rw [hlength, ← hbytes, Cursor.advance_append hrest]
  simp only [numberBy, Reading.cursor_bind, hread, Reading.advance_bind, hadvance, Reading.ite_run,
    Reading.next_bind]
  rfl

theorem takes_take {flags : Flags} (h : number.accepts cs flags = true) :
    Takes cs (cs.take (numberLength cs)) (cs.drop (numberLength cs)) := by
  have hlength : (cs.take (numberLength cs)).length = numberLength cs :=
    List.length_take_of_le (numberLength_le cs)
  exact {
    split := (List.take_append_drop _ cs).symm
    length := hlength
    literal := literal_take h
    longest := fun v => prefix_take_numberLength
    ascii := fun c hc => ascii_of_isFigure (figures_number cs c hc)
    bytes := (byteCount_of_isFigure (figures_number cs)).trans hlength }

theorem Takes.passes (htakes : Takes cs w rest)
    (hreads : ∀ v, DoubleText v → (read? v).isSome = true) : Passes read? w rest := by
  intro s r hrest
  obtain ⟨value, hvalue⟩ :=
    Option.isSome_iff_exists.mp (hreads w (doubleText_of_literal htakes.literal))
  have hcs : r.cursor.rest = cs := hrest.trans htakes.split.symm
  have hread := numberBy_read s hrest (by rw [hcs, htakes.length])
    (htakes.bytes.trans htakes.length.symm) hvalue
  refine ⟨value, hvalue, fun after hafter hlone => ?_, fun hword => ?_⟩
  · rw [hread, if_pos (startsWithWord_i_iff.mpr ⟨after, hafter, hlone⟩), hafter]
    rfl
  · have hnone : startsWithWord ['i'] rest ≠ true := by
      intro hlone
      obtain ⟨after, hafter, hends⟩ := startsWithWord_i_iff.mp hlone
      exact absurd (hword after hafter) (by simp [hends])
    rw [hread, if_neg hnone]

/-- The scanner takes the longest number at the start of a text that is accepted. Whatever reads all
the texts of doubles reads it too, and it is passed without an error, with a lone `i` behind it. -/
theorem number_longest {flags : Flags} (h : number.accepts cs flags = true) :
    ∃ w rest, Takes cs w rest ∧ DoubleText w
      ∧ (∀ read? : List Char → Option Double,
        (∀ v, DoubleText v → (read? v).isSome = true) → Passes read? w rest)
      ∧ number = numberBy fun v => some (toDouble v) := by
  have htakes := takes_take h
  exact ⟨_, _, htakes, doubleText_of_literal htakes.literal, fun _ hreads => htakes.passes hreads,
    number_eq⟩

/-- Digits are missing behind the sign, so neither the sign nor the letter is taken. -/
theorem number_longest_unfinished :
    number.accepts ['2', '.', '5', 'e', '+', 'i'] ⟨false, false, false, false⟩ = true
      ∧ Takes ['2', '.', '5', 'e', '+', 'i'] ['2', '.', '5'] ['e', '+', 'i']
      ∧ Passes (fun v => some (toDouble v)) ['2', '.', '5'] ['e', '+', 'i'] := by
  have h : number.accepts ['2', '.', '5', 'e', '+', 'i'] ⟨false, false, false, false⟩ = true := rfl
  obtain ⟨w, rest, htakes, -, hpasses, -⟩ := number_longest h
  have hlength : w.length = 3 := htakes.length
  obtain ⟨rfl, rfl⟩ : ['2', '.', '5'] = w ∧ ['e', '+', 'i'] = rest :=
    List.append_inj htakes.split (by rw [hlength]; rfl)
  exact ⟨h, htakes, hpasses _ fun _ _ => rfl⟩

end Form

end MatrixScript
