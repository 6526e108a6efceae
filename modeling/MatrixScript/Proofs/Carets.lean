import MatrixScript.Diagnostic.Basic
import MatrixScript.Proofs.LineTable

/-!
# Carets below a place

A report with one label shows the line on which the labelled place starts, and below it as many
blanks as there are characters in front of the place. Behind the blanks there is a caret for each
byte of the place, and one for an empty place. Carets stand below the characters of the place
exactly if these are all shown on that line and take one byte each; a character of several bytes
gets as many carets, and what is further down in the text gets carets behind the end of the line.
-/

namespace MatrixScript

theorem trimReturns_isPrefix (line : List Char) : trimReturns line <+: line := by
  have hsuffix := List.dropWhile_suffix (· = '\r') (l := line.reverse)
  rw [trimReturns]
  exact List.reverse_suffix.mp (by rwa [List.reverse_reverse])

theorem byteCount_eq_length_iff {text : List Char} :
    byteCount text = text.length ↔ ∀ c ∈ text, c.utf8Size = 1 := by
  induction text with
  | nil => exact ⟨nofun, fun _ => rfl⟩
  | cons c text ih =>
      have hle := length_le_byteCount text
      have hpos := c.utf8Size_pos
      rw [byteCount_cons, List.length_cons, List.forall_mem_cons, ← ih]
      omega

namespace Diagnostic

variable {front marked back : List Char}

/-- The part of a place that is shown on the line where the place starts. -/
def underlined (front marked back : List Char) : List Char :=
  ((trimReturns (lastLine front ++ firstLine (marked ++ back))).drop (lastLine front).length).take
    (firstLine marked).length

/-- A line of carets below a line of text. -/
def caretText (gutter blanks carets : Nat) (message : String) : String :=
  spaces gutter ++ " | " ++ spaces blanks ++ "".pushn '^' carets
    ++ (if message.isEmpty then "" else " " ++ message)

theorem caretText_inj {gutter blanks carets carets' : Nat} {message : String} :
    caretText gutter blanks carets message = caretText gutter blanks carets' message
      ↔ carets = carets' := by
  refine ⟨fun h => ?_, fun h => by rw [h]⟩
  unfold caretText at h
  rw [String.append_left_inj, String.append_right_inj] at h
  simpa [String.length_pushn] using congrArg String.length h

theorem underlined_prefix (front marked back : List Char) :
    underlined front marked back <+: marked := by
  have hshown : (trimReturns (lastLine front ++ firstLine (marked ++ back))).drop
      (lastLine front).length <+: firstLine (marked ++ back) := by
    have hdrop := (trimReturns_isPrefix (lastLine front ++ firstLine (marked ++ back))).drop
      (lastLine front).length
    rwa [List.drop_left] at hdrop
  have hfirst : firstLine marked <+: firstLine (marked ++ back) := by
    rw [firstLine, firstLine, List.takeWhile_append]
    split
    · exact (List.takeWhile_prefix _).trans (List.prefix_append _ _)
    · exact List.prefix_rfl
  have htake := (List.take_prefix (firstLine marked).length _).trans hshown
  exact (List.prefix_of_prefix_length_le htake hfirst (List.length_take_le _ _)).trans
    (List.takeWhile_prefix _)

/-- When there are as many carets as characters shown of the place. -/
theorem carets_eq_iff : max (byteCount marked) 1 = max (underlined front marked back).length 1
    ↔ byteCount marked ≤ 1
      ∨ underlined front marked back = marked ∧ ∀ c ∈ marked, c.utf8Size = 1 := by
  have hprefix := underlined_prefix front marked back
  have hlength := hprefix.length_le
  have hbytes := length_le_byteCount marked
  have hall : underlined front marked back = marked
      ↔ (underlined front marked back).length = marked.length :=
    ⟨fun h => by rw [h], hprefix.eq_of_length⟩
  rw [← byteCount_eq_length_iff, hall]
  omega

/-- The report of one label. The place of the label lies between two parts of the text. Its line is
shown, and below it are blanks for the characters in front of the place and carets for its bytes.
These are carets for the characters shown exactly if the place takes one byte at most, or if all of
it is on the line and every character takes one byte. -/
theorem render_carets (d : Diagnostic) {label : Label} (hlabels : d.labels = [label])
    (hstart : label.span.start.toNat = byteCount front)
    (hstop : label.span.stop.toNat = byteCount (front ++ marked)) :
    let head := d.severity.text ++ "[" ++ d.code.text ++ "]: " ++ d.message
    let number := toString (front.count '\n' + 1)
    let gutter := number.length
    let column := (lastLine front).length
    let carets := caretText gutter column (max (byteCount marked) 1) label.message
    d.render (front ++ marked ++ back)
        = String.join (([ head,
            spaces gutter ++ "--> " ++ number ++ ":" ++ toString (column + 1),
            spaces gutter ++ " |",
            number ++ " | "
              ++ String.ofList (trimReturns (lastLine front ++ firstLine (marked ++ back))),
            carets ] ++ d.notes.map ("  = note: " ++ ·)).map (· ++ "\n"))
      ∧ (carets
          = caretText gutter column (max (underlined front marked back).length 1) label.message
        ↔ byteCount marked ≤ 1
          ∨ underlined front marked back = marked ∧ ∀ c ∈ marked, c.utf8Size = 1) := by
  intro head number gutter column carets
  have hlength : label.span.length = byteCount marked := by
    rw [Span.length, hstart, hstop, byteCount_append, Nat.add_sub_cancel_left]
  refine ⟨?_, caretText_inj.trans carets_eq_iff⟩
  unfold render
  rw [hlabels, List.append_assoc]
  dsimp only
  rw [List.flatMap_singleton, labelLines, hstart, LineTable.position_append]
  dsimp only
  rw [LineTable.textOf_append, caretLine, hlength]
  rfl

/-- The sum in `x = é + ü` starts on one line and goes on in the next. Three of its characters are
shown, the carriage return is not, and there are carets for all of its eight bytes. -/
theorem render_carets_sum :
    let label : Label := ⟨⟨4, 12⟩, "here"⟩
    let d : Diagnostic := ⟨.noOperator, .error, "no sum", [label], []⟩
    let front := ['x', ' ', '=', ' ']
    let marked := ['é', ' ', '+', '\r', '\n', 'ü']
    (d.labels = [label] ∧ label.span.start.toNat = byteCount front
        ∧ label.span.stop.toNat = byteCount (front ++ marked))
      ∧ d.render (front ++ marked ++ [])
        = "error[E1004]: no sum\n --> 1:5\n  |\n1 | x = é +\n  |     ^^^^^^^^ here\n"
      ∧ underlined front marked [] = ['é', ' ', '+'] := by
  intro label d front marked
  have hstart : label.span.start.toNat = byteCount front := by decide
  have hstop : label.span.stop.toNat = byteCount (front ++ marked) := by decide
  refine ⟨⟨rfl, hstart, hstop⟩, ?_, by decide⟩
  have hcarets : d.render (front ++ marked ++ []) = _ ∧ _ := render_carets d rfl hstart hstop
  rw [hcarets.1]
  decide +kernel

/-- One letter is shown at the place, and there are two carets below it. -/
theorem not_render_carets :
    let label : Label := ⟨⟨0, 2⟩, "here"⟩
    let d : Diagnostic := ⟨.unexpectedInput, .error, "m", [label], []⟩
    label.span.start.toNat = byteCount [] ∧ label.span.stop.toNat = byteCount ['é']
      ∧ d.render ['é'] = "error[E1001]: m\n --> 1:1\n  |\n1 | é\n  | ^^ here\n"
      ∧ underlined [] ['é'] [] = ['é']
      ∧ caretText 1 0 ['é'].length label.message = "  | ^ here" := by
  decide +kernel

end Diagnostic

end MatrixScript
