import MatrixScript.Proofs.Columns.Lexical
import MatrixScript.Proofs.Lines.Places

/-!
# The places of elements

An element that has been read alone between brackets is read again where it stands in a row. What a
reader of the first text knows is carried to that place: its cursor, whose last bracket is exchanged
for what stands behind the element there, its nodes, and the operator that its last operand offers.

While a delimiter is open in the element, its closing one is still ahead, and what stands behind
the element is out of sight. Where none is open the text is compact, so there is nothing to pass
over before the element ends.
-/

namespace MatrixScript

open Grammar Transform

variable {c d : Cursor} {w : List Char} {flags : Flags} {b : Bool} {x : Char} {depth : Nat}

/-! ### Cursors in the element -/

/-- The closing bracket is still ahead. -/
def Fenced (c : Cursor) : Prop := ∃ w, c.rest = w ++ [']']

/-- In front of the closing bracket a delimiter is still to be closed. -/
def Within (c : Cursor) : Prop := ∃ w, c.rest = w ++ [']'] ∧ ∃ x ∈ w, x ∈ closers

theorem Within.fenced (h : Within c) : Fenced c := h.imp fun _ hw => hw.1

theorem Fenced.of_reaches (h : Fenced d) (hreaches : c.Reaches d) : Fenced c := by
  obtain ⟨w, hw⟩ := h
  obtain ⟨p, hp, -⟩ := hreaches
  exact ⟨p ++ w, by rw [hp, hw, List.append_assoc]⟩

theorem Within.of_reaches (h : Within d) (hreaches : c.Reaches d) : Within c := by
  obtain ⟨w, hw, x, hx, hcloser⟩ := h
  obtain ⟨p, hp, -⟩ := hreaches
  exact ⟨p ++ w, by rw [hp, hw, List.append_assoc], x, List.mem_append_right p hx, hcloser⟩

/-- In front of a closing delimiter. -/
theorem within_of_peek? (hx : c.peek? = some x) (hcloser : x ∈ closers) (h : Fenced c.next) :
    Within c := by
  obtain ⟨d, hd⟩ := Cursor.rest_of_peek? hx
  obtain ⟨w, hw⟩ := h
  rw [Cursor.next_cons hd] at hw
  exact ⟨x :: w, by rw [hd]; exact congrArg (x :: ·) hw, x, List.mem_cons_self, hcloser⟩

/-- The parts of an element: inside delimiters, or outside of all. -/
inductive Zone where
  | inner
  | outer

namespace Zone

/-- What is known of the text ahead. -/
def Open : Zone → Cursor → Prop
  | inner => Within
  | outer => Fenced

/-- Outside of all delimiters the reader is in the mode of the row. -/
def Admits : Zone → Mode → Nat → Prop
  | inner, _, _ => True
  | outer, mode, depth => mode = .matrix ∧ depth = 0

variable {z : Zone}

theorem Open.of_reaches (h : z.Open d) (hreaches : c.Reaches d) : z.Open c := by
  cases z with
  | inner => exact Within.of_reaches h hreaches
  | outer => exact Fenced.of_reaches h hreaches

theorem open_of_within (h : Within c) : z.Open c := by
  cases z with
  | inner => exact h
  | outer => exact h.fenced

theorem Open.fenced (h : z.Open c) : Fenced c := by
  cases z with
  | inner => exact Within.fenced h
  | outer => exact h

/-- Either a delimiter is still to be closed, or none is open. -/
theorem Open.cases (h : z.Open c) {mode : Mode} (hz : z.Admits mode depth) :
    ∃ w, c.rest = w ++ [']'] ∧ ((∃ x ∈ w, x ∈ closers) ∨ mode = .matrix ∧ depth = 0) := by
  cases z with
  | inner =>
      obtain ⟨w, hw, hcloser⟩ := h
      exact ⟨w, hw, .inl hcloser⟩
  | outer =>
      obtain ⟨w, hw⟩ := h
      exact ⟨w, hw, .inr hz⟩

end Zone

/-! ### What stands behind -/

/-- Where an element ends: behind the mark nothing continues it. -/
structure Separated (tail : List Char) : Prop where
  mark : ∃ x u, tail = x :: u ∧ x ∈ marks
  joined : (tail.dropWhile isInline).head? ≠ some '\n'
  ends (n : Nat) : ∃ b d, standard.Skips Mode.matrix.flags b ⟨n, tail⟩ d
    ∧ standard.endsOperators Mode.matrix.flags b d.rest = true
  passable (n : Nat) : ∃ d, Arrives ⟨n, tail⟩ d
    ∧ startsWithWord ['e', 'l', 's', 'e'] d.rest = false

theorem separated_mark (hx : x ∈ [',', ']']) (u : List Char) : Separated (x :: u) := by
  have hall : ∀ x ∈ [',', ']'], x ∈ marks ∧ isInline x = false ∧ x ≠ '\n' ∧ x ∉ triggers
      ∧ x ≠ 'e' ∧ [';', ',', ')', ']', '\x7d', '\n'].contains x = true := by decide
  obtain ⟨hmark, hinline, hline, htrigger, hword, hends⟩ := hall x hx
  constructor
  · exact ⟨x, u, rfl, hmark⟩
  · rw [List.dropWhile_cons_of_neg (by simp [hinline])]
    exact fun h => hline (Option.some.inj h)
  · intro n
    refine ⟨false, ⟨n, x :: u⟩, .stop (settled_of_peek? _ rfl htrigger), ?_⟩
    simp only [endsOperators, hends, Bool.true_or]
  · intro n
    refine ⟨⟨n, x :: u⟩, arrives_self rfl htrigger, ?_⟩
    have hne : ('e' == x) = false := beq_false_of_ne (Ne.symm hword)
    simp only [startsWithWord, List.isPrefixOf, hne, Bool.false_and]

theorem separated_blank {e : List Char} (h : Opens e) (hx : x ∈ marks) (u : List Char) :
    Separated (' ' :: (e ++ x :: u)) := by
  have hends := h.endsOperators hx u
  have helse : startsWithWord ['e', 'l', 's', 'e'] (e ++ x :: u) = false := by
    have hfence : ∀ x ∈ marks, x ∉ ['e', 'l', 's', 'e'] := by decide
    rw [startsWithWord_fence (fence_mark hx) (hfence x hx),
      ← startsWithWord_fence (fence_mark (x := ']') (by decide)) (by decide) (u := []),
      Bool.eq_false_iff]
    intro hword
    have hoperand := h.operand
    rw [findForm?_else hword] at hoperand
    cases hoperand
  obtain ⟨a, e', rfl, htrigger, -⟩ := h.head
  have hinline : isInline a = false := by
    rw [Bool.eq_false_iff]
    intro hinline
    have hseparator := isSeparator_of_isInline hinline
    rw [h.compact.2.1 rfl] at hseparator
    cases hseparator
  have hskips (n : Nat) (flags : Flags) :
      standard.Skips flags true ⟨n, ' ' :: (a :: e' ++ x :: u)⟩ ⟨n + 1, a :: e' ++ x :: u⟩ := by
    have hn : whitespace (' ' :: (a :: e' ++ x :: u)) flags = .elided (0 + 1) := by
      have hspace : isInline ' ' = true := by decide
      rw [whitespace, List.takeWhile_cons_of_pos hspace, List.cons_append,
        List.takeWhile_cons_of_neg (by simp [hinline])]
      rfl
    have hadvance : Cursor.advance ⟨n, ' ' :: (a :: e' ++ x :: u)⟩ (0 + 1)
        = ⟨n + 1, a :: e' ++ x :: u⟩ :=
      Cursor.advance_append (p := [' ']) rfl
    have hstop : standard.Skips flags false (Cursor.advance ⟨n, ' ' :: (a :: e' ++ x :: u)⟩ (0 + 1))
        ⟨n + 1, a :: e' ++ x :: u⟩ := by
      rw [hadvance]
      exact .stop (settled_of_peek? _ rfl htrigger)
    exact .pass rfl hn hstop
  constructor
  · exact ⟨' ', _, rfl, by decide⟩
  · have hspace : isInline ' ' = true := by decide
    rw [List.dropWhile_cons_of_pos hspace, List.cons_append,
      List.dropWhile_cons_of_neg (by simp [hinline])]
    rintro ⟨⟩
    exact htrigger (by decide)
  · exact fun n => ⟨true, _, hskips n _, hends⟩
  · exact fun n => ⟨_, ⟨true, hskips n _⟩, helse⟩

/-! ### Places in a row -/

/-- Where an element stands in a row. What stands behind it there stands in place of the bracket
that closes it when it is read alone. -/
structure RowPlace extends Site List.dropLast where
  stale : ∀ q ∈ earlier, q.2 ≤ bytes
  separated : Separated tail

namespace RowPlace

variable {E : RowPlace} {r : Reader} {p : List Char}

theorem cursor_eq (E : RowPlace) (c : Cursor) :
    E.cursor c = ⟨c.offset + E.bytes, c.rest.dropLast ++ E.tail⟩ := rfl

theorem rest_cursor (hw : c.rest = w ++ [']']) : (E.cursor c).rest = w ++ E.tail := by
  rw [cursor_eq, hw, List.dropLast_concat]

theorem length_cursor_le (c : Cursor) : c.rest.length ≤ (E.cursor c).rest.length := by
  obtain ⟨x, u, htail, -⟩ := E.separated.mark
  rw [cursor_eq, List.length_append, List.length_dropLast, htail, List.length_cons]
  omega

theorem peek?_cursor (hw : c.rest = w ++ [']']) (hne : w ≠ []) :
    (E.cursor c).peek? = c.peek? := by
  rw [Cursor.peek?, Cursor.peek?, rest_cursor hw, hw, head?_append_of_ne_nil hne,
    head?_append_of_ne_nil hne]

theorem peek?_within (h : Within c) : (E.cursor c).peek? = c.peek? := by
  obtain ⟨w, hw, x, hx, -⟩ := h
  exact peek?_cursor hw (List.ne_nil_of_mem hx)

/-- Passing a first part of the text in front of the closing bracket. -/
theorem cursor_advance {v : List Char} (hp : c.rest = p ++ v)
    (h : Fenced (c.advance (byteCount p))) :
    (E.cursor c).rest = p ++ (v.dropLast ++ E.tail)
      ∧ E.cursor (c.advance (byteCount p)) = (E.cursor c).advance (byteCount p) := by
  obtain ⟨w, hw⟩ := h
  rw [Cursor.advance_append hp] at hw
  have hw : v = w ++ [']'] := hw
  have hrest : (E.cursor c).rest = p ++ (v.dropLast ++ E.tail) := by
    rw [rest_cursor (w := p ++ w) (by rw [hp, hw, List.append_assoc]), hw, List.dropLast_concat,
      List.append_assoc]
  refine ⟨hrest, ?_⟩
  rw [Cursor.advance_append hp, Cursor.advance_append hrest]
  simp only [cursor_eq, Cursor.mk.injEq, and_true]
  omega

theorem cursor_next (hx : c.peek? = some x) (h : Fenced c.next) :
    (E.cursor c).peek? = some x ∧ E.cursor c.next = (E.cursor c).next := by
  obtain ⟨v, hv⟩ := Cursor.rest_of_peek? hx
  obtain ⟨w, hw⟩ := h
  rw [Cursor.next_cons hv] at hw ⊢
  have hw : v = w ++ [']'] := hw
  have hrest : (E.cursor c).rest = x :: (w ++ E.tail) :=
    rest_cursor (w := x :: w) (by rw [hv, hw, List.cons_append])
  refine ⟨Cursor.peek?_cons hrest, ?_⟩
  rw [Cursor.next_cons hrest]
  simp only [cursor_eq, hw, List.dropLast_concat, Cursor.mk.injEq, and_true]
  omega

/-! ### Words and numbers -/

theorem startsWithWord_cursor {word : List Char} (hword : ∀ x ∈ marks, x ∉ word) (h : Fenced c) :
    startsWithWord word (E.cursor c).rest = startsWithWord word c.rest := by
  obtain ⟨w, hw⟩ := h
  obtain ⟨x, u, htail, hx⟩ := E.separated.mark
  have hbracket : ']' ∈ marks := by decide
  rw [rest_cursor hw, htail, hw, startsWithWord_fence (fence_mark hx) (hword x hx),
    startsWithWord_fence (fence_mark hbracket) (hword _ hbracket)]

theorem numberLength_cursor (h : Fenced c) :
    Form.numberLength (E.cursor c).rest = Form.numberLength c.rest := by
  obtain ⟨w, hw⟩ := h
  obtain ⟨x, u, htail, hx⟩ := E.separated.mark
  rw [rest_cursor hw, htail, hw, Form.numberLength_fence (fence_mark hx),
    Form.numberLength_fence (fence_mark (by decide))]

theorem takeWhile_cursor {p : Char → Bool} (hp : ∀ x ∈ marks, p x = false) (h : Fenced c) :
    (E.cursor c).rest.takeWhile p = c.rest.takeWhile p := by
  obtain ⟨w, hw⟩ := h
  obtain ⟨x, u, htail, hx⟩ := E.separated.mark
  rw [rest_cursor hw, htail, hw, takeWhile_fence (hp x hx), takeWhile_fence (hp _ (by decide))]

/-! ### Text without meaning -/

/-- Where no transform applies in the element, none applies in the row. -/
theorem settled_cursor (hcompact : Compact (.code depth) c.rest) (hw : c.rest = w ++ [']'])
    (hne : w ≠ []) (hopen : (∃ x ∈ w, x ∈ closers) ∨ depth = 0)
    (h : standard.Settled flags c) : standard.Settled flags (E.cursor c) := by
  intro t ht
  rw [peek?_cursor hw hne] at ht
  have hstays := h t ht
  obtain ⟨x, hx, htransform⟩ := Option.bind_eq_some_iff.mp ht
  obtain ⟨a, w, rfl⟩ := List.exists_cons_of_ne_nil hne
  have hrest : (E.cursor c).rest = a :: (w ++ E.tail) := rest_cursor hw
  rw [hw] at hcompact hstays
  rw [hrest]
  rw [Cursor.peek?_cons hw] at hx
  cases hx
  rcases transform?_eq_some htransform with ⟨hinline, rfl⟩ | ⟨-, rfl⟩ | ⟨rfl, rfl⟩ | ⟨rfl, rfl⟩
  · exfalso
    rw [List.cons_append, whitespace, List.takeWhile_cons_of_pos hinline] at hstays
    rcases hstays with h | h <;> cases h
  · exact hstays
  · left
    obtain ⟨y, u, htail, hmark⟩ := E.separated.mark
    have hall : ∀ y ∈ marks, y ≠ '/' ∧ y ≠ '*' := by decide
    have hmarks : ∃ b v, w ++ E.tail = b :: v ∧ b ≠ '/' ∧ b ≠ '*' := by
      rcases w with _ | ⟨b, w⟩
      · exact ⟨y, u, htail, hall y hmark⟩
      · exact ⟨b, w ++ E.tail, rfl, by simpa [startsComment] using hcompact.no_comment⟩
    obtain ⟨b, v, hv, hline, hblock⟩ := hmarks
    simp [comment, hv, hline, hblock]
  · left
    rw [continuation_eq, if_neg]
    by_cases hmore : w.dropWhile isInline = []
    · have hinline := List.dropWhile_eq_nil_iff.mp hmore
      have hnil : w = [] := by
        rcases hopen with ⟨x, hx, hcloser⟩ | rfl
        · have hall : ∀ x ∈ closers, isInline x = false ∧ x ≠ '\\' := by decide
          have hmem : x ∈ w := (List.mem_cons.mp hx).resolve_left (hall x hcloser).2
          have hx := hinline x hmem
          rw [(hall x hcloser).1] at hx
          cases hx
        · rcases w with _ | ⟨b, w⟩
          · rfl
          · have hnext := hcompact.next
            rw [Scan.next_of_not_mem (by decide)] at hnext
            have hb := isSeparator_of_isInline (hinline b List.mem_cons_self)
            rw [hnext.2.1 rfl] at hb
            cases hb
      rw [hnil, List.nil_append]
      exact E.separated.joined
    · have hhead (v : List Char) :
          ((w ++ v).dropWhile isInline).head? = (w.dropWhile isInline).head? := by
        rw [List.dropWhile_append, if_neg (by simpa using hmore), head?_append_of_ne_nil hmore]
      intro hline
      rw [List.cons_append, continuation_eq, hhead, ← hhead E.tail, if_pos hline] at hstays
      rcases hstays with h | h <;> cases h

/-- The same text without meaning is passed while a delimiter is open. -/
theorem skips_cursor (hcompact : Compact (.code depth) c.rest)
    (hskips : standard.Skips flags b c d) (h : Within d) :
    standard.Skips flags b (E.cursor c) (E.cursor d) := by
  induction hskips with
  | stop hsettled =>
      obtain ⟨w, hw, x, hx, hcloser⟩ := h
      exact .stop (settled_cursor hcompact hw (List.ne_nil_of_mem hx) (.inl ⟨x, hx, hcloser⟩)
        hsettled)
  | @pass c d t n _ ht hn hmore ih =>
      obtain ⟨x, hx, htransform⟩ := Option.bind_eq_some_iff.mp ht
      obtain ⟨p, v, hp, hbytes, hfillers, hpiece⟩ :=
        elided_piece htransform hx hn hcompact.no_comment
      have hv : (c.advance (n + 1)).rest = v := by rw [hbytes, Cursor.advance_append hp]
      have hnext : Within (c.advance (n + 1)) := h.of_reaches hmore.reaches
      have hpass := hcompact
      rw [hp] at hpass
      have hrest := hpass.pass fun x hx => not_mem_delimiters_of_filler (hfillers x hx)
      rw [← hv] at hrest
      have hafter := ih hrest h
      have hfenced := hnext.fenced
      rw [hbytes] at hfenced
      obtain ⟨hrest', hadvance⟩ := cursor_advance (E := E) hp hfenced
      rw [hbytes, hadvance, ← hbytes] at hafter
      obtain ⟨w, hw, y, hy, -⟩ := hnext
      have ht' : (E.cursor c).peek?.bind standard.transform? = some t := by
        rw [peek?_within (h.of_reaches ((Cursor.reaches_advance c (n + 1)).trans hmore.reaches))]
        exact ht
      refine .pass ht' ?_ hafter
      rw [hv] at hw
      obtain ⟨a, w, rfl⟩ := List.exists_cons_of_ne_nil (List.ne_nil_of_mem hy)
      rw [hrest', hw, List.dropLast_concat, List.cons_append]
      exact hpiece a _ hw _

end RowPlace

end MatrixScript
