import MatrixScript.Proofs.Reading.Operators
import MatrixScript.Proofs.Reading.Trivia

/-!
# Steps on known text

Where the text at the cursor is known, the laws of the steps say what happens there. Blanks around
an operator are passed, the operator is the one that is written, and the chain of operators goes on
behind its right operand. At the end of the text everything stops.
-/

namespace MatrixScript

open Reading

/-- The surroundings of a step in a mode, with fuel for the expressions in it. -/
abbrev Surroundings.standard (mode : Mode) (fuel : Nat) : Surroundings :=
  ⟨mode, Grammar.standard.skip, Grammar.standard.expression fuel⟩

namespace Grammar

/-! ### Text without meaning -/

/-- Whether a text starts with something that has a meaning, or is empty. -/
def Plain (text : List Char) : Prop := ∀ x ∈ text.head?, x ∉ triggers

theorem Plain.settled {c : Cursor} (h : Plain c.rest) (flags : Flags) :
    standard.Settled flags c := by
  cases hrest : c.rest with
  | nil => exact settled_of_rest_eq_nil hrest
  | cons x d =>
      have hpeek : c.peek? = some x := by rw [Cursor.peek?, hrest, List.head?_cons]
      exact settled_of_peek? flags hpeek (h x hpeek)

theorem settled_slash (flags : Flags) {c : Cursor} {x : Char} {d : List Char}
    (hc : c.rest = '/' :: x :: d) (hslash : x ≠ '/') (hstar : x ≠ '*') :
    standard.Settled flags c := by
  intro t ht
  rw [Cursor.peek?, hc] at ht
  have hcomment : some Transform.comment = some t := ht
  cases hcomment
  rw [hc]
  refine .inl ?_
  simp only [Transform.comment]
  split
  · rename_i heq
    simp at heq
    exact absurd heq.1 hslash
  · rename_i heq
    simp at heq
    exact absurd heq.1 hstar
  · rfl

theorem settled_backslash (flags : Flags) {c : Cursor} {d : List Char}
    (hc : c.rest = '\\' :: ' ' :: d) (hd : Plain d) : standard.Settled flags c := by
  intro t ht
  rw [Cursor.peek?, hc] at ht
  have hcontinuation : some Transform.continuation = some t := ht
  cases hcontinuation
  rw [hc]
  refine .inl ?_
  have hblanks : ((' ' :: d).takeWhile Transform.isInline) = [' '] := by
    rw [List.takeWhile_cons_of_pos (by rfl)]
    cases d with
    | nil => rfl
    | cons x d =>
        have hx : ¬Transform.isInline x = true := by
          intro hinline
          have hblank : x = ' ' ∨ x = '\t' ∨ x = '\r' := by
            simpa [Transform.isInline, or_assoc] using hinline
          apply hd x rfl
          rcases hblank with rfl | rfl | rfl <;> decide
        rw [List.takeWhile_cons_of_neg hx]
  have hline : d.head? ≠ some '\n' := fun h => hd '\n' h (by decide)
  simp only [Transform.continuation, List.drop_succ_cons, List.drop_zero, hblanks,
    List.length_singleton, if_neg hline]

/-! ### Operators between blanks -/

theorem symbol_cases {op : Operator} (hop : op ∈ standard.operators) :
    (∃ x d, op.symbol = x :: d ∧ x ∉ triggers) ∨ op.symbol = ['/'] ∨ op.symbol = ['/', '=']
      ∨ op.symbol = ['\\'] := by
  have hall : ∀ op ∈ Operator.standard, (∃ x ∈ op.symbol.head?, x ∉ triggers) ∨ op.symbol = ['/']
      ∨ op.symbol = ['/', '='] ∨ op.symbol = ['\\'] := by decide
  rcases hall op (mem_standard_operators.mp hop) with ⟨x, hx, htrigger⟩ | hrest
  · obtain ⟨d, hd⟩ := List.head?_eq_some_iff.mp hx
    exact .inl ⟨x, d, hd, htrigger⟩
  · exact .inr hrest

theorem settled_symbol {op : Operator} (hop : op ∈ standard.operators) (flags : Flags) {c : Cursor}
    {d : List Char} (hc : c.rest = op.symbol ++ ' ' :: d) (hd : Plain d) :
    standard.Settled flags c := by
  rcases symbol_cases hop with ⟨x, e, hsymbol, hx⟩ | hsymbol | hsymbol | hsymbol
  · refine Plain.settled ?_ flags
    rw [hc, hsymbol]
    intro y hy
    cases hy
    exact hx
  · rw [hsymbol] at hc
    exact settled_slash flags hc (by decide) (by decide)
  · rw [hsymbol] at hc
    exact settled_slash flags hc (by decide) (by decide)
  · rw [hsymbol] at hc
    exact settled_backslash flags hc hd

theorem findOperator?_symbol {op : Operator} (hop : op ∈ standard.operators) (d : List Char)
    (premise : Option (List Char)) :
    standard.findOperator? (op.symbol ++ ' ' :: d) premise = some ⟨op, byteCount op.symbol⟩ := by
  have hfind : standard.operators.find? (·.symbol.isPrefixOf (op.symbol ++ ' ' :: d)) = some op := by
    rw [mem_standard_operators] at hop
    simp only [Operator.standard, List.mem_cons, List.not_mem_nil, or_false] at hop
    rcases hop with rfl | rfl | rfl | rfl | rfl | rfl | rfl | rfl | rfl | rfl | rfl | rfl | rfl
      | rfl | rfl | rfl | rfl | rfl | rfl | rfl | rfl | rfl | rfl | rfl | rfl | rfl | rfl | rfl
      | rfl <;> rfl
  rw [findOperator?, hfind]

theorem endsOperators_symbol {op : Operator} (hop : op ∈ standard.operators) {flags : Flags}
    (hflags : flags.inMatrix = false) (spaced : Bool) (d : List Char) :
    standard.endsOperators flags spaced (op.symbol ++ ' ' :: d) = false := by
  rw [mem_standard_operators] at hop
  simp only [Operator.standard, List.mem_cons, List.not_mem_nil, or_false] at hop
  rcases hop with rfl | rfl | rfl | rfl | rfl | rfl | rfl | rfl | rfl | rfl | rfl | rfl | rfl
    | rfl | rfl | rfl | rfl | rfl | rfl | rfl | rfl | rfl | rfl | rfl | rfl | rfl | rfl | rfl
    | rfl <;>
    simp [endsOperators, hflags, startsWithWord, Operator.assignment, Operator.lambda,
      Operator.range, Operator.call, Operator.binary, Operator.trailingUnary]

variable {g : Grammar} {s : Surroundings} {r r₁ : Reader}

theorem skip_stays (hs : s.skipIn = g.skip)
    (hr : g.Settled s.mode.flags r.cursor) : s.skip r = .ok (false, r) := by
  rw [Surroundings.skip, hs]
  exact skip_eq_ok_iff.mpr ⟨r.cursor, .stop hr, rfl⟩

/-- Blanks in front of something else are passed at once. -/
theorem skip_blanks (hs : s.skipIn = g.skip) (hg : g.transform? ' ' = some Transform.whitespace)
    {n : Nat} {d : List Char} (hr : r.cursor.rest = List.replicate (n + 1) ' ' ++ d)
    (hother : ∀ x ∈ d.head?, Transform.isInline x = false)
    (hd : g.Settled s.mode.flags ⟨r.cursor.offset + (n + 1), d⟩) :
    s.skip r = .ok (true, r.movedTo ⟨r.cursor.offset + (n + 1), d⟩) := by
  have hbytes (n : Nat) : byteCount (List.replicate n ' ') = n := by
    induction n with
    | zero => rfl
    | succ n ih => rw [List.replicate_succ, byteCount_cons, ih, Nat.add_comm]; rfl
  have hblanks : (List.replicate (n + 1) ' ' ++ d).takeWhile Transform.isInline
      = List.replicate (n + 1) ' ' := by
    rw [List.takeWhile_append_of_pos fun c hc => by rw [List.eq_of_mem_replicate hc]; rfl]
    cases d with
    | nil => exact List.append_nil _
    | cons x d =>
        rw [List.takeWhile_cons_of_neg (Bool.eq_false_iff.mp (hother x rfl)), List.append_nil]
  have hadvance : r.cursor.advance (n + 1) = ⟨r.cursor.offset + (n + 1), d⟩ := by
    have hpassed := Cursor.advance_append hr
    rwa [hbytes] at hpassed
  have htransform : r.cursor.peek?.bind g.transform? = some Transform.whitespace := by
    rw [Cursor.peek?, hr]
    exact hg
  have hblank : Transform.whitespace r.cursor.rest s.mode.flags = .elided (n + 1) := by
    rw [hr, Transform.whitespace, hblanks, List.length_replicate]
  have hstop : g.Skips s.mode.flags false (r.cursor.advance (n + 1))
      ⟨r.cursor.offset + (n + 1), d⟩ := by
    rw [hadvance]
    exact .stop hd
  rw [Surroundings.skip, hs]
  exact skip_eq_ok_iff.mpr ⟨_, .pass htransform hblank hstop, rfl⟩

theorem skip_blank (hs : s.skipIn = standard.skip) {d : List Char} (hr : r.cursor.rest = ' ' :: d)
    (hd : standard.Settled s.mode.flags ⟨r.cursor.offset + 1, d⟩) :
    s.skip r = .ok (true, r.movedTo ⟨r.cursor.offset + 1, d⟩) := by
  refine skip_blanks (n := 0) hs rfl hr (fun x hx => Bool.eq_false_iff.mpr fun hinline => ?_) hd
  obtain ⟨e, rfl⟩ := List.head?_eq_some_iff.mp hx
  have ht := hd Transform.whitespace (transform?_of_isInline hinline)
  simp [Transform.whitespace, hinline] at ht

/-! ### Chains of operators -/

variable {left id : NodeId} {least : UInt8} {fuel k : Nat}

/-- Nothing continues an operand at the end of the text. -/
theorem chain_atEnd (hs : s.skipIn = g.skip) (hr : r.cursor.rest = []) :
    g.chain s least (fuel + 1) left r = .ok (left, r) := by
  have hskip := skip_stays hs (settled_of_rest_eq_nil hr)
  refine chain_eq_ok_iff.mpr ⟨false, r, hskip, .inl ⟨?_, rfl, rfl⟩⟩
  rw [hr, endsOperators]

/-- An operator that binds tightly enough takes the operand on its left, and the chain goes on
behind what it builds. -/
theorem chain_operator {spaced : Bool} {r₂ r₃ : Reader} {op : Operator} {bytes : Nat}
    {kind : NodeKind NodeId} (hskip : s.skip r = .ok (spaced, r₂))
    (hends : g.endsOperators s.mode.flags spaced r₂.cursor.rest = false)
    (hfound : g.findOperator? r₂.cursor.rest
      (g.premiseAt r₂ s.mode.flags r.cursor.offset spaced) = some ⟨op, bytes⟩)
    (hleast : ¬op.precedence < least)
    (happly : applyFixity s op left ((r₂.cursor.advance bytes).spanFrom r₂.cursor.offset)
      (r₂.movedTo (r₂.cursor.advance bytes)) = .ok (kind, r₃)) :
    ∃ span, ∀ p, g.chain s least k r₃.forest.nextId (r₃.afterOperator kind span) = .ok p →
      g.chain s least (k + 1) left r = .ok p :=
  ⟨_, fun _ hmore => chain_eq_ok_iff.mpr ⟨spaced, r₂, hskip, .inr
    ⟨hends, _, hfound, .inr ⟨hleast, kind, r₃, happly, hmore⟩⟩⟩⟩

/-- In front of an operator that binds too loosely, the chain ends and the cursor goes back. -/
theorem chain_loose {spaced : Bool} {c : Cursor} {op : Operator} {bytes : Nat}
    (hskip : s.skip r = .ok (spaced, r.movedTo c))
    (hends : g.endsOperators s.mode.flags spaced c.rest = false)
    (hfound : ∀ premise, g.findOperator? c.rest premise = some ⟨op, bytes⟩)
    (hleast : op.precedence < least) :
    g.chain s least (k + 1) left r = .ok (left, r) :=
  chain_eq_ok_iff.mpr ⟨spaced, _, hskip, .inr ⟨hends, _, hfound _, .inl ⟨hleast, rfl, rfl⟩⟩⟩

/-- An operator between blanks is found behind the blank. -/
theorem chain_symbol (hs : s.skipIn = standard.skip) (hflags : s.mode.flags.inMatrix = false)
    {op : Operator} (hop : op ∈ standard.operators) (hleast : ¬op.precedence < least)
    {d : List Char} (hd : Plain d) (hr : r.cursor.rest = ' ' :: (op.symbol ++ ' ' :: d))
    {kind : NodeKind NodeId} {r₂ : Reader}
    (happly : ∀ span, applyFixity s op left span
      (r.movedTo ⟨r.cursor.offset + 1 + byteCount op.symbol, ' ' :: d⟩) = .ok (kind, r₂)) :
    ∃ span, ∀ p, standard.chain s least k r₂.forest.nextId (r₂.afterOperator kind span) = .ok p →
      standard.chain s least (k + 1) left r = .ok p := by
  have hskip := skip_blank hs hr (settled_symbol hop s.mode.flags rfl hd)
  have hadvance : (Cursor.mk (r.cursor.offset + 1) (op.symbol ++ ' ' :: d)).advance
      (byteCount op.symbol) = ⟨r.cursor.offset + 1 + byteCount op.symbol, ' ' :: d⟩ :=
    Cursor.advance_append rfl
  refine chain_operator hskip (endsOperators_symbol hop hflags _ _)
    (findOperator?_symbol hop _ _) hleast ?_
  rw [Reader.movedTo_cursor, hadvance]
  exact happly _

/-! ### Statements -/

section Single

variable (hs : s.skipIn = g.skip) {c : Char} (hc : r.cursor.peek? = some c)
  (hsettled : g.Settled s.mode.flags r.cursor) (hsep : ¬(c = ';' ∨ c = '\n')) {root : NodeId}
  (hroot : s.expression r = .ok (root, r₁)) {found ts : List Statement}

include hs hc hsettled hsep hroot

/-- An expression at the end of the text is the last statement. -/
theorem statementList_last (hend : r₁.cursor.rest = []) :
    s.statementList none (fuel + 2) found r = .ok ((⟨root, false⟩ :: found).reverse, r₁) := by
  have hstart := skip_stays hs hsettled
  have hstop := skip_stays hs (settled_of_rest_eq_nil hend)
  have hpeek : r₁.cursor.peek? = none := by rw [Cursor.peek?, hend, List.head?_nil]
  have hmuted : Surroundings.statementEnd none r₁ = .ok (false, r₁) :=
    Surroundings.statementEnd_eq_ok_iff.mpr (.inl ⟨.inl hpeek, rfl, rfl⟩)
  have hdone : s.statementList none (fuel + 1) (⟨root, false⟩ :: found) r₁
      = .ok ((⟨root, false⟩ :: found).reverse, r₁) :=
    Surroundings.statementList_eq_ok_iff.mpr ⟨false, r₁, hstop, .inl ⟨.inl hpeek, rfl, rfl⟩⟩
  exact Surroundings.statementList_eq_ok_iff.mpr ⟨false, r, hstart, .inr ⟨c, hc,
    Option.some_ne_none c, .inr
      ⟨hsep, root, r₁, hroot, false, r₁, hstop, false, r₁, hmuted, hdone⟩⟩⟩

/-- An expression at the end of its line is a statement, and the next line begins another one. -/
theorem statementList_line {r₂ : Reader} (hline : r₁.cursor.peek? = some '\n')
    (hstop : g.Settled s.mode.flags r₁.cursor)
    (hmore : s.statementList none fuel (⟨root, false⟩ :: found) (r₁.movedTo r₁.cursor.next)
      = .ok (ts, r₂)) :
    s.statementList none (fuel + 1) found r = .ok (ts, r₂) := by
  have hmuted : Surroundings.statementEnd none r₁ = .ok (false, r₁.movedTo r₁.cursor.next) :=
    Surroundings.statementEnd_eq_ok_iff.mpr (.inr ⟨.inr ⟨hline, rfl⟩, rfl⟩)
  exact Surroundings.statementList_eq_ok_iff.mpr ⟨false, r, skip_stays hs hsettled, .inr ⟨c, hc,
    Option.some_ne_none c, .inr
      ⟨hsep, root, r₁, hroot, false, r₁, skip_stays hs hstop, false, _, hmuted, hmore⟩⟩⟩

/-- A text that is one expression is one statement. -/
theorem statements_single (hend : r₁.cursor.rest = []) :
    s.statements none r = .ok ([⟨root, false⟩], r₁) := by
  obtain ⟨d, hd⟩ := Cursor.rest_of_peek? hc
  rw [Surroundings.statements, rounds_bind, hd, List.length_cons]
  exact statementList_last hs hc hsettled hsep hroot hend

end Single

/-- Statements that have been found stay found. -/
theorem statementList_length {found ts : List Statement} {close : Option Char}
    (h : s.statementList close fuel found r = .ok (ts, r₁)) : found.length ≤ ts.length := by
  induction fuel generalizing found r with
  | zero => exact absurd h (fail_ne_ok (r := r))
  | succ fuel ih =>
      obtain ⟨e, r₂, -, ⟨-, rfl, -⟩ | ⟨c, -, -, hcases⟩⟩ :=
        Surroundings.statementList_eq_ok_iff.mp h
      · exact Nat.le_of_eq List.length_reverse.symm
      · rcases hcases with ⟨-, hmore⟩ | ⟨-, root, r₃, -, e', r₄, -, muted, r₅, -, hmore⟩
        · exact ih hmore
        · exact Nat.le_of_succ_le (ih hmore)

/-- Where anything but a separator comes next, one more statement is found. -/
theorem statementList_more {found ts : List Statement} {e : Bool} {r₂ : Reader} {c : Char}
    (hskip : s.skip r = .ok (e, r₂)) (hc : r₂.cursor.peek? = some c) (hsemi : c ≠ ';')
    (hline : c ≠ '\n') (h : s.statementList none (fuel + 1) found r = .ok (ts, r₁)) :
    ∃ root r₃, s.expression r₂ = .ok (root, r₃) ∧ ∃ e r₄, s.skip r₃ = .ok (e, r₄)
      ∧ ∃ muted r₅, Surroundings.statementEnd none r₄ = .ok (muted, r₅)
        ∧ s.statementList none fuel (⟨root, muted⟩ :: found) r₅ = .ok (ts, r₁) := by
  obtain ⟨e', r₂', hskip', hcases⟩ := Surroundings.statementList_eq_ok_iff.mp h
  rw [hskip] at hskip'
  cases hskip'
  rcases hcases with ⟨hnone | hnone, -⟩ | ⟨c', hc', -, ⟨hsep, -⟩ | ⟨-, hmore⟩⟩
  · rw [hc] at hnone
    cases hnone
  · rw [hc] at hnone
    cases hnone
  · rw [hc] at hc'
    cases hc'
    exact absurd hsep (by simp [hsemi, hline])
  · exact hmore

end Grammar

end MatrixScript
