import Mathlib.Control.Monad.Basic
import MatrixScript.Proofs.Comments.Forms

/-!
# Expressions of two readings

Operands and operators are the same in both texts, and an operator checks nothing but the kinds of
nodes, which agree. Nested expressions stand behind at least one character of the one around them,
so the induction is on the fuel of the reading with the blank.
-/

namespace MatrixScript

open Reading

namespace Gap

variable {g : Gap} {m n : Nat} {s s' : Surroundings} {r r' : Reader} {left : NodeId}
  {op : Operator} {span span' : Span}

theorem bound_le (h : m ≤ n) : g.bound m ≤ g.bound n := by
  rcases Nat.lt_or_eq_of_le h with h | rfl
  · exact Nat.le_of_lt (bound_lt h)
  · exact Nat.le_refl _

/-! ### Operands -/

theorem Match.afterOperand (h : g.Match n r r') {form : Form}
    (hform : form ∈ Form.standard.map (·.2)) (id : NodeId) :
    g.Match n (r.afterOperand form id) (r'.afterOperand form id) := by
  refine ⟨h.cursor, h.below, h.kinds, ?_, fun p hp => ?_, ?_⟩
  · simp only [Reader.afterOperand, h.premise, h.cursor.offset_eq]
    cases form.premise <;> rfl
  · rcases Option.or_eq_some_iff.mp hp with hp | ⟨-, hp⟩
    · obtain ⟨symbol, hsymbol, rfl⟩ := Option.map_eq_some_iff.mp hp
      exact Grammar.premise_of_standard hform symbol hsymbol
    · exact h.offers p hp
  · simp only [Reader.afterOperand, h.kind?_eq]

theorem Pair.operand_agrees (hs : g.Pair r.cursor.rest.length s s') (h : g.Match n r r') :
    Agree (g.Same r.cursor.rest.length) (Grammar.standard.operand s r)
      (Grammar.standard.operand s' r') := by
  unfold Grammar.operand
  refine hs.skip_bind h.rounds.1 fun _ r₁ r₁' hr₁ => ?_
  have hle : r₁.cursor.rest.length ≤ r.cursor.rest.length := Nat.le_of_lt_succ hr₁.below
  rw [cursor_bind, cursor_bind, hs.mode, hr₁.faces.findForm?_eq hs.clear]
  cases hfind : Grammar.standard.findForm? r₁.cursor.rest s.mode.flags with
  | none => trivial
  | some form =>
      obtain ⟨⟨priority, hform⟩, haccepts⟩ := Grammar.findForm?_eq_some hfind
      have hstandard : form ∈ Form.standard.map (·.2) := List.mem_map_of_mem hform
      refine (Form.standard_agrees hstandard (hs.mono hle) hr₁ haccepts).bind
        fun id _ r₂ r₂' hr₂ => ?_
      obtain ⟨rfl, hr₂⟩ := hr₂
      exact ⟨rfl, (hr₂.afterOperand hstandard id).mono hle⟩

/-! ### Operators -/

theorem Faced.premiseAt_eq (h : g.Faced n r r') (hg : g.Clear) (flags : Flags) (start : Nat)
    (spaced : Bool) :
    Grammar.standard.premiseAt r' flags (g.move start) spaced
      = Grammar.standard.premiseAt r flags start spaced := by
  unfold Grammar.premiseAt
  rw [h.premise, h.faces.findForm?_eq hg]
  cases r.premise with
  | none => rfl
  | some p =>
      have hended : (g.move p.2 == g.move start) = (p.2 == start) := by
        rw [Bool.eq_iff_iff, beq_iff_eq, beq_iff_eq]
        exact ⟨move_inj, congrArg g.move⟩
      simp only [Option.map_some, hended]

/-- An operator found in front of the gap is passed in front of it. -/
theorem bytes_le_of_findOperator? {w u : List Char} {premise : Option (List Char)}
    {found : OperatorMatch}
    (h : Grammar.standard.findOperator? (w ++ ' ' :: u) premise = some found) :
    found.bytes ≤ byteCount w := by
  unfold Grammar.findOperator? at h
  split at h
  · rename_i op hfind
    cases h
    have hop := List.mem_of_find?_eq_some hfind
    have hprefix : op.symbol.isPrefixOf (w ++ ' ' :: u) = true := by
      simpa using List.find?_some hfind
    rw [Ahead.symbol_blank hop] at hprefix
    obtain ⟨d, rfl⟩ := List.isPrefixOf_iff_prefix.mp hprefix
    rw [byteCount_append]
    exact Nat.le_add_right _ _
  · obtain ⟨op, -, rfl⟩ := Option.map_eq_some_iff.mp h
    exact Nat.zero_le _

/-- What is left behind an operator: less than where its right operand starts, if it has one. -/
def leftBehind (op : Operator) (m : Nat) (r : Reader) : Nat :=
  if op.isJoining then r.cursor.rest.length else m

theorem Pair.joining_agrees {assoc : Assoc} {build : NodeId → NodeId → Reading (NodeKind NodeId)}
    (hs : g.Pair n s s') (h : g.Match m r r') (hle : m ≤ n)
    (hfixity : op.fixity = .joining assoc build)
    (hbuild : ∀ {k : Nat} (right : NodeId) {r₁ r₁' : Reader}, g.Match k r₁ r₁' →
      Agree (g.Same k) (build left right r₁) (build left right r₁')) :
    Agree (g.Same (leftBehind op m r)) (Grammar.applyFixity s op left span r)
      (Grammar.applyFixity s' op left span' r') := by
  have hjoins : op.isJoining = true := by rw [Operator.isJoining, hfixity]
  unfold Grammar.applyFixity
  rw [hfixity, leftBehind, if_pos hjoins]
  refine (hs.expresses h hle _).bind fun right _ r₁ r₁' hr₁ => ?_
  obtain ⟨rfl, hr₁⟩ := hr₁
  exact hbuild right hr₁

theorem Match.isName_eq (h : g.Match n r r') (id : NodeId) :
    Operator.isName r'.forest id = Operator.isName r.forest id := by
  rw [Operator.isName, Operator.isName, h.kind?_eq]

theorem Match.isTarget_eq (h : g.Match n r r') (compound : Bool) (k : NodeKind NodeId) :
    Operator.isTarget r'.forest compound k = Operator.isTarget r.forest compound k := by
  unfold Operator.isTarget
  have hname : Operator.isName r'.forest = Operator.isName r.forest := funext h.isName_eq
  split <;> simp only [hname]

theorem Match.parameters?_eq (h : g.Match n r r') (k : NodeKind NodeId) :
    Operator.parameters? r'.forest k = Operator.parameters? r.forest k := by
  have hname : Operator.nameOf? r'.forest = Operator.nameOf? r.forest := by
    funext id
    rw [Operator.nameOf?, Operator.nameOf?, h.kind?_eq]
  unfold Operator.parameters?
  split <;> simp only [hname]

theorem Pair.assignment_agrees {symbol : List Char} {o : Option BinaryOp} (hs : g.Pair n s s')
    (h : g.Match m r r') (hle : m ≤ n) :
    Agree (g.Same (leftBehind (Operator.assignment symbol o) m r))
      (Grammar.applyFixity s (Operator.assignment symbol o) left span r)
      (Grammar.applyFixity s' (Operator.assignment symbol o) left span' r') := by
  refine hs.joining_agrees h hle rfl fun {k} right {r₁ r₁'} hr₁ => ?_
  have hkind := hr₁.kind?_eq left
  rw [Forest.kind?, Forest.kind?] at hkind
  rw [get_bind, get_bind]
  cases hnode : r₁.forest.get? left with
  | none =>
      rw [hnode, Option.map_none, Option.map_eq_none_iff] at hkind
      rw [hkind]
      trivial
  | some node =>
      rw [hnode, Option.map_some] at hkind
      obtain ⟨node', hnode', hsame⟩ := Option.map_eq_some_iff.mp hkind
      rw [hnode']
      dsimp only
      rw [hsame, hr₁.isTarget_eq, ite_run, ite_run]
      split
      · exact ⟨rfl, hr₁⟩
      · trivial

theorem Pair.lambda_agrees (hs : g.Pair n s s') (h : g.Match m r r') (hle : m ≤ n) :
    Agree (g.Same (leftBehind Operator.lambda m r))
      (Grammar.applyFixity s Operator.lambda left span r)
      (Grammar.applyFixity s' Operator.lambda left span' r') := by
  refine hs.joining_agrees h hle rfl fun {k} right {r₁ r₁'} hr₁ => ?_
  have hparams : Operator.parameters? r₁'.forest = Operator.parameters? r₁.forest :=
    funext hr₁.parameters?_eq
  rw [get_bind, get_bind, hr₁.kind?_eq, hparams]
  cases (r₁.forest.kind? left).bind (Operator.parameters? r₁.forest) with
  | none => trivial
  | some params => exact ⟨rfl, hr₁⟩

/-- Every operator of the language goes on in step. -/
theorem Pair.applyFixity_agrees (hs : g.Pair n s s') (hop : op ∈ Grammar.standard.operators)
    (h : g.Match m r r') (hle : m ≤ n) :
    Agree (g.Same (leftBehind op m r)) (Grammar.applyFixity s op left span r)
      (Grammar.applyFixity s' op left span' r') := by
  rcases Operator.standard_cases hop with ⟨symbol, o, rfl⟩ | rfl | rfl | rfl | ⟨symbol, p, a, o, rfl⟩
    | ⟨symbol, p, o, rfl⟩
  · exact hs.assignment_agrees h hle
  · exact hs.lambda_agrees h hle
  · exact hs.joining_agrees h hle rfl fun _ _ _ hr₁ => ⟨rfl, hr₁⟩
  · refine ((hs.mono hle).delimited_agrees h (by decide) '(' ')' .arguments).bind
      fun args _ r₁ r₁' hr₁ => ?_
    obtain ⟨rfl, hr₁⟩ := hr₁
    exact ⟨rfl, hr₁⟩
  · exact hs.joining_agrees h hle rfl fun _ _ _ hr₁ => ⟨rfl, hr₁⟩
  · exact ⟨rfl, h⟩

theorem Match.afterOperator (h : g.Match n r r') (kind : NodeKind NodeId) (span span' : Span) :
    g.Match n (r.afterOperator kind span) (r'.afterOperator kind span') :=
  have hnode := h.withNode kind span span'
  ⟨hnode.cursor, hnode.below, hnode.kinds, hnode.premise, hnode.offers, rfl⟩

/-! ### Chains -/

/-- Where operators end does not depend on what stands in the gap. -/
theorem Pair.endsOperators_eq (hs : g.Pair n s s') {b : Bool} {d d' : Cursor}
    (hfaced : g.Faced n (r.movedTo d) (r'.movedTo d'))
    (hsign : b = true → s.mode.flags.newlineSignificant = true →
      ∀ x, d.rest = x :: ' ' :: g.after → x = '-' ∨ x = '+' → g.Signed) :
    Grammar.standard.endsOperators s.mode.flags b d'.rest
      = Grammar.standard.endsOperators s.mode.flags b d.rest := by
  have hlines : s.mode.flags.inMatrix = true → s.mode.flags.newlineSignificant = true := by
    cases s.mode <;> decide
  refine hfaced.faces.endsOperators_eq hs.clear _ b fun hspaced hmatrix x hx hminus => ?_
  have hlength : d.rest.length < n := hfaced.below
  rw [Reader.movedTo_cursor] at hx
  rw [hx, List.length_cons, List.length_cons] at hlength
  have hbracket := hs.entered hmatrix (Nat.lt_of_succ_lt hlength)
  exact hs.clear.sign hbracket (hsign hspaced (hlines hmatrix) x hx hminus)

theorem Pair.chain_agrees (hs : g.Pair n s s') (least : UInt8) {fuel fuel' : Nat}
    (hfuel : n ≤ fuel) (hfuel' : g.bound n ≤ fuel') (h : g.Match n r r') (left : NodeId) :
    Agree (g.Same n) (Grammar.standard.chain s least fuel left r)
      (Grammar.standard.chain s' least fuel' left r') := by
  induction fuel generalizing n fuel' r r' left with
  | zero => exact absurd h.below (by omega)
  | succ fuel ih =>
      have hbelow := h.below
      have hbound := le_bound (g := g) n
      obtain ⟨fuel', rfl⟩ : ∃ k, fuel' = k + 1 := ⟨fuel' - 1, by omega⟩
      obtain ⟨b, d, d', hskip, hskip', hfaced, hsign⟩ := hs.skips_eq h.rounds.1
      have hle : d.rest.length ≤ r.cursor.rest.length := Nat.le_of_lt_succ hfaced.below
      have hfaces : g.Faces d d' := hfaced.faces
      have hends := (hs.mono h.rounds.2.2).endsOperators_eq hfaced hsign
      have hpremise := hfaced.premiseAt_eq hs.clear s.mode.flags r.cursor.offset b
      rw [Grammar.chain, Grammar.chain, cursor_bind, cursor_bind, bind_ok hskip, bind_ok hskip',
        get_bind, get_bind, hs.mode, ite_run, ite_run, Reader.movedTo_cursor,
        Reader.movedTo_cursor, hends]
      split
      · exact ⟨rfl, h⟩
      · rename_i hgoes
        rw [h.cursor.offset_eq, hpremise, hfaces.findOperator?_eq hs.clear]
        cases hfind : Grammar.standard.findOperator? d.rest
          (Grammar.standard.premiseAt (r.movedTo d) s.mode.flags r.cursor.offset b) with
        | none => trivial
        | some found =>
            obtain ⟨op, bytes⟩ := found
            have hop := (Grammar.findOperator?_eq_some hfind).1
            have hpays :=
              Grammar.findOperator?_pays hfind (Grammar.premiseAt_offers hfaced.offers _ _ _)
            dsimp only at hop hpays ⊢
            rw [ite_run, ite_run]
            split
            · exact ⟨rfl, h⟩
            · have hinside : ∀ w, d.rest = w ++ ' ' :: g.after → bytes ≤ byteCount w := by
                intro w hw
                rw [hw] at hfind
                exact bytes_le_of_findOperator? hfind
              have hadvance := (d.reaches_advance bytes).length_le
              have hmatch : g.Match ((d.advance bytes).rest.length + 1)
                  (r.movedTo (d.advance bytes)) (r'.movedTo (d'.advance bytes)) :=
                h.movedTo (hfaces.advance hinside) (Nat.lt_succ_self _)
              have hleft : leftBehind op ((d.advance bytes).rest.length + 1)
                  (r.movedTo (d.advance bytes)) ≤ r.cursor.rest.length := by
                unfold leftBehind
                split
                · exact Nat.le_trans hadvance hle
                · rename_i hjoins
                  rw [Bool.not_eq_true] at hgoes
                  obtain ⟨x, hx, -⟩ := Grammar.exists_of_endsOperators hgoes
                  obtain ⟨u, hu⟩ := Cursor.rest_of_peek? hx
                  have hsymbol := Cursor.advance_length (hpays.resolve_right hjoins)
                    (hu ▸ List.cons_ne_nil x u)
                  omega
              simp only [advance_bind, cursor_bind, spanOf_bind]
              refine (hs.applyFixity_agrees hop hmatch (by omega)).bind
                fun kind _ r₁ r₁' hr₁ => ?_
              obtain ⟨rfl, hr₁⟩ := hr₁
              simp only [cursor_bind, alloc_bind, ends_bind, hr₁.nextId_eq]
              have hbound' := bound_lt (g := g) hbelow
              exact (ih (hs.mono (Nat.le_of_lt hbelow)) (by omega) (by omega)
                ((hr₁.mono hleft).afterOperator kind _ _) _).imp
                fun _ _ _ _ hsame => hsame.mono (Nat.le_of_lt hbelow)

/-! ### Expressions -/

theorem expression_agrees (hg : g.Clear) {fuel fuel' : Nat} (hfuel : n ≤ fuel)
    (hfuel' : g.bound n ≤ fuel') {mode : Mode} (hmode : g.Entered mode n) (least : UInt8)
    (h : g.Match n r r') :
    Agree (g.Same r.cursor.rest.length) (Grammar.standard.expression fuel mode least r)
      (Grammar.standard.expression fuel' mode least r') := by
  induction fuel generalizing n fuel' mode least r r' with
  | zero => exact absurd h.below (by omega)
  | succ fuel ih =>
      have hbelow := h.below
      have hbound := le_bound (g := g) n
      have hbound' := bound_lt (g := g) hbelow
      obtain ⟨fuel', rfl⟩ : ∃ k, fuel' = k + 1 := ⟨fuel' - 1, by omega⟩
      have hs : g.Pair r.cursor.rest.length ⟨mode, Grammar.standard.skip, Grammar.standard.expression fuel⟩
          ⟨mode, Grammar.standard.skip, Grammar.standard.expression fuel'⟩ := by
        refine ⟨hg, rfl, rfl, rfl, hmode.mono (Nat.le_of_lt hbelow), ?_⟩
        intro m mode' least' r₁ r₁' hm hmode' hr₁
        have hmono := bound_le (g := g) hm
        exact ih (by omega) (by omega) hmode' least' hr₁
      rw [Grammar.expression, Grammar.expression]
      refine (hs.operand_agrees h).bind fun left _ r₁ r₁' hr₁ => ?_
      obtain ⟨rfl, hr₁⟩ := hr₁
      rw [get_bind, get_bind, hr₁.flow, ite_run, ite_run]
      split
      · exact ⟨rfl, hr₁⟩
      · rw [rounds_bind, rounds_bind]
        obtain ⟨hrounds, hbound, hle⟩ := hr₁.rounds
        exact ((hs.mono hle).chain_agrees least (Nat.le_refl _) hbound hrounds left).imp
          fun _ _ _ _ hsame => hsame.mono hle

end Gap

end MatrixScript
