import Mathlib.Control.Monad.Basic
import MatrixScript.Proofs.Extension.Steps

/-!
# Extending the grammar

Whatever is registered with the standard grammar, a text that does not ask for it reads as before:
with the same nodes, statements and spans, or with the same error. A lookup at a place of the text
finds the same entry in both grammars, so it is a standard one, and what it reads with coincides.
That is an induction on how deep expressions nest, and within one expression on the operators of its
chain.
-/

namespace MatrixScript

open Reading

namespace Grammar

variable {text : List Char} {g : Grammar} {s s' : Surroundings}

/-! ### Text without meaning -/

theorem elide_same (h : standard.FindsSame text g) (flags : Flags) (fuel : Nat) (elided : Bool)
    {c : Cursor} (hc : c.In text) :
    g.elide flags fuel elided c = standard.elide flags fuel elided c
      ∧ ∀ p, standard.elide flags fuel elided c = .ok p → p.2.In text := by
  induction fuel generalizing elided c with
  | zero =>
      refine ⟨rfl, fun p hp => ?_⟩
      cases hp
      exact hc
  | succ fuel ih =>
      have hfound : c.peek?.bind g.transform? = c.peek?.bind standard.transform? := by
        cases hx : c.peek? with
        | none => rfl
        | some x => exact h.transform x (hc.mem_of_peek? hx)
      have hstop : ∀ p, Except.ok (elided, c) = (.ok p : Except ParseError (Bool × Cursor)) →
          p.2.In text := by
        rintro _ ⟨⟩
        exact hc
      unfold elide
      rw [hfound]
      cases c.peek?.bind standard.transform? with
      | none => exact ⟨rfl, hstop⟩
      | some transform =>
          dsimp only
          cases transform c.rest flags with
          | declined => exact ⟨rfl, hstop⟩
          | unterminated what => exact ⟨rfl, nofun⟩
          | elided n =>
              cases n with
              | zero => exact ⟨rfl, hstop⟩
              | succ n => exact ih true (hc.trans (c.reaches_advance (n + 1)))

theorem skip_coincide (h : standard.FindsSame text g) (mode : Mode) :
    Coincide text (fun _ => True) (standard.skip mode) (g.skip mode) := by
  refine Coincide.cursor.bind fun c hc => ?_
  obtain ⟨hsame, hleads⟩ := elide_same h mode.flags c.rest.length false hc
  rw [hsame]
  cases helide : standard.elide mode.flags c.rest.length false c with
  | error e => exact fun _ _ => ⟨rfl, nofun⟩
  | ok p => exact (Coincide.moveTo (hleads p helide)).bind fun _ _ => .pure trivial

/-! ### Expressions -/

theorem operand_coincide (h : standard.FindsSame text g) (hs : s.Alike text s') :
    Coincide text (fun _ => True) (standard.operand s) (g.operand s') := by
  refine hs.skip.bind fun _ _ => Coincide.cursor.bind fun here hhere => ?_
  rw [h.form here.rest hhere.rest, hs.mode]
  cases hform : standard.findForm? here.rest s.mode.flags with
  | none => exact .fail _ _
  | some form =>
      obtain ⟨⟨priority, hmem⟩, -⟩ := findForm?_eq_some hform
      refine (Form.standard_coincide hs hmem).bind fun id _ =>
        (Coincide.kind? id).bind fun kind _ => Coincide.offset.bind fun after _ => ?_
      refine Coincide.bind (P := fun _ => True)
        (Coincide.of_leads (fun _ => rfl) fun r hr => ⟨⟨hr.cursor, fun p hp => ?_⟩, trivial⟩)
        fun _ _ => .pure trivial
      -- the operand offers an operator itself, or what was offered before stays
      rcases Option.or_eq_some_iff.mp hp with hoffered | ⟨-, hbefore⟩
      · obtain ⟨symbol, hsymbol, rfl⟩ := Option.map_eq_some_iff.mp hoffered
        exact Form.standard_premise hmem hsymbol
      · exact hr.premise p hbefore

theorem premiseAt_same (h : standard.FindsSame text g) {r : Reader} (hr : r.Stands text)
    (flags : Flags) (start : Nat) (spaced : Bool) :
    g.premiseAt r flags start spaced = standard.premiseAt r flags start spaced := by
  unfold premiseAt
  rw [h.form r.cursor.rest hr.cursor.rest]

theorem premiseAt_standard {r : Reader} (hr : r.Stands text) {flags : Flags} {start : Nat}
    {spaced : Bool} {symbol : List Char}
    (h : standard.premiseAt r flags start spaced = some symbol) :
    (standard.operator? symbol).isSome = true := by
  unfold premiseAt at h
  split at h
  · cases h
  · rename_i offered ended hpremise
    split at h
    · obtain rfl := Option.some.inj h
      exact hr.premise _ hpremise
    · cases h

theorem endsOperators_same (h : standard.FindsSame text g) (flags : Flags) (spaced : Bool)
    {rest : List Char} (hrest : rest <:+ text) :
    g.endsOperators flags spaced rest = standard.endsOperators flags spaced rest := by
  have hfound : g.findOperator? rest none = standard.findOperator? rest none :=
    h.operator hrest nofun
  unfold endsOperators
  rw [hfound]

theorem chain_coincide (h : standard.FindsSame text g) (hs : s.Alike text s') (least : UInt8)
    (fuel : Nat) (left : NodeId) :
    Coincide text (fun _ => True) (standard.chain s least fuel left)
      (g.chain s' least fuel left) := by
  induction fuel generalizing left with
  | zero => exact Coincide.cursor.bind fun c _ => .fail _ _
  | succ fuel ih =>
      unfold chain
      refine Coincide.cursor.bind fun before hbefore => hs.skip.bind fun spaced _ =>
        Coincide.get.bind fun r hr => ?_
      have hback : Coincide text (fun _ => True)
          (do Reading.moveTo before; return left) (do Reading.moveTo before; return left) :=
        (Coincide.moveTo hbefore).bind fun _ _ => .pure trivial
      have hpremise : ∀ symbol,
          standard.premiseAt r s.mode.flags before.offset spaced = some symbol →
            (standard.operator? symbol).isSome = true :=
        fun _ => premiseAt_standard hr
      dsimp only
      rw [hs.mode, endsOperators_same h _ _ hr.cursor.rest, premiseAt_same h hr,
        h.operator hr.cursor.rest hpremise]
      split
      · exact hback
      · cases hfound : standard.findOperator? r.cursor.rest
          (standard.premiseAt r s.mode.flags before.offset spaced) with
        | none => exact .fail _ _
        | some found =>
            obtain ⟨op, bytes⟩ := found
            have hop := (findOperator?_eq_some hfound).1
            dsimp only
            split
            · exact hback
            · refine (Coincide.advance bytes).bind fun _ _ => Coincide.cursor.bind fun _ _ =>
                (Coincide.spanOf left).bind fun _ _ =>
                (Operator.standard_coincide hs hop left _).bind fun kind _ =>
                Coincide.cursor.bind fun _ _ => (Coincide.alloc kind _).bind fun node _ => ?_
              refine Coincide.bind (P := fun _ => True) ?_ fun _ _ => ih node
              exact .of_leads (fun _ => rfl) fun r hr => ⟨⟨hr.cursor, hr.premise⟩, trivial⟩

theorem expression_coincide (h : standard.FindsSame text g) (fuel : Nat) (mode : Mode)
    (least : UInt8) :
    Coincide text (fun _ => True) (standard.expression fuel mode least)
      (g.expression fuel mode least) := by
  induction fuel generalizing mode least with
  | zero => exact Coincide.cursor.bind fun c _ => .fail _ _
  | succ fuel ih =>
      have hs : Surroundings.Alike text ⟨mode, standard.skip, standard.expression fuel⟩
          ⟨mode, g.skip, g.expression fuel⟩ :=
        ⟨rfl, skip_coincide h, ih⟩
      unfold expression
      refine (operand_coincide h hs).bind fun left _ => Coincide.get.bind fun r _ => ?_
      split
      · exact .pure trivial
      · exact Coincide.rounds.bind fun rounds _ => chain_coincide h hs least rounds left

theorem Reader.stands_ofText (text : List Char) : (Reader.ofText text).Stands text :=
  ⟨.refl _, nofun⟩

/-- Register any operators, forms and transforms with the standard grammar. A text that contains
no symbol of the operators and no character of the transforms, and no end of which is accepted by
one of the forms, is read as it was: as the same nodes and statements, or with the same error. -/
theorem parse_extended {registrations : List Registration}
    (hg : registrations.foldlM register standard = .ok g)
    (hunused : ∀ entry ∈ registrations, entry.Unused text) :
    g.parse text = standard.parse text := by
  have h := findsSame_of_registered hg hunused
  have htop : (standard.top text).Alike text (g.top text) :=
    ⟨rfl, skip_coincide h, expression_coincide h _⟩
  have hsame := (htop.statements none (Reader.ofText text) (Reader.stands_ofText text)).1
  unfold parse
  change (((g.top text).statements none) (Reader.ofText text) >>= _) = _
  rw [hsame]
  rfl

/-- Another way to write an inequality, comments behind a hash, and names behind an at sign. In the
text a number offers to multiply what stands behind it. -/
theorem parse_extended_product :
    let unequal := Operator.binary ['<', '>'] Precedence.comparison .left .notEq
    let hash : Transform := fun input _ => .elided (byteCount (input.takeWhile (· ≠ '\n')))
    let handle : Form :=
      { Form.identifier with name := "handle", accepts := fun input _ => input.head? == some '@' }
    let registrations := [.operator unequal, .transform '#' hash, .form 650 handle]
    let text := ['2', 'x', ' ', '<', ' ', 'y']
    ∃ g, registrations.foldlM register standard = .ok g
      ∧ (∀ entry ∈ registrations, entry.Unused text)
      ∧ g.parse text = .ok ⟨⟨#[⟨.real (Decimal.toDouble ['2']), ⟨0, 1⟩⟩, ⟨.name "x", ⟨1, 2⟩⟩,
          ⟨.binary .mul ⟨0⟩ ⟨1⟩, ⟨0, 2⟩⟩, ⟨.name "y", ⟨5, 6⟩⟩, ⟨.binary .lt ⟨2⟩ ⟨3⟩, ⟨0, 6⟩⟩]⟩,
          [⟨⟨4⟩, false⟩]⟩ := by
  intro unequal hash handle registrations text
  have hunused : ∀ entry ∈ registrations, entry.Unused text := by
    have hhandle : (Registration.form 650 handle).Unused text := by
      intro rest hrest flags
      refine beq_eq_false_iff_ne.mpr fun hat => ?_
      exact absurd (hrest.subset (List.mem_of_head? hat)) (by decide)
    have hunequal : (Registration.operator unequal).Unused text := by
      change ¬ ['<', '>'] <:+: text
      decide
    have hhash : (Registration.transform '#' hash).Unused text := by
      change '#' ∉ text
      decide
    simp only [registrations, List.forall_mem_cons, List.not_mem_nil, false_implies, implies_true,
      and_true]
    exact ⟨hunequal, hhash, hhandle⟩
  obtain ⟨g, hg⟩ : ∃ g, registrations.foldlM register standard = .ok g := ⟨_, rfl⟩
  refine ⟨g, hg, hunused, (parse_extended hg hunused).trans ?_⟩
  decide +kernel

end Grammar

end MatrixScript
