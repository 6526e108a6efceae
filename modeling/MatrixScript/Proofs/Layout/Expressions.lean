import MatrixScript.Proofs.Layout.Forms
import MatrixScript.Proofs.Reading.Runs

/-!
# Expressions that gather nodes

An operator takes up the operand on its left, so the chain of operators has gathered one node at
each of its rounds. The symbol of an operator pays for its node; a multiplication that is understood
without being written is paid for by its right operand. An assignment finds a target that can be
assigned to, or it fails.
-/

namespace MatrixScript

open Reading

namespace Grammar

section

variable {text : List Char} {s : Surroundings} {r r₁ : Reader} {left : NodeId} {op : Operator}

/-! ### Operands -/

theorem operand_gathers (hs : s.Sound text) (hshort : byteCount text < 4294967296)
    (hr : r.In text) :
    Outcome text (fun id r₁ => Gathered text r r₁ [id]) (standard.operand s r) := by
  unfold operand
  refine (hs.skip s.mode hr).bind fun _ r₁ hmoved => ?_
  have hr₁ := (Gathered.refl hr).moved hmoved
  rw [cursor_bind]
  cases hfind : standard.findForm? r₁.cursor.rest s.mode.flags with
  | none => exact hr₁.inText.cursor.peekSpan hshort
  | some form =>
      obtain ⟨⟨priority, hform⟩, haccepts⟩ := findForm?_eq_some hfind
      have hstandard : form ∈ Form.standard.map (·.2) := List.mem_map_of_mem hform
      have hread := Form.standard_sound hshort hstandard hs hr₁.inText haccepts
      refine hread.bind fun id r₂ hr₂ => ?_
      have hall : Gathered text r r₂ [id] := hr₁.trans hr₂
      refine hall.congr rfl rfl fun p hp => ?_
      rcases Option.or_eq_some_iff.mp hp with hp | ⟨-, hp⟩
      · obtain ⟨symbol, hsymbol, rfl⟩ := Option.map_eq_some_iff.mp hp
        exact premise_of_standard hstandard symbol hsymbol
      · exact hr₂.inText.offers p hp

/-! ### Operators -/

/-- What an operator builds: it takes up its left operand and what it has gathered behind it. -/
structure Built (text : List Char) (op : Operator) (left : NodeId) (r : Reader)
    (kind : NodeKind NodeId) (r₁ : Reader) (ids : List NodeId) : Prop where
  gathered : Gathered text r r₁ ids
  takes : kind.Takes (left :: ids)
  assignable : r₁.forest.Assignable kind
  joins : op.isJoining = true → ids ≠ []

/-- An operator that joins operands reads the one on its right, and checks nothing or both. -/
theorem joining_built {assoc : Assoc} {build : NodeId → NodeId → Reading (NodeKind NodeId)}
    {span : Span} (hfixity : op.fixity = .joining assoc build) (hs : s.Sound text)
    (hr : r.In text)
    (hbuild : ∀ right r₁, r₁.In text → Outcome text
      (fun kind r₂ => r₂ = r₁ ∧ kind.Takes [left, right] ∧ r₁.forest.Assignable kind)
      (build left right r₁)) :
    Outcome text (fun kind r₁ => ∃ ids, Built text op left r kind r₁ ids)
      (applyFixity s op left span r) := by
  unfold applyFixity
  rw [hfixity]
  refine (hs.expression s.mode _ hr).bind fun right r₁ hr₁ => ?_
  refine (hbuild right r₁ hr₁.inText).imp fun kind r₂ ⟨hr₂, htakes, hassign⟩ => ?_
  rw [hr₂]
  exact ⟨[right], hr₁, htakes, hassign, fun _ => List.cons_ne_nil _ _⟩

theorem assignment_built {symbol : List Char} {o : Option BinaryOp} {span : Span}
    (hs : s.Sound text) (hr : r.In text) :
    Outcome text (fun kind r₁ => ∃ ids, Built text (Operator.assignment symbol o) left r kind r₁ ids)
      (applyFixity s (Operator.assignment symbol o) left span r) := by
  refine joining_built rfl hs hr fun right r₁ hr₁ => ?_
  rw [get_bind]
  cases hnode : r₁.forest.get? left with
  | none => exact Span.within_none text
  | some node =>
      dsimp only
      split
      · rename_i htarget
        refine ⟨rfl, NodeKind.takes_children (.assign left o right), node.kind, ?_, htarget⟩
        rw [Forest.kind?, hnode, Option.map_some]
      · have hspan := hr₁.spanOf left
        rw [Forest.spanOf, hnode] at hspan
        exact hspan

theorem lambda_built {span : Span} (hs : s.Sound text) (hr : r.In text) :
    Outcome text (fun kind r₁ => ∃ ids, Built text Operator.lambda left r kind r₁ ids)
      (applyFixity s Operator.lambda left span r) := by
  refine joining_built rfl hs hr fun body r₁ hr₁ => ?_
  rw [get_bind]
  cases (r₁.forest.kind? left).bind (Operator.parameters? r₁.forest) with
  | none => exact hr₁.spanOf left
  | some params =>
      exact ⟨rfl, NodeKind.takes_of_sublist (List.sublist_cons_self left [body]), trivial⟩

/-- Every operator of the language builds its node from what it has gathered. -/
theorem applyFixity_built (hs : s.Sound text) (hshort : byteCount text < 4294967296)
    (hop : op ∈ standard.operators) (hr : r.In text) {span : Span} (hspan : span.Within text) :
    Outcome text (fun kind r₁ => ∃ ids, Built text op left r kind r₁ ids)
      (applyFixity s op left span r) := by
  rcases Operator.standard_cases hop with ⟨symbol, o, rfl⟩ | rfl | rfl | rfl | ⟨symbol, p, a, o, rfl⟩
    | ⟨symbol, p, o, rfl⟩
  · exact assignment_built hs hr
  · exact lambda_built hs hr
  · exact joining_built rfl hs hr fun right _ _ =>
      ⟨rfl, NodeKind.takes_children (.range left right), trivial⟩
  · have hargs := (Surroundings.delimited_gathers hs hshort hspan .arguments '(' ')' .arguments :
      Gathers text r [] _ _) r (.refl hr)
    refine hargs.bind fun args r₁ hr₁ => ?_
    refine ⟨args, hr₁, NodeKind.takes_of_sublist ?_, trivial, (absurd · Bool.false_ne_true)⟩
    simp [NodeKind.children, NodeKind.slots, Function.comp_def]
  · exact joining_built rfl hs hr fun right _ _ =>
      ⟨rfl, NodeKind.takes_children (.binary o left right), trivial⟩
  · exact ⟨[], .refl hr, NodeKind.takes_children (.unary o left), trivial,
      (absurd · Bool.false_ne_true)⟩

/-! ### Chains -/

/-- The node of an operator is paid for by its symbol or by its right operand. -/
theorem Built.paid {here : Cursor} {bytes : Nat} {kind : NodeKind NodeId} {ids : List NodeId}
    (h : Built text op left (r.movedTo (here.advance bytes)) kind r₁ ids) (hne : here.rest ≠ [])
    (hpays : bytes ≠ 0 ∨ op.isJoining = true) :
    r₁.forest.size + 1 + 2 * r₁.cursor.rest.length ≤ r.forest.size + 2 * here.rest.length := by
  have hpaid := h.gathered.paid
  rw [Reader.movedTo_forest, Reader.movedTo_cursor] at hpaid
  rcases hpays with hbytes | hjoins
  · have hsymbol := Cursor.advance_length hbytes hne
    omega
  · have hright := List.length_pos_iff.mpr (h.joins hjoins)
    have hadvance := (here.reaches_advance bytes).length_le
    omega

theorem chain_gathers (hs : s.Sound text) (hshort : byteCount text < 4294967296) (least : UInt8)
    (fuel : Nat) (left : NodeId) :
    Gathers text r [left] (standard.chain s least fuel left)
      fun id r₁ => Gathered text r r₁ [id] := by
  induction fuel generalizing left with
  | zero => exact .cursor_bind fun c hc => .fail (hc.peekSpan hshort)
  | succ fuel ih =>
      intro r₁ hr₁
      rw [chain, cursor_bind]
      refine (hs.skip s.mode hr₁.inText).bind fun spaced r₂ hskip => ?_
      obtain ⟨here, hhere, rfl⟩ := hskip
      have hin := hr₁.inText.movedTo hhere
      rw [get_bind, ite_run]
      split
      · exact hr₁
      · rename_i hends
        rw [Bool.not_eq_true] at hends
        obtain ⟨x, hx, -⟩ := exists_of_endsOperators hends
        obtain ⟨d, hd⟩ := Cursor.rest_of_peek? hx
        have hne : here.rest ≠ [] := fun h => List.cons_ne_nil x d (hd.symm.trans h)
        rw [Reader.movedTo_cursor]
        cases hfind : standard.findOperator? here.rest
          (standard.premiseAt (r₁.movedTo here) s.mode.flags r₁.cursor.offset spaced) with
        | none => exact hin.cursor.peekSpan hshort
        | some found =>
            obtain ⟨op, bytes⟩ := found
            have hop := (findOperator?_eq_some hfind).1
            have hpays := findOperator?_pays hfind (premiseAt_offers hin.offers _ _ _)
            have hadvance := here.reaches_advance bytes
            have hbehind := hin.movedTo hadvance
            have hsymbol : ((here.advance bytes).spanFrom here.offset).Within text :=
              hbehind.cursor.spanFrom hshort hin.cursor hadvance
            dsimp only at hop hpays ⊢
            rw [ite_run]
            split
            · exact hr₁
            · simp only [advance_bind, cursor_bind, spanOf_bind]
              refine (applyFixity_built hs hshort hop hbehind hsymbol).bind fun kind r₃ happlied => ?_
              obtain ⟨ids, hbuilt⟩ := happlied
              change Built text op left (r₁.movedTo (here.advance bytes)) kind r₃ ids at hbuilt
              have hreaches := hadvance.trans hbuilt.gathered.reaches
              have hgathered : Gathered text r₁ r₃ ids :=
                hbuilt.gathered.earlier hr₁.inText (hhere.trans hadvance)
              have hnode := hr₁.operator hshort hgathered (hbuilt.paid hne hpays) hhere
                hreaches hbuilt.takes hbuilt.assignable
              exact ih _ _ (hnode.congr rfl rfl hnode.inText.offers)

/-! ### Expressions -/

theorem expression_gathers (hshort : byteCount text < 4294967296) (fuel : Nat) (mode : Mode)
    (least : UInt8) (hr : r.In text) :
    Outcome text (fun id r₁ => Gathered text r r₁ [id])
      (standard.expression fuel mode least r) := by
  induction fuel generalizing mode least r with
  | zero => exact hr.cursor.peekSpan hshort
  | succ fuel ih =>
      have hs : (Surroundings.standard mode fuel).Sound text :=
        ⟨standard.skip_moves_in hshort, fun mode least _ hr => ih mode least hr⟩
      rw [expression]
      refine (operand_gathers hs hshort hr).bind fun left r₁ hr₁ => ?_
      rw [get_bind, ite_run]
      split
      · exact hr₁
      · exact chain_gathers hs hshort least _ left r₁ hr₁

theorem standard_sound (hshort : byteCount text < 4294967296) (mode : Mode) (fuel : Nat) :
    (Surroundings.standard mode fuel).Sound text :=
  ⟨standard.skip_moves_in hshort, fun mode least _ hr => expression_gathers hshort fuel mode least hr⟩

end

end Grammar

end MatrixScript
