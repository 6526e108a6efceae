import MatrixScript.Proofs.Lines.Forms

/-!
# Expressions where a text stands

The chain of operators is followed round by round. An operator takes up the node on its left with
its span, so what an expression gives has to be a node of the text. A backslash that is taken for an
operator does not dangle, since its right operand stands behind it.
-/

namespace MatrixScript

open Reading Grammar

/-- Whether a node is there, as far as nodes have numbers. -/
def Reader.Holds (r : Reader) (id : NodeId) : Prop :=
  r.forest.size ≤ 4294967295 → id.index.toNat < r.forest.size

theorem Reader.Holds.leads {r r₁ : Reader} {id : NodeId} (h : r.Holds id) (hleads : r.Leads r₁) :
    r₁.Holds id := by
  intro hroom
  have hsize := hleads.size_le
  have hlt := h (Nat.le_trans hsize hroom)
  omega

theorem Reader.holds_nextId (r : Reader) (kind : NodeKind NodeId) (span : Span) :
    (r.withNode kind span).Holds r.forest.nextId := by
  intro hroom
  rw [Reader.withNode, Forest.size_push] at hroom ⊢
  rw [Forest.nextId_index (by omega)]
  exact Nat.lt_succ_self _

theorem Reader.holds_afterOperator (r : Reader) (kind : NodeKind NodeId) (span : Span) :
    (r.afterOperator kind span).Holds r.forest.nextId := r.holds_nextId kind span

theorem Reader.Leads.afterOperator (r : Reader) (kind : NodeKind NodeId) (span : Span) :
    r.Leads (r.afterOperator kind span) :=
  ⟨(withNode r kind span).reaches, (withNode r kind span).size_le, fun _ => .inl⟩

theorem Reader.Leads.afterOperand (r : Reader) (form : Form) (id : NodeId) :
    r.Leads (r.afterOperand form id) := by
  refine ⟨.refl _, Nat.le_refl _, fun q hq => ?_⟩
  rcases Option.or_eq_some_iff.mp hq with hq | ⟨-, hq⟩
  · obtain ⟨symbol, -, rfl⟩ := Option.map_eq_some_iff.mp hq
    exact .inr (Nat.le_add_right _ _)
  · exact .inl hq

/-- Steps that end by storing the node that they give. -/
def Stores (f : Reading NodeId) : Prop := ∀ r id r₁, f r = .ok (id, r₁) → r₁.Holds id

namespace Stores

variable {α : Type} {f : Reading NodeId}

theorem allocFrom (kind : NodeKind NodeId) (start : Nat) : Stores (allocFrom kind start) := by
  intro r id r₁ hrun
  obtain ⟨rfl, rfl⟩ := allocFrom_eq_ok_iff.mp hrun
  exact r.holds_nextId _ _

theorem bind {g : Reading α} {f : α → Reading NodeId} (hf : ∀ a, Stores (f a)) :
    Stores (g >>= f) := by
  intro r id r₁ hrun
  obtain ⟨a, r₂, -, hrun⟩ := bind_eq_ok_iff.mp hrun
  exact hf a r₂ id r₁ hrun

theorem keyword (word : List Char) (parts : Surroundings → Reading (NodeKind NodeId))
    (s : Surroundings) : Stores ((Form.keyword word parts).read s) :=
  .bind fun _ => .bind fun _ => .bind fun kind => .allocFrom kind _

end Stores

namespace Surroundings

variable {s : Surroundings} {r r₁ : Reader}

/-- Surroundings whose steps lead on and whose expressions are nodes of the text. -/
structure Finds (s : Surroundings) : Prop where
  skip : s.skipIn = standard.skip
  expression (mode : Mode) (least : UInt8) (r r₁ : Reader) (id : NodeId) :
    s.expressionIn mode least r = .ok (id, r₁) → r.Leads r₁ ∧ r₁.Holds id

theorem Finds.inside (h : s.Finds) (mode : Mode) : (s.inside mode).Finds := ⟨h.skip, h.expression⟩

theorem Finds.skip_leads (h : s.Finds) {b : Bool} (hskip : s.skip r = .ok (b, r₁)) :
    r.Leads r₁ := by
  rw [Surroundings.skip, h.skip] at hskip
  obtain ⟨c, hskips, rfl⟩ := skip_eq_ok_iff.mp hskip
  exact .movedTo hskips.reaches

theorem Finds.items (h : s.Finds) {opener : Span} {opening closing : Char} {k : Nat}
    {found ids : List NodeId} (hrun : s.items opener opening closing k found r = .ok (ids, r₁))
    (hfound : ∀ id ∈ found, r.Holds id) : ∀ id ∈ ids, r₁.Holds id := by
  induction k generalizing found r with
  | zero => exact absurd hrun fail_ne_ok
  | succ k ih =>
      obtain ⟨item, r₂, hitem, e, r₃, hskip, hcases⟩ := items_eq_ok_iff.mp hrun
      obtain ⟨hleads, hitem⟩ := h.expression _ _ _ _ _ hitem
      have hpassed := h.skip_leads hskip
      have hmore : ∀ id ∈ item :: found, r₃.Holds id := by
        intro id hid
        rcases List.mem_cons.mp hid with rfl | hid
        · exact hitem.leads hpassed
        · exact (hfound id hid).leads (hleads.trans hpassed)
      rcases hcases with ⟨-, hrun⟩ | ⟨-, u, r₄, hclose, rfl, rfl⟩
      · exact ih hrun hmore
      · obtain ⟨b, r₀, hskip, -, rfl⟩ := expectClose_eq_ok_iff.mp hclose
        intro id hid
        exact (hmore id (List.mem_reverse.mp hid)).leads ((h.skip_leads hskip).trans
          (.movedTo r₀.cursor.reaches_next))

theorem Finds.group (h : s.Finds) : Stores (Form.group.read s) := by
  intro r id r₁ hrun
  simp only [Form.group, cursor_bind, next_bind] at hrun
  obtain ⟨items, r₂, hitems, hrun⟩ := bind_eq_ok_iff.mp hrun
  rcases items with _ | ⟨only, _ | ⟨second, items⟩⟩
  · exact Stores.allocFrom _ _ r₂ id r₁ hrun
  · obtain ⟨rfl, rfl⟩ := pure_eq_ok_iff.mp hrun
    obtain ⟨e, r₃, hskip, hcases⟩ := delimited_eq_ok_iff.mp hitems
    rcases hcases with ⟨-, hnil, -⟩ | ⟨-, hitems⟩
    · cases hnil
    · exact (h.inside .group).items hitems (List.forall_mem_nil _) id (List.mem_singleton.mpr rfl)
  · exact Stores.allocFrom _ _ r₂ id r₁ hrun

/-- What a form gives is a node of the text. -/
theorem Finds.form (h : s.Finds) {f : Nat × Form} (hf : f ∈ Form.standard) :
    Stores (f.2.read s) := by
  simp only [Form.standard, List.mem_cons, List.not_mem_nil, or_false] at hf
  rcases hf with rfl | rfl | rfl | rfl | rfl | rfl | rfl | rfl | rfl | rfl | rfl | rfl | rfl
  -- `if`, `while`, `for` and `end`
  · exact .keyword _ _ s
  · exact .keyword _ _ s
  · exact .keyword _ _ s
  · exact .keyword _ _ s
  · exact .bind fun _ => .bind fun _ => .allocFrom _ _
  · intro r id r₁ hrun
    change Form.number.read s r = _ at hrun
    rw [Form.number_read] at hrun
    split at hrun <;> exact Stores.allocFrom _ _ _ _ _ hrun
  · intro r id r₁ hrun
    obtain ⟨body, after, -, hrun⟩ := Form.text_read_eq_ok_iff.mp hrun
    exact Stores.allocFrom _ _ _ _ _ hrun
  · exact .bind fun _ => .bind fun _ => .allocFrom _ _
  · exact h.group
  · exact .bind fun _ => .bind fun _ => .bind fun _ => .allocFrom _ _
  · exact .bind fun _ => .bind fun _ => .bind fun _ => .allocFrom _ _
  · exact .bind fun _ => .bind fun _ => .bind fun _ => .allocFrom _ _
  · exact .bind fun _ => .bind fun _ => .bind fun _ => .allocFrom _ _

end Surroundings

namespace Site

variable {cut : List Char → List Char} {E : Site cut} {I J : Reader → Prop}
  {P Q : Cursor → Prop} {s s' : Surroundings} {r : Reader} {left : NodeId} {span span' : Span}

theorem shifted_forest {f : Forest} (hfits : E.Fits f) :
    f.Shifted E.before.size (E.forest f) := Forest.kind?_followedBy hfits E.bytes

/-- An assignment is followed if its right operand is. -/
theorem assignment_follows (hmode : s'.mode = s.mode) {symbol : List Char} {op : Option BinaryOp}
    (h : ∀ least, E.Follows I J P Q (s.expressionIn s.mode least) (s'.expressionIn s.mode least) r) :
    E.Follows I J P Q (applyFixity s (Operator.assignment symbol op) left span)
      (applyFixity s' (Operator.assignment symbol op) (left.shift E.before.size) span') r := by
  intro hI kind r₁ hrun
  obtain ⟨right, target, hright, htarget, hlegal, rfl⟩ := applyFixity_assignment_eq_ok_iff.mp hrun
  obtain ⟨hleads, hJ, hfollows⟩ := h _ hI right r₁ hright
  refine ⟨hleads, hJ, fun hQ => ⟨(hfollows hQ).1, fun hfits => ?_⟩⟩
  have hright' := (hfollows hQ).2 hfits
  have hshifted := shifted_forest hfits
  rw [← hmode] at hright'
  refine applyFixity_assignment_eq_ok_iff.mpr
    ⟨_, target.map (NodeId.shift E.before.size), hright', ?_, ?_, rfl⟩
  · change (E.forest r₁.forest).kind? _ = _
    rw [hshifted left, htarget, Option.map_some]
  · exact (hshifted.isTarget_eq _ _).trans hlegal

/-- A lambda is followed if its body is. -/
theorem lambda_follows (hmode : s'.mode = s.mode)
    (h : ∀ least, E.Follows I J P Q (s.expressionIn s.mode least) (s'.expressionIn s.mode least) r) :
    E.Follows I J P Q (applyFixity s Operator.lambda left span)
      (applyFixity s' Operator.lambda (left.shift E.before.size) span') r := by
  intro hI kind r₁ hrun
  obtain ⟨body, head, params, hbody, hhead, hparams, rfl⟩ := applyFixity_lambda_eq_ok_iff.mp hrun
  obtain ⟨hleads, hJ, hfollows⟩ := h _ hI body r₁ hbody
  refine ⟨hleads, hJ, fun hQ => ⟨(hfollows hQ).1, fun hfits => ?_⟩⟩
  have hbody' := (hfollows hQ).2 hfits
  have hshifted := shifted_forest hfits
  rw [← hmode] at hbody'
  refine applyFixity_lambda_eq_ok_iff.mpr
    ⟨_, head.map (NodeId.shift E.before.size), params, hbody', ?_, ?_, rfl⟩
  · change (E.forest r₁.forest).kind? _ = _
    rw [hshifted left, hhead, Option.map_some]
  · exact (hshifted.parameters?_eq _).trans hparams

/-- Where an operator has been applied, the same node is stored where the text stands. -/
theorem reader_stored {r₁ : Reader} {kind : NodeKind NodeId} {start : Nat}
    (hfits : E.Fits (r₁.afterOperator kind span).forest) (hleft : r.Holds left)
    (hleads : r.Leads r₁)
    (hspan : span
      = ((r.forest.get? left).elim Span.none (·.span)).merge (r₁.cursor.spanFrom start)) :
    E.reader (r₁.afterOperator kind span)
        = (E.reader r₁).afterOperator (Numbered.shift E.before.size kind)
          ((((E.reader r).forest.get? (left.shift E.before.size)).elim Span.none (·.span)).merge
            ((E.cursor r₁.cursor).spanFrom (start + E.bytes)))
      ∧ (E.reader r₁).forest.nextId = r₁.forest.nextId.shift E.before.size := by
  have hstored := Reader.Leads.afterOperator r₁ kind span
  have hfits₀ : E.Fits r.forest := hfits.mono (hleads.trans hstored).size_le
  have hroom : r.forest.size ≤ 4294967295 := Nat.le_trans (Nat.le_add_left _ _) hfits₀
  refine ⟨?_, Fits.nextId hfits⟩
  rw [reader_afterOperator, hspan, spanOf_reader hfits₀ (hleft hroom), Span.shift_merge,
    ← spanFrom_cursor]

end Site

namespace Place

open Site (reader_movedTo reader_afterOperand reader_stored)

variable {E : Place} {s s' : Surroundings} {r r₁ : Reader} {left : NodeId} {span span' : Span}
  {kind : NodeKind NodeId}

theorem operand_follows (h : E.Around s s') (r : Reader) :
    E.Follows (E.Clear false) (E.Clear s.mode.endsText) (standard.operand s)
      (standard.operand s') r := by
  intro _ id r₁ hrun
  obtain ⟨b, r₂, hskip, form, hform, r₃, hread, rfl⟩ := operand_eq_ok_iff.mp hrun
  obtain ⟨⟨priority, hmem⟩, haccepts⟩ := findForm?_eq_some hform
  obtain ⟨hleads, -, hpassed⟩ := h.trivia_follows r trivial b r₂ hskip
  obtain ⟨hleads', -, hfollows⟩ := form_follows h hmem haccepts trivial id r₃ hread
  refine ⟨(hleads.trans hleads').trans (.afterOperand r₃ form id), trivial, fun hclear => ?_⟩
  obtain ⟨hclear₂, hread'⟩ := hfollows hclear
  obtain ⟨hclear₁, hskip'⟩ := hpassed hclear₂
  refine ⟨hclear₁, fun hfits => ?_⟩
  have hform' : standard.findForm? (E.reader r₂).cursor.rest s'.mode.flags = some form := by
    rw [h.mode]
    exact E.endsLine.findForm?_eq_some hform
  exact operand_eq_ok_iff.mpr ⟨b, E.reader r₂, hskip' (hfits.mono hleads'.size_le), form, hform',
    E.reader r₃, hread' hfits, reader_afterOperand (r := r₃) hfits form id⟩

/-! ### Operators -/

/-- The operator behind an operand is the same where the text stands. -/
theorem findOperator?_reader (r : Reader) (flags : Flags) (start : Nat) (spaced : Bool) :
    standard.findOperator? (E.reader r).cursor.rest
        (standard.premiseAt (E.reader r) flags (start + E.bytes) spaced)
      = standard.findOperator? r.cursor.rest (standard.premiseAt r flags start spaced) := by
  change standard.findOperator? (r.cursor.rest ++ E.tail) _ = _
  rw [E.endsLine.findOperator?_eq]
  unfold findOperator?
  cases hfind : standard.operators.find? (·.symbol.isPrefixOf r.cursor.rest) with
  | some op => rfl
  | none =>
      suffices hpremise : standard.premiseAt (E.reader r) flags (start + E.bytes) spaced
          = standard.premiseAt r flags start spaced by rw [hpremise]
      refine Site.premiseAt_reader ?_ (fun q hq => Nat.lt_add_left start (E.stale q hq)) spaced
      refine E.endsLine.findForm?_eq (w := r.cursor.rest) flags fun hhead => ?_
      obtain ⟨w, hw⟩ := List.head?_eq_some_iff.mp hhead
      have hrange : (standard.operators.find? (·.symbol.isPrefixOf (':' :: w))).isSome = true := rfl
      rw [← hw, hfind] at hrange
      cases hrange

/-- Every operator of the language is followed. One that joins operands needs its right operand, so
the text goes on behind its symbol. -/
theorem applyFixity_follows (h : E.Around s s') {op : Operator} (hop : op ∈ standard.operators)
    (span span' : Span) (r : Reader) :
    E.Follows (E.Clear (s.mode.endsText && !op.isJoining)) (E.Clear s.mode.endsText)
      (applyFixity s op left span)
      (applyFixity s' op (left.shift E.before.size) span') r := by
  have hmode := h.mode
  rcases Operator.standard_cases hop with ⟨symbol, o, rfl⟩ | rfl | rfl | rfl
    | ⟨symbol, p, a, o, rfl⟩ | ⟨symbol, p, o, rfl⟩
  · exact (Site.assignment_follows hmode fun least => h.expression _ least r).start
      fun hclear => hclear.mono
  · exact (Site.lambda_follows hmode fun least => h.expression _ least r).start
      fun hclear => hclear.mono
  · simp only [applyFixity, Operator.range, hmode]
    refine ((h.expression _ _ r).start fun hclear => hclear.mono).bind fun right r₁ _ => ?_
    exact .pure (NodeKind.range left right)
  · simp only [applyFixity, Operator.call]
    refine Site.Follows.weaken (Q := Anywhere) ?_ fun _ _ => trivial
    refine ((h.delimited_follows (by decide) _ _ _ _ _ r).start fun hclear => hclear.mono).bind
      fun args r₁ _ => ?_
    have hpure := Site.Follows.pure (E := E.toSite) (I := fun _ => True) (Q := Anywhere) (r := r₁)
      (NodeKind.call left args)
    have hcall : Numbered.shift E.before.size (NodeKind.call left args)
        = .call (left.shift E.before.size) (Numbered.shift E.before.size args) :=
      NodeKind.map_call _ _ _
    rwa [hcall] at hpure
  · simp only [applyFixity, Operator.binary, hmode]
    refine ((h.expression _ _ r).start fun hclear => hclear.mono).bind fun right r₁ _ => ?_
    exact .pure (NodeKind.binary o left right)
  · have htrailing : (s.mode.endsText && !(Operator.trailingUnary symbol p o).isJoining)
        = s.mode.endsText := Bool.and_true _
    rw [htrailing]
    exact .pure (NodeKind.unary o left)

/-! ### Chains -/

/-- Where an operator stands, what is behind the text does not matter. -/
theorem clear_of_operator {d : Cursor} {flags : Flags} {x : Char} {ends : Bool}
    {premise : Option (List Char)} {found : OperatorMatch} (hsettled : standard.Settled flags d)
    (hx : d.peek? = some x) (hline : x ≠ '\n')
    (hfound : standard.findOperator? d.rest premise = some found)
    (hbehind : E.Clear (ends && !found.operator.isJoining) (d.advance found.bytes)) :
    E.Clear false d := by
  rcases Classical.em (E.tail = []) with htail | htail
  · exact .inl htail
  · refine .inr ⟨d, ⟨false, .stop (hsettled.change ?_ _)⟩, fun hdangling => ?_, fun hnil => ?_⟩
    · rw [hx]
      exact fun h => hline (Option.some.inj h)
    · obtain ⟨blanks, hblanks, -⟩ := id hdangling
      have hslash : standard.findOperator? ('\\' :: blanks) premise
          = some ⟨Operator.binary "\\".toList Precedence.multiplicative .left .leftDiv, 1⟩ := rfl
      rw [hblanks, hslash] at hfound
      cases hfound
      have hjoins : (ends && !(Operator.binary "\\".toList Precedence.multiplicative .left
          .leftDiv).isJoining) = false := Bool.and_false _
      rw [hjoins] at hbehind
      exact not_finished_of_dangling hdangling (hbehind.resolve_left htail)
    · rw [Cursor.peek?, hnil] at hx
      cases hx

theorem chain_follows (h : E.Around s s') (least : UInt8) {k k' : Nat} (hk : k ≤ k')
    (hleft : r.Holds left) :
    E.Follows (E.Clear s.mode.endsText) (E.Clear s.mode.endsText) (standard.chain s least k left)
      (standard.chain s' least k' (left.shift E.before.size)) r := by
  induction k generalizing k' left r with
  | zero => exact .of_fails fun p => fail_ne_ok (r := r)
  | succ k ih =>
      obtain ⟨k', rfl⟩ : ∃ j, k' = j + 1 := ⟨k' - 1, by omega⟩
      have hk : k ≤ k' := Nat.le_of_succ_le_succ hk
      intro _ id r₁ hrun
      obtain ⟨spaced, r₂, hskip, hcases⟩ := chain_eq_ok_iff.mp hrun
      rw [Surroundings.skip, h.skip] at hskip
      obtain ⟨d, hskips, rfl⟩ := skip_eq_ok_iff.mp hskip
      simp only [Reader.movedTo_cursor, Reader.movedTo_forest, Reader.movedTo_movedTo,
        Reader.movedTo_self] at hcases
      have hskip' (hclear : E.Clear s.mode.endsText d) :
          s'.skip (E.reader r) = .ok (spaced, E.reader (r.movedTo d)) := by
        rw [Surroundings.skip, h.skip', h.mode]
        exact skip_eq_ok_iff.mpr
          ⟨E.cursor d, hclear.skips Mode.newlineSignificant_of_endsText hskips, rfl⟩
      have hends' : standard.endsOperators s'.mode.flags spaced (E.reader (r.movedTo d)).cursor.rest
          = standard.endsOperators s.mode.flags spaced d.rest := by
        rw [h.mode]
        exact E.endsLine.endsOperators_eq _ _
      have hfound' := findOperator?_reader (E := E) (r.movedTo d) s.mode.flags r.cursor.offset
        spaced
      rcases hcases with ⟨hends, rfl, rfl⟩ | ⟨hends, found, hfound, hcases⟩
      · exact ⟨.refl _, trivial, fun hclear => ⟨hclear, fun _ => chain_eq_ok_iff.mpr
          ⟨spaced, _, hskip' (hclear.behind hskips), .inl ⟨hends'.trans hends, rfl, rfl⟩⟩⟩⟩
      have hfound' := hfound'.trans hfound
      rw [← h.mode] at hfound'
      rcases hcases with ⟨hlow, rfl, rfl⟩ | ⟨hhigh, kind, r₃, hkind, hchain⟩
      · exact ⟨.refl _, trivial, fun hclear => ⟨hclear, fun _ => chain_eq_ok_iff.mpr
          ⟨spaced, _, hskip' (hclear.behind hskips), .inr ⟨hends'.trans hends, found, hfound',
            .inl ⟨hlow, rfl, rfl⟩⟩⟩⟩⟩
      · obtain ⟨x, hx, hline⟩ := exists_of_endsOperators hends
        obtain ⟨hop, p, w, hp, hbytes⟩ := findOperator?_eq_some hfound
        have hadvance : E.cursor (d.advance found.bytes) = (E.cursor d).advance found.bytes := by
          rw [hbytes]
          exact cursor_advance_append hp
        obtain ⟨happlied, -, hfollows⟩ := applyFixity_follows h hop _
          (((E.cursor d).advance found.bytes).spanFrom (E.cursor d).offset) _ trivial kind r₃ hkind
        obtain ⟨hmore, -, hchained⟩ := ih hk (r₃.holds_afterOperator kind _) trivial id r₁ hchain
        have hpassed : r.Leads (r.movedTo (d.advance found.bytes)) :=
          .movedTo (hskips.reaches.trans (d.reaches_advance _))
        have hstored := (Reader.Leads.afterOperator r₃ kind _).trans hmore
        refine ⟨(hpassed.trans happlied).trans hstored, trivial, fun hclear => ?_⟩
        obtain ⟨hclear₃, hchain'⟩ := hchained hclear
        obtain ⟨hclear₂, hkind'⟩ := hfollows hclear₃
        have hclear_d := clear_of_operator hskips.settled hx hline hfound hclear₂
        refine ⟨(hclear_d.of_skips hskips).mono, fun hfits => ?_⟩
        have hkind' := hkind' (hfits.mono hstored.size_le)
        have hchain' := hchain' hfits
        obtain ⟨hnode, hnext⟩ :=
          reader_stored (hfits.mono hmore.size_le) hleft (hpassed.trans happlied) rfl
        rw [reader_movedTo, hadvance] at hkind'
        rw [hnode, ← hnext] at hchain'
        exact chain_eq_ok_iff.mpr ⟨spaced, E.reader (r.movedTo d), hskip' hclear_d.mono,
          .inr ⟨hends'.trans hends, found, hfound', .inr ⟨hhigh, _, E.reader r₃, hkind', hchain'⟩⟩⟩

/-! ### Expressions -/

theorem operand_holds (hs : s.Finds) {id : NodeId} (hrun : standard.operand s r = .ok (id, r₁)) :
    r₁.Holds id := by
  obtain ⟨b, r₂, -, form, hform, r₃, hread, rfl⟩ := operand_eq_ok_iff.mp hrun
  obtain ⟨⟨priority, hmem⟩, -⟩ := findForm?_eq_some hform
  exact hs.form hmem r₂ id r₃ hread

theorem chain_holds (hs : s.skipIn = standard.skip) {least : UInt8} {k : Nat} {id : NodeId}
    (hleft : r.Holds left) (hrun : standard.chain s least k left r = .ok (id, r₁)) :
    r₁.Holds id := by
  induction k generalizing left r with
  | zero => exact absurd hrun (fail_ne_ok (r := r))
  | succ k ih =>
      obtain ⟨spaced, r₂, hskip, hcases⟩ := chain_eq_ok_iff.mp hrun
      rw [Surroundings.skip, hs] at hskip
      obtain ⟨d, -, rfl⟩ := skip_eq_ok_iff.mp hskip
      rcases hcases with ⟨-, rfl, rfl⟩ | ⟨-, found, -, ⟨-, rfl, rfl⟩ | ⟨-, kind, r₃, -, hchain⟩⟩
      · exact hleft
      · exact hleft
      · exact ih (r₃.holds_afterOperator kind _) hchain

/-- The whole language is followed where a text stands. -/
theorem around_standard {fuel fuel' : Nat} (hfuel : fuel ≤ fuel') (mode : Mode) :
    E.Around ⟨mode, standard.skip, standard.expression fuel⟩
        ⟨mode, standard.skip, standard.expression fuel'⟩
      ∧ Surroundings.Finds ⟨mode, standard.skip, standard.expression fuel⟩ := by
  induction fuel generalizing fuel' mode with
  | zero =>
      refine ⟨⟨rfl, rfl, rfl, fun mode least r => .of_fails fun p => fail_ne_ok (r := r)⟩, rfl, ?_⟩
      intro mode least r r₁ id hrun
      exact absurd hrun (fail_ne_ok (r := r))
  | succ fuel ih =>
      obtain ⟨fuel', rfl⟩ : ∃ j, fuel' = j + 1 := ⟨fuel' - 1, by omega⟩
      have hfuel : fuel ≤ fuel' := Nat.le_of_succ_le_succ hfuel
      have hfollows (mode : Mode) (least : UInt8) (r : Reader) :
          E.Follows (E.Clear false) (E.Clear mode.endsText)
            (standard.expression (fuel + 1) mode least)
            (standard.expression (fuel' + 1) mode least) r := by
        obtain ⟨haround, hfinds⟩ := ih hfuel mode
        rw [expression, expression]
        refine (operand_follows haround r).bind fun left r₁ hleft => .flow_bind ?_ ?_
        · exact .pure left
        · exact Follows.rounds_bind fun k k' hk =>
            chain_follows haround least hk (operand_holds hfinds hleft)
      refine ⟨⟨rfl, rfl, rfl, hfollows⟩, rfl, fun mode least r r₁ id hrun => ?_⟩
      refine ⟨(hfollows mode least r trivial id r₁ hrun).1, ?_⟩
      have hfinds := (ih hfuel mode).2
      obtain ⟨left, r₂, hleft, ⟨-, rfl, rfl⟩ | ⟨-, hchain⟩⟩ := expression_eq_ok_iff.mp hrun
      · exact operand_holds hfinds hleft
      · exact chain_holds rfl (operand_holds hfinds hleft) hchain

end Place

end MatrixScript
