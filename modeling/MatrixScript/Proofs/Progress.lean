import MatrixScript.Proofs.Extension.Tables
import MatrixScript.Proofs.Progress.Forms
import MatrixScript.Proofs.Reading.Trivia

/-!
# Progress

Register operators with the standard grammar that join two operands, stand behind one, or assign,
and any transforms. Reading still comes to an end. An expression passes something: its operand does,
and so does each operator behind it, whether it is written or a multiplication that is only
understood, since then an operand follows. The cursor goes back only where what was looked for does
not come, to the end of the operand that stands before it.
-/

namespace MatrixScript

open Reading

/-! ### Grammars -/

/-- An operator whose building does not go back. Among those that stand behind their operand, the
one that is written as a parenthesis is the call. -/
inductive Operator.Builds : Operator → Prop where
  | joining {symbol : List Char} {precedence : UInt8} {assoc : Assoc}
      {build : NodeId → NodeId → Reading (NodeKind NodeId)}
      (h : ∀ left right, Forward (build left right)) :
      Builds ⟨symbol, precedence, .joining assoc build⟩
  | trailing {symbol : List Char} {precedence : UInt8}
      {build : NodeId → Span → Reading (NodeKind NodeId)} (hsymbol : symbol ≠ ['('])
      (h : ∀ operand span, Forward (build operand span)) :
      Builds ⟨symbol, precedence, .trailing fun _ => build⟩
  | call : Builds Operator.call

namespace Operator

theorem builds_binary (symbol : List Char) (precedence : UInt8) (assoc : Assoc) (op : BinaryOp) :
    (binary symbol precedence assoc op).Builds := .joining fun _ _ => .pure _

theorem builds_trailingUnary {symbol : List Char} (hsymbol : symbol ≠ ['(']) (precedence : UInt8)
    (op : UnaryOp) : (trailingUnary symbol precedence op).Builds :=
  .trailing hsymbol fun _ _ => .pure _

theorem builds_assignment (symbol : List Char) (op : Option BinaryOp) :
    (assignment symbol op).Builds := by
  refine .joining fun left right => Forward.get.bind fun r => ?_
  dsimp only
  split
  · exact .fail (by nofun) _
  · split
    · exact .pure _
    · exact .within (.fail (by nofun) _)

theorem builds_lambda : lambda.Builds := by
  refine .joining fun left right => Forward.get.bind fun r => ?_
  dsimp only
  split
  · exact .pure _
  · exact (Forward.spanOf left).bind fun span => .within (.fail (by nofun) _)

theorem builds_standard {op : Operator} (h : op ∈ standard) : op.Builds := by
  simp only [standard, List.mem_cons, List.not_mem_nil, or_false] at h
  rcases h with rfl | rfl | rfl | rfl | rfl | rfl | rfl | rfl | rfl | rfl | rfl | rfl | rfl | rfl
    | rfl | rfl | rfl | rfl | rfl | rfl | rfl | rfl | rfl | rfl | rfl | rfl | rfl | rfl | rfl
  all_goals first
    | exact builds_assignment _ _
    | exact builds_lambda
    | exact builds_binary _ _ _ _
    | exact .joining fun _ _ => .pure _
    | exact builds_trailingUnary (by decide) _ _
    | exact .call

end Operator

namespace Grammar

/-- What is registered besides forms: operators that join two operands, stand behind one or assign,
and transforms. -/
inductive Registration.Ordinary : Registration → Prop where
  | binary (symbol : List Char) (precedence : UInt8) (assoc : Assoc) (op : BinaryOp) :
      Ordinary (.operator (.binary symbol precedence assoc op))
  | trailing (symbol : List Char) (precedence : UInt8) (op : UnaryOp) :
      Ordinary (.operator (.trailingUnary symbol precedence op))
  | assignment (symbol : List Char) (op : Option BinaryOp) :
      Ordinary (.operator (.assignment symbol op))
  | transform (trigger : Char) (transform : Transform) : Ordinary (.transform trigger transform)

/-- What holds of all these grammars. -/
structure Regular (g : Grammar) : Prop where
  forms : g.forms = Form.standard
  symbol : ∀ op ∈ g.operators, byteCount op.symbol ≠ 0
  builds : ∀ op ∈ g.operators, op.Builds
  product : ∃ op, g.operator? ['*'] = some op ∧ op.isJoining = true
  call : (g.operator? ['(']).isSome = true

variable {g g' : Grammar}

theorem regular_standard : standard.Regular where
  forms := rfl
  symbol _ := byteCount_symbol
  builds _ hop := Operator.builds_standard (mem_standard_operators.mp hop)
  product := ⟨_, rfl, rfl⟩
  call := rfl

theorem Regular.registerOperator (h : g.Regular) {op : Operator}
    (hbuilds : op.symbol ≠ ['('] → op.Builds) (hg : g.registerOperator op = .ok g') :
    g'.Regular := by
  obtain ⟨hsymbol, hnew, rfl⟩ := registerOperator_eq_ok_iff.mp hg
  have hkept {symbol : List Char} (hsome : (g.operator? symbol).isSome = true) :
      (insertRanked (byteCount ·.symbol) op g.operators).find? (·.symbol == symbol)
        = g.operator? symbol := by
    refine find?_insertRanked (byteCount ·.symbol) (·.symbol == symbol) g.operators ?_
    refine Bool.eq_false_iff.mpr fun hsame => hnew ?_
    rw [eq_of_beq hsame]
    exact hsome
  have hmem {other : Operator}
      (hother : other ∈ insertRanked (byteCount ·.symbol) op g.operators) :
      other = op ∨ other ∈ g.operators := mem_insertRanked.mp hother
  obtain ⟨times, htimes, hjoining⟩ := h.product
  refine ⟨h.forms, fun other hother => ?_, fun other hother => ?_, ⟨times, ?_, hjoining⟩, ?_⟩
  · rcases hmem hother with rfl | hother
    · obtain ⟨x, d, hd⟩ := List.exists_cons_of_ne_nil hsymbol
      have hpos := x.utf8Size_pos
      rw [hd, byteCount_cons]
      omega
    · exact h.symbol other hother
  · rcases hmem hother with rfl | hother
    · exact hbuilds fun hcall => hnew (hcall ▸ h.call)
    · exact h.builds other hother
  · exact (hkept (by rw [htimes]; rfl)).trans htimes
  · exact (congrArg Option.isSome (hkept h.call)).trans h.call

theorem Regular.register (h : g.Regular) {entry : Registration} (hentry : entry.Ordinary)
    (hg : g.register entry = .ok g') : g'.Regular := by
  cases hentry with
  | binary symbol precedence assoc op =>
      exact h.registerOperator (fun _ => Operator.builds_binary ..) hg
  | trailing symbol precedence op =>
      exact h.registerOperator (fun hsymbol => Operator.builds_trailingUnary hsymbol ..) hg
  | assignment symbol op =>
      exact h.registerOperator (fun _ => Operator.builds_assignment ..) hg
  | transform trigger transform =>
      change g.registerTransform trigger transform = .ok g' at hg
      obtain ⟨-, rfl⟩ := registerTransform_eq_ok_iff.mp hg
      exact ⟨h.forms, h.symbol, h.builds, h.product, h.call⟩

/-- By induction on the registrations. -/
theorem Regular.foldlM_register {registrations : List Registration} (h : g.Regular)
    (hg : registrations.foldlM Grammar.register g = .ok g')
    (hordinary : ∀ entry ∈ registrations, entry.Ordinary) : g'.Regular := by
  induction registrations generalizing g with
  | nil =>
      obtain rfl := Except.ok.inj hg
      exact h
  | cons entry registrations ih =>
      obtain ⟨hentry, hothers⟩ := List.forall_mem_cons.mp hordinary
      rw [List.foldlM_cons] at hg
      cases hfirst : g.register entry with
      | error e =>
          rw [hfirst] at hg
          cases hg
      | ok between =>
          rw [hfirst] at hg
          exact ih (h.register hentry hfirst) hg hothers

/-! ### Expressions -/

variable {c : Cursor} {s : Twins} {r : Reader} {trail : Trail}

/-- The surroundings of an expression in a grammar. -/
def twins (g : Grammar) (mode : Mode) (fuel : Nat) : Twins :=
  ⟨⟨mode, g.skip, g.expression fuel⟩, g.tracked.expression fuel⟩

theorem tracked_twins (g : Grammar) (mode : Mode) (fuel : Nat) :
    (g.twins mode fuel).tracked = ⟨mode, g.tracked.skip, g.tracked.expression fuel⟩ := by
  rw [skip_tracked]
  rfl

theorem Regular.findOperator?_pays (h : g.Regular) {input : List Char}
    {premise : Option (List Char)} {found : OperatorMatch}
    (hfound : g.findOperator? input premise = some found)
    (hpremise : ∀ symbol ∈ premise, symbol = ['*']) :
    found.operator.Builds ∧ (found.bytes ≠ 0 ∨ found.operator.isJoining = true) := by
  unfold findOperator? at hfound
  split at hfound
  · rename_i op hfind
    cases hfound
    have hop := List.mem_of_find?_eq_some hfind
    exact ⟨h.builds op hop, .inl (h.symbol op hop)⟩
  · obtain ⟨op, hop, rfl⟩ := Option.map_eq_some_iff.mp hfound
    obtain ⟨symbol, hsymbol, hfind⟩ := Option.bind_eq_some_iff.mp hop
    obtain ⟨times, htimes, hjoining⟩ := h.product
    rw [hpremise symbol hsymbol, htimes] at hfind
    obtain rfl := Option.some.inj hfind
    exact ⟨h.builds times (List.mem_of_find?_eq_some htimes), .inr hjoining⟩

/-- An operator that joins reads its right operand, and so passes something behind its symbol. -/
theorem applyFixity_joining (hs : s.Sound c) {op : Operator} (hop : op.Builds)
    (hjoining : op.isJoining = true) (left : NodeId) (span : Span) (h : Past c r trail) :
    Watch r trail (applyFixity s.toSurroundings op left span)
      (applyFixity s.tracked op.tracked left span) fun _ => Past r.cursor := by
  cases hop with
  | joining hbuild =>
      exact (hs.expressionIn s.mode _ h).bind fun right =>
        Shadows.step (.past _) (hbuild left right)
  | trailing _ _ => cases hjoining
  | call => cases hjoining

theorem applyFixity_shadows (hs : s.Sound c) {op : Operator} (hop : op.Builds) (left : NodeId)
    (span : Span) : Shadows (Past c) (applyFixity s.toSurroundings op left span)
      (applyFixity s.tracked op.tracked left span) := by
  cases hop with
  | joining hbuild =>
      exact (hs.shadows s.mode _).bind fun right => .step (.past c) (hbuild left right)
  | trailing hsymbol hbuild =>
      rename_i symbol precedence build
      have htracked : (⟨symbol, precedence, .trailing fun _ => build⟩ : Operator).tracked
          = ⟨symbol, precedence,
              .trailing fun _ left span => MonadReading.step (build left span)⟩ :=
        congrArg _ (if_neg hsymbol)
      rw [htracked]
      exact .step (.past c) (hbuild left span)
  | call =>
      rw [Operator.call_tracked]
      exact (hs.delimited .arguments span '(' ')' .arguments).bind fun args => .pure _

/-- Behind its symbol, if it has one, an operator has passed something since the place where the
symbol stands. -/
theorem applyFixity_passes (hs : s.Sound c) {op : Operator} {bytes : Nat} {d : Cursor}
    (hop : op.Builds) (hpays : bytes ≠ 0 ∨ op.isJoining = true) (hd : c.Reaches d)
    (hne : d.rest ≠ []) (hcursor : r.cursor = d.advance bytes) (left : NodeId) (span : Span)
    (h : Past c r trail) :
    Watch r trail (applyFixity s.toSurroundings op left span)
      (applyFixity s.tracked op.tracked left span) fun _ => Past d := by
  have hadvance : d.Reaches r.cursor := hcursor ▸ d.reaches_advance bytes
  rcases hpays with hbytes | hjoining
  · refine applyFixity_shadows (hs.beyond hd) hop left span _ _ ⟨h.toKept, hadvance, ?_⟩
    rw [hcursor]
    exact Cursor.advance_length hbytes hne
  · exact (applyFixity_joining hs hop hjoining left span h).imp fun _ _ _ hright =>
      hright.since hadvance

theorem Regular.operand_watch (hg : g.Regular) (hs : s.Sound r.cursor) (h : Kept r trail) :
    Watch r trail (g.operand s.toSurroundings) (g.tracked.operand s.tracked)
      fun _ => Past r.cursor := by
  have hP := Onward.rfl_kept.beyond r.cursor
  refine (hs.skip hP _ _ ⟨h, .refl _⟩).bind fun _ r₁ _ hskip => Watch.step_bind rfl ?_
  obtain ⟨hkept, hreaches⟩ := hP.moved hskip (.refl _) rfl
  have hfind : g.findForm? r₁.cursor.rest s.mode.flags
      = standard.findForm? r₁.cursor.rest s.mode.flags := by
    unfold findForm?
    rw [hg.forms]
    rfl
  rw [findForm?_tracked, Twins.tracked_mode, hfind]
  cases hform : standard.findForm? r₁.cursor.rest s.mode.flags with
  | none => exact Watch.of_error rfl nofun hkept.sound
  | some form =>
      obtain ⟨⟨priority, hmem⟩, haccepts⟩ := findForm?_eq_some hform
      have hstandard : form ∈ Form.standard.map (·.2) := List.mem_map_of_mem hmem
      refine (Form.standard_progresses hstandard (hs.beyond hreaches) hkept haccepts).bind
        fun id r₂ _ hread => Watch.step_bind rfl (Watch.step_bind rfl ?_)
      have hread := (Onward.past _).moved ((Onward.past _).moved hread (.refl _) rfl) (.refl _) rfl
      refine Watch.ends_bind ⟨rfl, (hread.since hreaches).ended rfl fun p hp => ?_⟩
      rcases Option.or_eq_some_iff.mp hp with hoffered | ⟨-, hbefore⟩
      · obtain ⟨symbol, hsymbol, rfl⟩ := Option.map_eq_some_iff.mp hoffered
        exact premise_of_standard hstandard symbol hsymbol
      · exact hread.offers p hbefore

/-- By induction on the rounds: an operator passes something, written or understood. Where none is
taken, the cursor goes back to the end of the operand. -/
theorem Regular.chain_watch (hg : g.Regular) (hs : s.Sound c) (least : UInt8) {fuel : Nat}
    (left : NodeId) (h : Past c r trail) (hfuel : r.cursor.rest.length < fuel) :
    Watch r trail (g.chain s.toSurroundings least fuel left)
      (g.tracked.chain s.tracked least fuel left) fun _ => Past c := by
  induction fuel generalizing left r trail with
  | zero => exact absurd hfuel (Nat.not_lt_zero _)
  | succ fuel ih =>
      have hP := ((Onward.past c).recent r.cursor).below (fuel + 1)
      refine Watch.step_bind rfl ?_
      refine (hs.skip hP _ _ (hP.moved ⟨⟨h, h.here⟩, hfuel⟩ (.refl _) rfl)).bind
        fun spaced r₁ trail₁ hskip => Watch.get_bind ?_
      obtain ⟨⟨hpast, hrecent⟩, hbelow⟩ := hskip
      have hback : Watch r₁ trail₁ (do moveTo r.cursor; return left)
          (do moveTo r.cursor; return left) fun _ => Past c := by
        refine Watch.step_bind (q := r₁.movedTo r.cursor) rfl ⟨rfl, ?_⟩
        exact ⟨hpast.toKept.back rfl hrecent, h.reaches, h.shorter⟩
      dsimp only
      rw [endsOperators_tracked, premiseAt_tracked, findOperator?_tracked, Twins.tracked_mode]
      split
      · exact hback
      · rename_i hends
        obtain ⟨x, hx, -⟩ := exists_of_endsOperators (Bool.eq_false_iff.mpr hends)
        have hne : r₁.cursor.rest ≠ [] := by
          obtain ⟨d, hd⟩ := Cursor.rest_of_peek? hx
          exact hd ▸ List.cons_ne_nil _ _
        cases hfind : g.findOperator? r₁.cursor.rest
            (g.premiseAt r₁ s.mode.flags r.cursor.offset spaced) with
        | none => exact Watch.of_error rfl nofun hpast.sound
        | some found =>
            obtain ⟨op, bytes⟩ := found
            obtain ⟨hbuilds, hpays⟩ :=
              hg.findOperator?_pays hfind (premiseAt_offers hpast.offers _ _ _)
            dsimp only [Option.map_some] at hbuilds hpays ⊢
            by_cases hleast : op.precedence < least
            · rw [if_pos hleast, if_pos (c := op.tracked.precedence < least) hleast]
              exact hback
            · rw [if_neg hleast, if_neg (c := op.tracked.precedence < least) hleast]
              have hP := Onward.past c
              have hsymbol := hP.moved (q := r₁.movedTo (r₁.cursor.advance bytes)) hpast
                (r₁.cursor.reaches_advance bytes) rfl
              refine Watch.step_bind rfl (Watch.step_bind rfl (Watch.step_bind rfl ?_))
              refine (applyFixity_passes hs hbuilds hpays hpast.reaches hne rfl left _
                (hP.moved (hP.moved hsymbol (.refl _) rfl) (.refl _) rfl)).bind
                fun kind r₂ _ hbuilt => Watch.step_bind rfl (Watch.step_bind rfl ?_)
              have hnode := (Onward.past _).moved ((Onward.past _).moved hbuilt (.refl _) rfl)
                (.refl _) rfl
              refine Watch.ends_bind (ih _ (hpast.trans (hnode.ended rfl hbuilt.offers)) ?_)
              exact Nat.lt_of_lt_of_le hbuilt.shorter (Nat.le_of_lt_succ hbelow)

/-- By induction on the depth: what is nested stands behind a character of what is around it. -/
theorem Regular.expression_watch (hg : g.Regular) {fuel : Nat} (mode : Mode) (least : UInt8)
    (h : Kept r trail) (hfuel : r.cursor.rest.length < fuel) :
    Watch r trail (g.expression fuel mode least) (g.tracked.expression fuel mode least)
      fun _ => Past r.cursor := by
  induction fuel generalizing mode least r trail with
  | zero => exact absurd hfuel (Nat.not_lt_zero _)
  | succ fuel ih =>
      have hs : (g.twins mode fuel).Sound r.cursor := ⟨g.skip_forward, fun mode least _ _ hpast =>
        ih mode least hpast.toKept (Nat.lt_of_lt_of_le hpast.shorter (Nat.le_of_lt_succ hfuel))⟩
      rw [expression, expression, ← tracked_twins]
      refine Watch.whole ((hg.operand_watch hs h).bind fun left r₁ _ hleft => Watch.get_bind ?_)
      split
      · exact Shadows.pure _ _ _ hleft
      · exact Watch.step_bind rfl (hg.chain_watch hs least left
          ((Onward.past _).moved hleft (.refl _) rfl) (Nat.lt_succ_self _))

/-! ### Whole texts -/

theorem Regular.parseTracked (hg : g.Regular) (text : List Char) :
    (g.parseTracked text).1 = g.parse text ∧ (g.parseTracked text).2.Sound ∧
      ∀ e, g.parse text = .error e → e.fault ≠ .stalled := by
  let s := g.twins .statement (text.length + 1)
  have hs : Statements (fun r trail => Kept r trail ∧ r.cursor.rest.length < text.length + 1) s :=
    ⟨Onward.rfl_kept.below _, fun h hpast => ⟨hpast.toKept, Nat.lt_trans hpast.shorter h.2⟩,
      g.skip_forward _, fun h => hg.expression_watch _ _ h.1 h.2⟩
  have hfront : Kept (Reader.ofText text) [.moved (.ofText text)] :=
    ⟨nofun, rfl, List.mem_cons_self, .start _⟩
  have hwatch := hs.shadows none _ _ ⟨hfront, Nat.lt_succ_self _⟩
  have htracked : g.parseTracked text
      = (((s.tracked.statements none (Reader.ofText text) [.moved (.ofText text)]).1).map
          fun p => ⟨p.2.forest, p.1⟩,
        (s.tracked.statements none (Reader.ofText text) [.moved (.ofText text)]).2) := by
    rw [tracked_twins]
    rfl
  obtain ⟨hsound, hends⟩ := hwatch.sound fun h => h.1.sound
  have hparse : g.parse text = (s.toSurroundings.statements none (Reader.ofText text)).map
      fun p => ⟨p.2.forest, p.1⟩ := by
    unfold Grammar.parse
    change (s.toSurroundings.statements none (Reader.ofText text) >>= _) = _
    cases s.toSurroundings.statements none (Reader.ofText text) <;> rfl
  rw [hparse, htracked]
  refine ⟨congrArg (Except.map _) hwatch.1, hsound, fun e he => ?_⟩
  cases hrun : s.toSurroundings.statements none (Reader.ofText text) with
  | ok p =>
      rw [hrun] at he
      cases he
  | error e' =>
      rw [hrun] at he hends
      obtain rfl := Except.error.inj he
      exact hends

theorem Regular.expressionTracked (hg : g.Regular) {fuel : Nat} (mode : Mode) (least : UInt8)
    (hfuel : r.cursor.rest.length < fuel) (hoffers : ∀ p ∈ r.premise, p.1 = ['*']) :
    (g.tracked.expression fuel mode least r [.moved r.cursor]).1 = g.expression fuel mode least r ∧
      (g.tracked.expression fuel mode least r [.moved r.cursor]).2.Sound ∧
      match g.expression fuel mode least r with
        | .ok (_, r₁) => r.cursor.Reaches r₁.cursor ∧ r.cursor.offset < r₁.cursor.offset
        | .error e => e.fault ≠ .stalled := by
  have hstart : Kept r [.moved r.cursor] := ⟨hoffers, rfl, List.mem_cons_self, .start _⟩
  have hwatch := hg.expression_watch mode least hstart hfuel
  obtain ⟨hsound, hends⟩ := hwatch.sound fun h => h.sound
  refine ⟨hwatch.1, hsound, ?_⟩
  cases hrun : g.expression fuel mode least r with
  | ok p =>
      rw [hrun] at hends
      obtain ⟨trail, hpast⟩ := hends
      exact ⟨hpast.reaches, hpast.reaches.offset_lt hpast.shorter⟩
  | error e =>
      rw [hrun] at hends
      exact hends

/-- Once what means nothing has been passed over, no transform applies any more. -/
theorem skip_settles {mode : Mode} {r₁ : Reader} {elided : Bool}
    (h : g.skip mode r = .ok (elided, r₁)) :
    g.Settled mode.flags r₁.cursor ∧ g.skip mode r₁ = .ok (false, r₁) := by
  obtain ⟨c, hskips, rfl⟩ := skip_eq_ok_iff.mp h
  exact ⟨hskips.settled, skip_eq_ok_iff.mpr ⟨c, .stop hskips.settled, rfl⟩⟩

/-- Every text is read to its end or to an error, and never because the rounds of a loop or the
depth were used up; what is recorded on the way is sound. So it is for an expression that is read
anywhere, and it passes something. After what means nothing has been passed over, no transform
applies, and passing over once more does nothing. -/
theorem progress_of_registered {registrations : List Registration}
    (hg : registrations.foldlM Grammar.register standard = .ok g)
    (hordinary : ∀ entry ∈ registrations, entry.Ordinary) :
    (∀ text, (g.parseTracked text).1 = g.parse text ∧ (g.parseTracked text).2.Sound ∧
      ∀ e, g.parse text = .error e → e.fault ≠ .stalled) ∧
    (∀ fuel mode least (r : Reader), r.cursor.rest.length < fuel →
      (∀ p ∈ r.premise, p.1 = ['*']) →
      (g.tracked.expression fuel mode least r [.moved r.cursor]).1
          = g.expression fuel mode least r ∧
        (g.tracked.expression fuel mode least r [.moved r.cursor]).2.Sound ∧
        match g.expression fuel mode least r with
          | .ok (_, r₁) => r.cursor.Reaches r₁.cursor ∧ r.cursor.offset < r₁.cursor.offset
          | .error e => e.fault ≠ .stalled) ∧
    ∀ mode (r r₁ : Reader) elided, g.skip mode r = .ok (elided, r₁) →
      g.Settled mode.flags r₁.cursor ∧ g.skip mode r₁ = .ok (false, r₁) := by
  have hregular := regular_standard.foldlM_register hg hordinary
  exact ⟨hregular.parseTracked, fun _ mode least _ => hregular.expressionTracked mode least,
    fun _ _ _ _ => skip_settles⟩

/-- Another way to write an inequality, a factorial and an assignment, and comments behind a hash.
The cursor goes back from the end of the text to the end of the factorial, and then passes the
comment once more. -/
theorem progress_of_registered_hash :
    let unequal := Operator.binary ['<', '>'] Precedence.comparison .left .notEq
    let factorial := Operator.trailingUnary ['~'] Precedence.trailing .factorial
    let becomes := Operator.assignment [':', '='] none
    let hash : Transform := fun input _ => .elided (byteCount (input.takeWhile (· ≠ '\n')))
    let registrations := [.operator unequal, .operator factorial, .operator becomes,
      .transform '#' hash]
    let text := ['a', '~', ' ', '#']
    let r := Reader.ofText text
    ∃ g, registrations.foldlM Grammar.register standard = .ok g ∧
      (g.parseTracked text).2.Sound ∧
      (g.parseTracked text).2.drop 5 = .moved ⟨2, [' ', '#']⟩ :: (g.parseTracked text).2.drop 6 ∧
      Trail.position ((g.parseTracked text).2.drop 6) = ⟨4, []⟩ ∧
      (∃ id r₁, g.expression 5 .statement 0 r = .ok (id, r₁) ∧ r₁.cursor = ⟨2, [' ', '#']⟩ ∧
        r.cursor.Reaches r₁.cursor) ∧
      ∃ r₁, g.skip .statement (r.movedTo ⟨2, [' ', '#']⟩) = .ok (true, r₁) ∧
        g.skip .statement r₁ = .ok (false, r₁) := by
  intro unequal factorial becomes hash registrations text r
  have hordinary : ∀ entry ∈ registrations, entry.Ordinary := by
    simp only [registrations, List.forall_mem_cons, List.not_mem_nil, false_implies, implies_true,
      and_true]
    exact ⟨.binary .., .trailing .., .assignment .., .transform ..⟩
  obtain ⟨g, hg, hback, hend, hexpression, hskip⟩ :
      ∃ g, registrations.foldlM Grammar.register standard = .ok g ∧
        (g.parseTracked text).2.drop 5
          = .moved ⟨2, [' ', '#']⟩ :: (g.parseTracked text).2.drop 6 ∧
        Trail.position ((g.parseTracked text).2.drop 6) = ⟨4, []⟩ ∧
        (g.expression 5 .statement 0 r).toOption.map (·.2.cursor) = some ⟨2, [' ', '#']⟩ ∧
        (g.skip .statement (r.movedTo ⟨2, [' ', '#']⟩)).toOption.map (·.1) = some true :=
    ⟨_, rfl, by decide +kernel, by decide +kernel, by decide +kernel, by decide +kernel⟩
  obtain ⟨htexts, hexpressions, hskips⟩ := progress_of_registered hg hordinary
  refine ⟨g, hg, (htexts text).2.1, hback, hend, ?_, ?_⟩
  · obtain ⟨-, -, hpast⟩ := hexpressions 5 .statement 0 r (by decide) nofun
    cases hrun : g.expression 5 .statement 0 r with
    | error e =>
        rw [hrun] at hexpression
        cases hexpression
    | ok p =>
        rw [hrun] at hexpression hpast
        exact ⟨p.1, p.2, rfl, Option.some.inj hexpression, hpast.1⟩
  · cases hrun : g.skip .statement (r.movedTo ⟨2, [' ', '#']⟩) with
    | error e =>
        rw [hrun] at hskip
        cases hskip
    | ok p =>
        rw [hrun] at hskip
        obtain ⟨elided, r₁⟩ := p
        obtain rfl : elided = true := Option.some.inj hskip
        exact ⟨r₁, rfl, (hskips _ _ _ _ hrun).2⟩

end Grammar

end MatrixScript
