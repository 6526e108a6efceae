import MatrixScript.Proofs.Layout.Gathered

/-!
# Steps that gather nodes

Each of the steps that forms share is specified once: what has been gathered before it stays
gathered, and what the step gives comes behind that. Where a step fails, the report is about a place
in the text. A reader inside a loop has gathered what the loop has found so far.
-/

namespace MatrixScript

open Reading

/-- What a step gives, or the place that its report is about. -/
def Outcome {α : Type} (text : List Char) (Q : α → Reader → Prop) :
    Except ParseError (α × Reader) → Prop
  | .ok (a, r) => Q a r
  | .error e => e.span.Within text

/-- The second reader differs from the first by text that it has passed. -/
def Reader.Moved (r r₁ : Reader) : Prop := ∃ c, r.cursor.Reaches c ∧ r₁ = r.movedTo c

/-- A step that starts with some nodes gathered since the reader `r`. -/
def Gathers {α : Type} (text : List Char) (r : Reader) (ids : List NodeId) (f : Reading α)
    (Q : α → Reader → Prop) : Prop :=
  ∀ r₁, Gathered text r r₁ ids → Outcome text Q (f r₁)

section Rules

variable {α β : Type} {text : List Char} {r r₁ r₂ : Reader} {ids ids' : List NodeId}
  {f : Reading α} {g : α → Reading β} {M Q : α → Reader → Prop} {P : β → Reader → Prop}

theorem Outcome.imp {x : Except ParseError (α × Reader)} (h : Outcome text M x)
    (himp : ∀ a r, M a r → Q a r) : Outcome text Q x := by
  cases x with
  | ok p => exact himp p.1 p.2 h
  | error e => exact h

theorem Outcome.bind (hf : Outcome text M (f r)) (hg : ∀ a r₁, M a r₁ → Outcome text P (g a r₁)) :
    Outcome text P ((f >>= g) r) := by
  change Outcome text P (f r >>= fun p => g p.1 p.2)
  cases hfr : f r with
  | ok p =>
      rw [hfr] at hf
      exact hg p.1 p.2 hf
  | error e =>
      rw [hfr] at hf
      exact hf

theorem Outcome.within {construct : Construct} (h : Outcome text Q (f r)) :
    Outcome text Q (within construct f r) := by
  rw [within_run]
  cases hfr : f r with
  | ok p =>
      rw [hfr] at h
      exact h
  | error e =>
      rw [hfr] at h
      exact h

theorem Reader.Moved.trans (h : r.Moved r₁) (h' : r₁.Moved r₂) : r.Moved r₂ := by
  obtain ⟨c, hc, rfl⟩ := h
  obtain ⟨d, hd, rfl⟩ := h'
  exact ⟨d, hc.trans hd, rfl⟩

theorem Reader.moved_next (r : Reader) : r.Moved (r.movedTo r.cursor.next) :=
  ⟨_, r.cursor.reaches_next, rfl⟩

theorem Gathered.moved (h : Gathered text r r₁ ids) (hmoved : r₁.Moved r₂) :
    Gathered text r r₂ ids := by
  obtain ⟨c, hc, rfl⟩ := hmoved
  exact h.movedTo hc

theorem Reader.In.moved (h : r.In text) (hmoved : r.Moved r₁) : r₁.In text := by
  obtain ⟨c, hc, rfl⟩ := hmoved
  exact h.movedTo hc

namespace Gathers

theorem bind (hf : Gathers text r ids f M) (hg : ∀ a r₁, M a r₁ → Outcome text P (g a r₁)) :
    Gathers text r ids (f >>= g) P :=
  fun r₁ h => (hf r₁ h).bind hg

/-- One step after the other, where the first one adds to what has been gathered. -/
theorem seq {mid : α → List NodeId} (hf : Gathers text r ids f fun a r₁ => Gathered text r r₁ (mid a))
    (hg : ∀ a, Gathers text r (mid a) (g a) P) : Gathers text r ids (f >>= g) P :=
  hf.bind fun a r₁ => hg a r₁

theorem within {construct : Construct} (h : Gathers text r ids f Q) :
    Gathers text r ids (within construct f) Q :=
  fun r₁ hr₁ => (h r₁ hr₁).within

theorem pure {a : α} (h : ∀ r₁, Gathered text r r₁ ids → Q a r₁) :
    Gathers text r ids (pure a) Q := h

theorem fail {fault : ParseFault} {span : Span} (h : span.Within text) :
    Gathers text r ids (fail fault span) Q := fun _ _ => h

theorem cursor_bind {g : Cursor → Reading β} (h : ∀ c, c.In text → Gathers text r ids (g c) P) :
    Gathers text r ids (cursor >>= g) P :=
  fun r₁ hr₁ => h r₁.cursor hr₁.inText.cursor r₁ hr₁

theorem peek?_bind {g : Option Char → Reading β} (h : ∀ c, Gathers text r ids (g c) P) :
    Gathers text r ids (peek? >>= g) P :=
  fun r₁ hr₁ => h _ r₁ hr₁

theorem rounds_bind {g : Nat → Reading β} (h : ∀ k, Gathers text r ids (g k) P) :
    Gathers text r ids (Surroundings.rounds >>= g) P :=
  fun r₁ hr₁ => h _ r₁ hr₁

theorem next_bind {g : Unit → Reading β} (h : Gathers text r ids (g ()) P) :
    Gathers text r ids (next >>= g) P :=
  fun r₁ hr₁ => h _ (hr₁.moved r₁.moved_next)

/-- Whatever only moves the reader leaves alone what has been gathered. -/
theorem of_moves (h : ∀ r₁, r₁.In text → Outcome text (fun _ r₂ => r₁.Moved r₂) (f r₁)) :
    Gathers text r ids f fun _ r₂ => Gathered text r r₂ ids :=
  fun r₁ hr₁ => (h r₁ hr₁.inText).imp fun _ _ => hr₁.moved

end Gathers

theorem eat_moves (c : Char) (r : Reader) :
    Outcome text (fun _ r₁ => r.Moved r₁) ((eat c : Reading Bool) r) := by
  by_cases hc : r.cursor.peek? = some c
  · rw [eat_eq_ok_iff.mpr (.inl ⟨hc, rfl, rfl⟩)]
    exact r.moved_next
  · rw [eat_eq_ok_iff.mpr (.inr ⟨hc, rfl, rfl⟩)]
    exact ⟨r.cursor, .refl _, rfl⟩

theorem eat_gathers (c : Char) :
    Gathers text r ids (eat c) fun _ r₁ => Gathered text r r₁ ids :=
  .of_moves fun r₁ _ => eat_moves c r₁

end Rules

/-! ### Text without meaning -/

theorem Grammar.elide_reaches {text : List Char} (hshort : byteCount text < 4294967296)
    (g : Grammar) (flags : Flags) (fuel : Nat) (elided : Bool) {c : Cursor} (hc : c.In text) :
    match g.elide flags fuel elided c with
    | .ok (_, d) => c.Reaches d
    | .error e => e.span.Within text := by
  induction fuel generalizing elided c with
  | zero => exact .refl c
  | succ fuel ih =>
      rw [elide]
      cases c.peek?.bind g.transform? with
      | none => exact .refl c
      | some t =>
          dsimp only
          cases t c.rest flags with
          | declined => exact .refl c
          | unterminated what =>
              exact (hc.reaches c.reaches_toEnd).spanFrom hshort hc c.reaches_toEnd
          | elided n =>
              cases n with
              | zero => exact .refl c
              | succ n =>
                  have hadvance := c.reaches_advance (n + 1)
                  have hrest := ih true (hc.reaches hadvance)
                  dsimp only
                  cases helide : g.elide flags fuel true (c.advance (n + 1)) with
                  | ok p =>
                      rw [helide] at hrest
                      exact hadvance.trans hrest
                  | error e =>
                      rw [helide] at hrest
                      exact hrest

theorem Grammar.skip_moves_in {text : List Char} (hshort : byteCount text < 4294967296)
    (g : Grammar) (mode : Mode) {r : Reader} (hr : r.In text) :
    Outcome text (fun _ r₁ => r.Moved r₁) (g.skip mode r) := by
  have h := g.elide_reaches hshort mode.flags r.cursor.rest.length false hr.cursor
  unfold skip
  rw [step_eq, cursor_bind]
  cases helide : g.elide mode.flags r.cursor.rest.length false r.cursor with
  | ok p =>
      rw [helide] at h
      exact ⟨p.2, h, rfl⟩
  | error e =>
      rw [helide] at h
      exact h

/-! ### Steps among surroundings -/

/-- Surroundings whose skipping only moves the reader, and whose expressions gather a node. -/
structure Surroundings.Sound (text : List Char) (s : Surroundings) : Prop where
  skip (mode : Mode) {r : Reader} : r.In text →
    Outcome text (fun _ r₁ => r.Moved r₁) (s.skipIn mode r)
  expression (mode : Mode) (least : UInt8) {r : Reader} : r.In text →
    Outcome text (fun id r₁ => Gathered text r r₁ [id]) (s.expressionIn mode least r)

namespace Surroundings

variable {text : List Char} {s : Surroundings} {r : Reader} {ids : List NodeId}

theorem Sound.inside (hs : s.Sound text) (mode : Mode) : (s.inside mode).Sound text :=
  ⟨hs.skip, hs.expression⟩

theorem Sound.skips (hs : s.Sound text) :
    Gathers text r ids s.skip fun _ r₁ => Gathered text r r₁ ids :=
  .of_moves fun _ => hs.skip s.mode

theorem Sound.expresses (hs : s.Sound text) (mode : Mode) (least : UInt8) :
    Gathers text r ids (s.expressionIn mode least) fun id r₁ => Gathered text r r₁ (ids ++ [id]) :=
  fun _ hr₁ => (hs.expression mode least hr₁.inText).imp fun _ _ => hr₁.trans

variable (hs : s.Sound text) (hshort : byteCount text < 4294967296)

include hs hshort

theorem expect_gathers (c : Char) :
    Gathers text r ids (s.expect c) fun span r₁ => Gathered text r r₁ ids ∧ span.Within text := by
  refine hs.skips.seq fun _ => .cursor_bind fun here hhere => (eat_gathers c).seq fun b => ?_
  cases b with
  | true => exact .pure fun r₁ hr₁ => ⟨hr₁, hhere.peekSpan hshort⟩
  | false => exact .fail (hhere.peekSpan hshort)

theorem expectClose_gathers {opener : Span} (hopener : opener.Within text)
    (opening closing : Char) :
    Gathers text r ids (s.expectClose opener opening closing)
      fun _ r₁ => Gathered text r r₁ ids := by
  refine hs.skips.seq fun _ => .cursor_bind fun here hhere => (eat_gathers closing).seq fun b => ?_
  cases b with
  | true => exact .pure fun r₁ hr₁ => hr₁
  | false =>
      change Gathers text r ids (if here.atEnd = true then _ else _) _
      split
      · exact .fail hopener
      · exact .fail (hhere.peekSpan hshort)

theorem items_gathers {opener : Span} (hopener : opener.Within text) (opening closing : Char)
    (fuel : Nat) (found : List NodeId) :
    Gathers text r (ids ++ found.reverse) (s.items opener opening closing fuel found)
      fun items r₁ => Gathered text r r₁ (ids ++ items) := by
  induction fuel generalizing found with
  | zero => exact .fail hopener
  | succ fuel ih =>
      refine (hs.expresses s.mode 0).seq fun item => hs.skips.seq fun _ =>
        (eat_gathers ',').seq fun b => ?_
      rw [List.append_assoc, ← List.reverse_cons]
      cases b with
      | true => exact ih (item :: found)
      | false =>
          exact (expectClose_gathers hs hshort hopener opening closing).seq fun _ =>
            .pure fun r₁ hr₁ => hr₁

theorem delimited_gathers {opener : Span} (hopener : opener.Within text) (mode : Mode)
    (opening closing : Char) (construct : Construct) :
    Gathers text r ids (s.delimited mode opener opening closing construct)
      fun items r₁ => Gathered text r r₁ (ids ++ items) := by
  have hinside := hs.inside mode
  refine .within (hinside.skips.seq fun _ => (eat_gathers closing).seq fun b => ?_)
  cases b with
  | true =>
      refine .pure fun r₁ hr₁ => ?_
      rw [List.append_nil]
      exact hr₁
  | false =>
      refine .rounds_bind fun k => ?_
      have hitems : Gathers text r (ids ++ ([] : List NodeId).reverse) _ _ :=
        items_gathers hinside hshort hopener opening closing k []
      rw [List.reverse_nil, List.append_nil] at hitems
      exact hitems

theorem condition_gathers :
    Gathers text r ids s.condition fun cond r₁ => Gathered text r r₁ (ids ++ [cond]) := by
  refine (expect_gathers hs hshort '(').bind fun opener r₁ ⟨hr₁, hopener⟩ => ?_
  have hinside := hs.inside .group
  refine (hinside.expresses .group 0 r₁ hr₁).bind fun cond r₂ hr₂ => ?_
  exact (expectClose_gathers hinside hshort hopener '(' ')' r₂ hr₂).bind fun _ r₃ hr₃ => hr₃

omit hshort in
theorem skipLines_moves_in (fuel : Nat) {r : Reader} (hr : r.In text) :
    Outcome text (fun _ r₁ => r.Moved r₁) (s.skipLines fuel r) := by
  induction fuel generalizing r with
  | zero => exact ⟨r.cursor, .refl _, rfl⟩
  | succ fuel ih =>
      refine (eat_moves '\n' r).bind fun b r₁ hr₁ => ?_
      cases b with
      | false => exact hr₁
      | true =>
          have hin := hr.moved hr₁
          refine (hs.skip s.mode hin).bind fun _ r₂ hr₂ => ?_
          exact (ih (hin.moved hr₂)).imp fun _ _ h => hr₁.trans (hr₂.trans h)

/-! ### Statements -/

omit hs in
theorem statementEnd_gathers (close : Option Char) :
    Gathers text r ids (statementEnd close) fun _ r₁ => Gathered text r r₁ ids := by
  refine .cursor_bind fun c hc => ?_
  split
  · exact .pure fun r₁ hr₁ => hr₁
  · exact .next_bind (.pure fun r₁ hr₁ => hr₁)
  · exact .next_bind (.pure fun r₁ hr₁ => hr₁)
  · intro r₁ hr₁
    rw [get_bind]
    split
    · exact hr₁
    · exact Gathers.within (Gathers.fail (hc.peekSpan hshort)) r₁ hr₁

theorem statementList_gathers (close : Option Char) (fuel : Nat) (found : List Statement) :
    Gathers text r (ids ++ found.reverse.map (·.root)) (s.statementList close fuel found)
      fun ts r₁ => Gathered text r r₁ (ids ++ ts.map (·.root)) := by
  induction fuel generalizing found with
  | zero => exact .cursor_bind fun c hc => .fail (hc.peekSpan hshort)
  | succ fuel ih =>
      refine hs.skips.seq fun _ => .peek?_bind fun c => ?_
      cases c with
      | none => exact .pure fun r₁ hr₁ => hr₁
      | some c =>
          dsimp only
          split
          · exact .pure fun r₁ hr₁ => hr₁
          · split
            · exact .next_bind (ih found)
            · refine (hs.expresses s.mode 0).within.seq fun root => hs.skips.seq fun _ =>
                (statementEnd_gathers hshort close).seq fun muted => ?_
              have hlonger := ih (⟨root, muted⟩ :: found)
              rw [List.reverse_cons, List.map_append, ← List.append_assoc] at hlonger
              exact hlonger

theorem statements_gathers (close : Option Char) :
    Gathers text r ids (s.statements close)
      fun ts r₁ => Gathered text r r₁ (ids ++ ts.map (·.root)) := by
  refine .rounds_bind fun k => ?_
  have hlist : Gathers text r (ids ++ ([] : List Statement).reverse.map (·.root)) _ _ :=
    statementList_gathers hs hshort close k []
  rw [List.reverse_nil, List.map_nil, List.append_nil] at hlist
  exact hlist

end Surroundings

end MatrixScript
