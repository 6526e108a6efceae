import MatrixScript.Proofs.Comments.Lexical
import MatrixScript.Proofs.Reading.Expressions
import MatrixScript.Proofs.Reading.Progress

/-!
# Steps of two readings

Two readings go on in step: either both fail, or both succeed with readers that match again. The
readers of matching steps have the same nodes but for their spans, and their cursors meet.

The text with the comment is longer, so its loops have more rounds. Rounds never run out in either
reading, as what is left to read is less than the bound of a match and each round lessens it.
-/

namespace MatrixScript

open Reading

/-- Both readings fail, or both succeed and their results are related. -/
def Agree {α : Type} (Q : α → α → Reader → Reader → Prop) :
    Except ParseError (α × Reader) → Except ParseError (α × Reader) → Prop
  | .ok (a, r), .ok (a', r') => Q a a' r r'
  | .error _, .error _ => True
  | _, _ => False

namespace Gap

/-- Readers at the same place of the two texts, with less than `n` characters left before the end of
the one with the blank. -/
structure Match (g : Gap) (n : Nat) (r r' : Reader) : Prop where
  cursor : g.Meets r.cursor r'.cursor
  below : r.cursor.rest.length < n
  kinds : r'.forest.nodes.map (·.kind) = r.forest.nodes.map (·.kind)
  premise : r'.premise = r.premise.map fun p => (p.1, g.move p.2)
  offers : ∀ p ∈ r.premise, p.1 = ['*']
  flow : r'.afterControlFlow = r.afterControlFlow

/-- Matching readers that are not right in front of the gap. -/
structure Faced (g : Gap) (n : Nat) (r r' : Reader) : Prop extends g.Match n r r' where
  faces : g.Faces r.cursor r'.cursor

/-- The same result with matching readers. -/
def Same {α : Type} (g : Gap) (n : Nat) (a a' : α) (r r' : Reader) : Prop :=
  a = a' ∧ g.Match n r r'

/-- A matrix that is being read in front of the gap has been opened there. -/
def Entered (g : Gap) (mode : Mode) (n : Nat) : Prop :=
  mode.flags.inMatrix = true → g.after.length + 1 < n → '[' ∈ g.before

end Gap

section Rules

variable {α β : Type} {r r' : Reader} {Q Q' : α → α → Reader → Reader → Prop}
  {P : β → β → Reader → Reader → Prop} {f f' : Reading α} {k k' : α → Reading β}

theorem Agree.imp {x x' : Except ParseError (α × Reader)} (h : Agree Q x x')
    (himp : ∀ a a' r r', Q a a' r r' → Q' a a' r r') : Agree Q' x x' := by
  cases x with
  | error e =>
      cases x' with
      | error e' => trivial
      | ok p => exact h.elim
  | ok p =>
      cases x' with
      | error e' => exact h.elim
      | ok p' => exact himp _ _ _ _ h

theorem Agree.bind (h : Agree Q (f r) (f' r'))
    (hk : ∀ a a' r₁ r₁', Q a a' r₁ r₁' → Agree P (k a r₁) (k' a' r₁')) :
    Agree P ((f >>= k) r) ((f' >>= k') r') := by
  change Agree P (f r >>= fun p => k p.1 p.2) (f' r' >>= fun p => k' p.1 p.2)
  cases hf : f r with
  | error e =>
      cases hf' : f' r' with
      | error e' => trivial
      | ok p' =>
          rw [hf, hf'] at h
          exact h.elim
  | ok p =>
      cases hf' : f' r' with
      | error e' =>
          rw [hf, hf'] at h
          exact h.elim
      | ok p' =>
          rw [hf, hf'] at h
          exact hk _ _ _ _ h

theorem Agree.within {construct : Construct} (h : Agree Q (f r) (f' r')) :
    Agree Q (Reading.within construct f r) (Reading.within construct f' r') := by
  rw [Reading.within_run, Reading.within_run]
  cases hf : f r with
  | error e =>
      cases hf' : f' r' with
      | error e' => trivial
      | ok p' =>
          rw [hf, hf'] at h
          exact h.elim
  | ok p =>
      cases hf' : f' r' with
      | error e' =>
          rw [hf, hf'] at h
          exact h.elim
      | ok p' =>
          rw [hf, hf'] at h
          exact h

end Rules

namespace Gap

section Readers

variable {α β : Type} {g : Gap} {m n : Nat} {r r' : Reader} {Q : β → β → Reader → Reader → Prop}
  {c c' : Cursor}

theorem Entered.mono {mode : Mode} (h : g.Entered mode n) (hle : m ≤ n) : g.Entered mode m :=
  fun hmatrix hlt => h hmatrix (Nat.lt_of_lt_of_le hlt hle)

theorem entered_of_not_inMatrix {mode : Mode} (h : mode.flags.inMatrix = false) :
    g.Entered mode n := by
  intro hmatrix
  rw [h] at hmatrix
  cases hmatrix

namespace Match

theorem mono (h : g.Match m r r') (hle : m ≤ n) : g.Match n r r' :=
  ⟨h.cursor, Nat.lt_of_lt_of_le h.below hle, h.kinds, h.premise, h.offers, h.flow⟩

theorem movedTo (h : g.Match n r r') (hc : g.Meets c c') (hm : c.rest.length < m) :
    g.Match m (r.movedTo c) (r'.movedTo c') :=
  ⟨hc, hm, h.kinds, h.premise, h.offers, h.flow⟩

theorem size_eq (h : g.Match n r r') : r'.forest.size = r.forest.size := by
  have hsize := congrArg Array.size h.kinds
  rwa [Array.size_map, Array.size_map] at hsize

theorem nextId_eq (h : g.Match n r r') : r'.forest.nextId = r.forest.nextId := by
  rw [Forest.nextId, Forest.nextId, h.size_eq]

theorem kind?_eq (h : g.Match n r r') (id : NodeId) : r'.forest.kind? id = r.forest.kind? id := by
  have hkind := congrArg (fun kinds : Array (NodeKind NodeId) => kinds[id.index.toNat]?) h.kinds
  simp only [Array.getElem?_map] at hkind
  exact hkind

theorem withNode (h : g.Match n r r') (kind : NodeKind NodeId) (span span' : Span) :
    g.Match n (r.withNode kind span) (r'.withNode kind span') := by
  refine ⟨h.cursor, h.below, ?_, h.premise, h.offers, h.flow⟩
  simp only [Reader.withNode, Forest.push, Array.map_push, h.kinds]

/-- What bounds the rounds of a loop that starts here. -/
theorem rounds (h : g.Match n r r') :
    g.Match (r.cursor.rest.length + 1) r r'
      ∧ g.bound (r.cursor.rest.length + 1) ≤ r'.cursor.rest.length + 1
      ∧ r.cursor.rest.length + 1 ≤ n :=
  ⟨h.movedTo h.cursor (Nat.lt_succ_self _), Nat.le_of_eq h.cursor.length_eq.symm, h.below⟩

end Match

theorem Same.mono {a a' : α} (h : g.Same m a a' r r') (hle : m ≤ n) : g.Same n a a' r r' :=
  ⟨h.1, h.2.mono hle⟩

/-- A character that may come next comes in both texts, or in none. -/
theorem Faced.eat_bind (h : g.Faced n r r') (x : Char) {k k' : Bool → Reading β}
    (htrue : g.Match r.cursor.rest.length (r.movedTo r.cursor.next) (r'.movedTo r'.cursor.next) →
      Agree Q (k true (r.movedTo r.cursor.next)) (k' true (r'.movedTo r'.cursor.next)))
    (hfalse : Agree Q (k false r) (k' false r')) :
    Agree Q ((eat x >>= k) r) ((eat x >>= k') r') := by
  rw [Reading.eat_bind, Reading.eat_bind, h.faces.peek?_eq]
  split
  · rename_i hx
    have hlength := Cursor.next_length hx
    exact htrue (h.movedTo h.faces.next (by omega))
  · exact hfalse

/-- Passing the next character lessens what is left. -/
theorem Faced.next (h : g.Faced n r r') {x : Char} (hx : r.cursor.peek? = some x) :
    g.Match r.cursor.rest.length (r.movedTo r.cursor.next) (r'.movedTo r'.cursor.next) := by
  have hlength := Cursor.next_length hx
  exact h.movedTo h.faces.next (by omega)

end Readers

/-! ### Steps among surroundings -/

/-- Surroundings of two readings that go on in step while less than `n` characters are left. -/
structure Pair (g : Gap) (n : Nat) (s s' : Surroundings) : Prop where
  clear : g.Clear
  mode : s'.mode = s.mode
  skips : s.skipIn = Grammar.standard.skip
  skips' : s'.skipIn = Grammar.standard.skip
  entered : g.Entered s.mode n
  expression : ∀ {m : Nat} {mode : Mode} (least : UInt8) {r r' : Reader}, m ≤ n →
    g.Entered mode m → g.Match m r r' →
    Agree (g.Same r.cursor.rest.length) (s.expressionIn mode least r) (s'.expressionIn mode least r')

namespace Pair

variable {β : Type} {g : Gap} {m n : Nat} {s s' : Surroundings} {r r' : Reader}
  {Q : β → β → Reader → Reader → Prop} {opener opener' : Span}

theorem mono (hs : g.Pair n s s') (hle : m ≤ n) : g.Pair m s s' :=
  ⟨hs.clear, hs.mode, hs.skips, hs.skips', hs.entered.mono hle,
    fun least _ _ hm => hs.expression least (Nat.le_trans hm hle)⟩

theorem inside (hs : g.Pair n s s') {mode : Mode} (hmode : g.Entered mode n) :
    g.Pair n (s.inside mode) (s'.inside mode) :=
  ⟨hs.clear, rfl, hs.skips, hs.skips', hmode, hs.expression⟩

/-- Text without meaning is passed in both readings. -/
theorem skips_eq (hs : g.Pair n s s') (h : g.Match m r r') :
    ∃ b d d', s.skip r = .ok (b, r.movedTo d) ∧ s'.skip r' = .ok (b, r'.movedTo d')
      ∧ g.Faced m (r.movedTo d) (r'.movedTo d')
      ∧ (b = true → s.mode.flags.newlineSignificant = true →
        ∀ x, d.rest = x :: ' ' :: g.after → x = '-' ∨ x = '+' → g.Signed) := by
  obtain ⟨b, d, d', hskip, hskip', hfaces, hsign⟩ := hs.clear.skips s.mode.flags h.cursor
  refine ⟨b, d, d', ?_, ?_, ⟨h.movedTo hfaces.meets ?_, hfaces⟩, hsign⟩
  · rw [Surroundings.skip, hs.skips]
    exact Grammar.skip_eq_ok_iff.mpr ⟨d, hskip, rfl⟩
  · rw [Surroundings.skip, hs.skips', hs.mode]
    exact Grammar.skip_eq_ok_iff.mpr ⟨d', hskip', rfl⟩
  · exact Nat.lt_of_le_of_lt hskip.length_le h.below

theorem skip_bind (hs : g.Pair n s s') (h : g.Match m r r') {k k' : Bool → Reading β}
    (hk : ∀ b r₁ r₁', g.Faced m r₁ r₁' → Agree Q (k b r₁) (k' b r₁')) :
    Agree Q ((s.skip >>= k) r) ((s'.skip >>= k') r') := by
  obtain ⟨b, d, d', hskip, hskip', hfaced, -⟩ := hs.skips_eq h
  rw [bind_ok hskip, bind_ok hskip']
  exact hk _ _ _ hfaced

theorem expresses (hs : g.Pair n s s') (h : g.Match m r r') (hle : m ≤ n) (least : UInt8) :
    Agree (g.Same r.cursor.rest.length) (s.expressionIn s.mode least r)
      (s'.expressionIn s'.mode least r') := by
  rw [hs.mode]
  exact hs.expression least hle (hs.entered.mono hle) h

theorem expect_agrees (hs : g.Pair n s s') (h : g.Match m r r') (x : Char) :
    Agree (fun _ _ => g.Match m) (s.expect x r) (s'.expect x r') := by
  refine hs.skip_bind h fun _ r₁ r₁' hr₁ => ?_
  rw [cursor_bind, cursor_bind]
  exact hr₁.eat_bind x (fun hnext => hnext.mono (Nat.le_of_lt hr₁.below)) trivial

theorem expectClose_agrees (hs : g.Pair n s s') (h : g.Match m r r') (opening closing : Char) :
    Agree (g.Same m) (s.expectClose opener opening closing r)
      (s'.expectClose opener' opening closing r') := by
  refine hs.skip_bind h fun _ r₁ r₁' hr₁ => ?_
  rw [cursor_bind, cursor_bind]
  refine hr₁.eat_bind closing (fun hnext => ⟨rfl, hnext.mono (Nat.le_of_lt hr₁.below)⟩) ?_
  simp only [Bool.false_eq_true, if_false, ite_run]
  split <;> split <;> trivial

theorem items_agrees (hs : g.Pair n s s') (opening closing : Char) {fuel fuel' : Nat}
    (hfuel : n ≤ fuel) (hfuel' : g.bound n ≤ fuel') (h : g.Match n r r') (found : List NodeId) :
    Agree (g.Same n) (s.items opener opening closing fuel found r)
      (s'.items opener' opening closing fuel' found r') := by
  induction fuel generalizing n fuel' r r' found with
  | zero => exact absurd h.below (by omega)
  | succ fuel ih =>
      have hbelow := h.below
      have hbound := le_bound (g := g) n
      obtain ⟨fuel', rfl⟩ : ∃ k, fuel' = k + 1 := ⟨fuel' - 1, by omega⟩
      refine (hs.expresses h (Nat.le_refl _) 0).bind fun item _ r₁ r₁' hr₁ => ?_
      obtain ⟨rfl, hr₁⟩ := hr₁
      refine hs.skip_bind hr₁ fun _ r₂ r₂' hr₂ => ?_
      refine hr₂.eat_bind ',' (fun hnext => ?_) ?_
      · have hless : r₂.cursor.rest.length < n := Nat.lt_trans hr₂.below hbelow
        have hbound' := bound_lt (g := g) hless
        exact (ih (hs.mono (Nat.le_of_lt hless)) (by omega) (by omega) hnext _).imp
          fun _ _ _ _ hsame => hsame.mono (Nat.le_of_lt hless)
      · refine (hs.expectClose_agrees hr₂.toMatch opening closing).bind fun _ _ r₃ r₃' hr₃ => ?_
        exact ⟨rfl, hr₃.2.mono (Nat.le_of_lt hbelow)⟩

theorem delimited_agrees (hs : g.Pair n s s') (h : g.Match n r r') {mode : Mode}
    (hmode : mode.flags.inMatrix = false) (opening closing : Char) (construct : Construct) :
    Agree (g.Same n) (s.delimited mode opener opening closing construct r)
      (s'.delimited mode opener' opening closing construct r') := by
  have hinside := hs.inside (entered_of_not_inMatrix hmode)
  refine Agree.within (hinside.skip_bind h fun _ r₁ r₁' hr₁ => ?_)
  refine hr₁.eat_bind closing (fun hnext => ⟨rfl, hnext.mono (Nat.le_of_lt hr₁.below)⟩) ?_
  simp only [Bool.false_eq_true, if_false, rounds_bind]
  obtain ⟨hrounds, hbound, hle⟩ := hr₁.toMatch.rounds
  exact ((hinside.mono hle).items_agrees opening closing (Nat.le_refl _) hbound hrounds []).imp
    fun _ _ _ _ hsame => hsame.mono hle

theorem condition_agrees (hs : g.Pair n s s') (h : g.Match n r r') :
    Agree (g.Same n) (s.condition r) (s'.condition r') := by
  refine (hs.expect_agrees h '(').bind fun _ _ r₁ r₁' hr₁ => ?_
  have hentered : g.Entered .group n := entered_of_not_inMatrix rfl
  have hinside := hs.inside hentered
  refine (hinside.expresses hr₁ (Nat.le_refl _) 0).bind fun cond _ r₂ r₂' hr₂ => ?_
  obtain ⟨rfl, hr₂⟩ := hr₂
  refine (hinside.expectClose_agrees hr₂ '(' ')').bind fun _ _ r₃ r₃' hr₃ => ?_
  exact ⟨rfl, hr₃.2.mono (Nat.le_of_lt hr₁.below)⟩

theorem skipLines_agrees (hs : g.Pair n s s') {fuel fuel' : Nat} (hfuel : m ≤ fuel)
    (hfuel' : g.bound m ≤ fuel') (h : g.Faced m r r') :
    Agree (fun _ _ => g.Faced m) (s.skipLines fuel r) (s'.skipLines fuel' r') := by
  induction fuel generalizing m fuel' r r' with
  | zero => exact absurd h.below (by omega)
  | succ fuel ih =>
      have hbelow := h.below
      have hbound := le_bound (g := g) m
      obtain ⟨fuel', rfl⟩ : ∃ k, fuel' = k + 1 := ⟨fuel' - 1, by omega⟩
      refine h.eat_bind '\n' (fun hnext => ?_) h
      refine hs.skip_bind hnext fun _ r₁ r₁' hr₁ => ?_
      have hbound' := bound_lt (g := g) hbelow
      exact (ih (by omega) (by omega) hr₁).imp fun _ _ _ _ hfaced =>
        ⟨hfaced.toMatch.mono (Nat.le_of_lt hbelow), hfaced.faces⟩

/-! ### Statements -/

theorem statementEnd_of_peek? {close : Option Char} {x : Char} (hx : r.cursor.peek? = some x) :
    Surroundings.statementEnd close r
      = if x = ';' then .ok (true, r.movedTo r.cursor.next)
        else if x = '\n' then .ok (false, r.movedTo r.cursor.next)
        else if some x == close || r.afterControlFlow then .ok (false, r)
        else (within .statement (fail (.unexpected (some x)) r.cursor.peekSpan) :
          Reading Bool) r := by
  unfold Surroundings.statementEnd
  rw [cursor_bind, hx]
  by_cases hsemi : x = ';'
  · subst hsemi
    rfl
  · by_cases hline : x = '\n'
    · subst hline
      rfl
    · simp only [hsemi, hline, if_false, get_bind, ite_run]
      rfl

theorem statementEnd_agrees (h : g.Faced n r r') (close : Option Char) :
    Agree (g.Same n) (Surroundings.statementEnd close r) (Surroundings.statementEnd close r') := by
  cases hx : r.cursor.peek? with
  | none =>
      have hx' := h.faces.peek?_eq.trans hx
      unfold Surroundings.statementEnd
      rw [cursor_bind, cursor_bind, hx, hx']
      exact ⟨rfl, h.toMatch⟩
  | some x =>
      have hnext := (h.next hx).mono (Nat.le_of_lt h.below)
      rw [statementEnd_of_peek? hx, statementEnd_of_peek? (h.faces.peek?_eq.trans hx), h.flow]
      split_ifs
      · exact ⟨rfl, hnext⟩
      · exact ⟨rfl, hnext⟩
      · exact ⟨rfl, h.toMatch⟩
      · trivial

theorem statementList_agrees (hs : g.Pair n s s') (close : Option Char) {fuel fuel' : Nat}
    (hfuel : n ≤ fuel) (hfuel' : g.bound n ≤ fuel') (h : g.Match n r r')
    (found : List Statement) :
    Agree (g.Same n) (s.statementList close fuel found r)
      (s'.statementList close fuel' found r') := by
  induction fuel generalizing n fuel' r r' found with
  | zero => exact absurd h.below (by omega)
  | succ fuel ih =>
      have hbelow := h.below
      have hbound := le_bound (g := g) n
      obtain ⟨fuel', rfl⟩ : ∃ k, fuel' = k + 1 := ⟨fuel' - 1, by omega⟩
      refine hs.skip_bind h fun _ r₁ r₁' hr₁ => ?_
      rw [peek?_bind, peek?_bind, hr₁.faces.peek?_eq]
      have hless := hr₁.below
      have hbound' := bound_lt (g := g) hless
      cases hpeek : r₁.cursor.peek? with
      | none => exact ⟨rfl, hr₁.toMatch⟩
      | some x =>
          dsimp only
          split
          · exact ⟨rfl, hr₁.toMatch⟩
          · split
            · refine (ih (hs.mono (Nat.le_of_lt hless)) (by omega) (by omega) (hr₁.next hpeek) _).imp
                fun _ _ _ _ hsame => hsame.mono (Nat.le_of_lt hless)
            · refine (Agree.within (hs.expresses hr₁.toMatch (Nat.le_refl _) 0)).bind
                fun root _ r₂ r₂' hr₂ => ?_
              obtain ⟨rfl, hr₂⟩ := hr₂
              refine hs.skip_bind hr₂ fun _ r₃ r₃' hr₃ => ?_
              refine (statementEnd_agrees hr₃ close).bind fun muted _ r₄ r₄' hr₄ => ?_
              obtain ⟨rfl, hr₄⟩ := hr₄
              exact (ih (hs.mono (Nat.le_of_lt hless)) (by omega) (by omega) hr₄ _).imp
                fun _ _ _ _ hsame => hsame.mono (Nat.le_of_lt hless)

theorem statements_agrees (hs : g.Pair n s s') (h : g.Match n r r') (close : Option Char) :
    Agree (g.Same n) (s.statements close r) (s'.statements close r') := by
  unfold Surroundings.statements
  rw [rounds_bind, rounds_bind]
  obtain ⟨hrounds, hbound, hle⟩ := h.rounds
  exact ((hs.mono hle).statementList_agrees close (Nat.le_refl _) hbound hrounds []).imp
    fun _ _ _ _ hsame => hsame.mono hle

end Pair

end Gap

end MatrixScript
