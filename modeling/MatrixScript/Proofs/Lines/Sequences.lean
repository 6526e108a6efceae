import MatrixScript.Proofs.Lines.Places

/-!
# Sequences where a text stands

The steps that forms share are followed, given that expressions are. Whatever ends with a closing
delimiter is followed to the very end of the text. Loops have at least as many rounds left where
the text stands.

Looking for the word `else` passes all newlines, so it can look past the end of the text. It does
not find the word there, since no statement starts with it.
-/

namespace MatrixScript

open Reading Grammar

/-- Whether the text may end right behind what is read in this mode. -/
def Mode.endsText : Mode → Bool
  | .statement => true
  | _ => false

theorem Mode.newlineSignificant_of_endsText {mode : Mode} (h : mode.endsText = true) :
    mode.flags.newlineSignificant = true := by
  cases mode <;> first | rfl | cases h

namespace Place

open Site (reader_movedTo)

variable {E : Place} {s s' : Surroundings} {last : Bool} {Q : Cursor → Prop} {r : Reader}

/-- Surroundings that pass text without meaning alike and whose expressions are followed. -/
structure Around (E : Place) (s s' : Surroundings) : Prop where
  mode : s'.mode = s.mode
  skip : s.skipIn = standard.skip
  skip' : s'.skipIn = standard.skip
  expression (mode : Mode) (least : UInt8) (r : Reader) :
    E.Follows (E.Clear false) (E.Clear mode.endsText) (s.expressionIn mode least)
      (s'.expressionIn mode least) r

/-- Whether a statement has ended depends on the next character only. -/
theorem statementEnd_reader {close : Option Char} {muted : Bool} {r₁ : Reader}
    (hpeek : (E.cursor r.cursor).peek? = r.cursor.peek?)
    (hrun : Surroundings.statementEnd close r = .ok (muted, r₁)) :
    Surroundings.statementEnd close (E.reader r) = .ok (muted, E.reader r₁) := by
  rcases Surroundings.statementEnd_eq_ok_iff.mp hrun with ⟨hstay, rfl, rfl⟩ | ⟨hend, rfl⟩
  · rw [← hpeek] at hstay
    exact Surroundings.statementEnd_eq_ok_iff.mpr (.inl ⟨hstay, rfl, rfl⟩)
  · refine Surroundings.statementEnd_eq_ok_iff.mpr (.inr ⟨?_, ?_⟩)
    · rw [← hpeek] at hend
      exact hend
    · rcases hend with ⟨hx, -⟩ | ⟨hx, -⟩ <;>
      · rw [reader_movedTo, cursor_next hx]
        rfl

theorem statementEnd_follows (close : Option Char) (r : Reader) :
    E.Follows (E.Clear false) (E.Clear false) (Surroundings.statementEnd close)
      (Surroundings.statementEnd close) r := by
  intro _ muted r₁ hrun
  rcases Surroundings.statementEnd_eq_ok_iff.mp hrun with ⟨-, rfl, rfl⟩ | ⟨hpeek, rfl⟩
  · exact ⟨.refl _, trivial, fun hclear => ⟨hclear, fun _ => statementEnd_reader hclear.peek?_eq hrun⟩⟩
  · refine ⟨.movedTo r.cursor.reaches_next, trivial, fun hclear => ?_⟩
    have hstart : E.Clear false r.cursor := by
      rcases hpeek with ⟨hpeek, -⟩ | ⟨hpeek, -⟩
      · exact clear_of_peek? hpeek (by decide)
      · exact hclear.of_next hpeek
    exact ⟨hstart, fun _ => statementEnd_reader hstart.peek?_eq hrun⟩

namespace Around

theorem inside (h : E.Around s s') (mode : Mode) : E.Around (s.inside mode) (s'.inside mode) :=
  ⟨rfl, h.skip, h.skip', h.expression⟩

theorem any_follows (h : E.Around s s') (r : Reader) :
    E.Follows (E.Clear false) (E.Clear s.mode.endsText) s.expression s'.expression r := by
  have hs' : s'.expression = s'.expressionIn s.mode 0 := by rw [Surroundings.expression, h.mode]
  rw [hs']
  exact h.expression s.mode 0 r

theorem nested_follows (h : E.Around s s') (r : Reader) :
    E.Follows (E.Clear false) (E.Clear false) s.expression s'.expression r :=
  (h.any_follows r).weaken fun _ => Clear.mono

theorem skip_follows (h : E.Around s s') (last : Bool)
    (hlast : last = true → s.mode.flags.newlineSignificant = true) (r : Reader) :
    E.Follows (E.Clear last) (E.Clear last) s.skip s'.skip r := by
  have hs : s.skip = standard.skip s.mode := by rw [Surroundings.skip, h.skip]
  have hs' : s'.skip = standard.skip s.mode := by rw [Surroundings.skip, h.skip', h.mode]
  rw [hs, hs']
  intro _ b r₁ hrun
  obtain ⟨c, hskips, rfl⟩ := skip_eq_ok_iff.mp hrun
  refine ⟨.movedTo hskips.reaches, trivial, fun hclear => ⟨hclear.of_skips hskips, fun _ => ?_⟩⟩
  exact skip_eq_ok_iff.mpr ⟨E.cursor c, hclear.skips hlast hskips, rfl⟩

theorem trivia_follows (h : E.Around s s') (r : Reader) :
    E.Follows (E.Clear false) (E.Clear false) s.skip s'.skip r := h.skip_follows false nofun r

theorem expectClose_follows (h : E.Around s s') {closing : Char} (hc : closing ∉ triggers)
    (opener opener' : Span) (opening : Char) (r : Reader) :
    E.Follows (E.Clear false) Anywhere (s.expectClose opener opening closing)
      (s'.expectClose opener' opening closing) r := by
  intro _ u r₁ hrun
  obtain ⟨b, r₀, hskip, hpeek, rfl⟩ := Surroundings.expectClose_eq_ok_iff.mp hrun
  obtain ⟨hleads, -, hfollows⟩ := h.trivia_follows r trivial b r₀ hskip
  obtain ⟨hclear, hskip'⟩ := hfollows (clear_of_peek? hpeek hc)
  refine ⟨hleads.trans (.movedTo r₀.cursor.reaches_next), trivial,
    fun _ => ⟨hclear, fun hfits => ?_⟩⟩
  refine Surroundings.expectClose_eq_ok_iff.mpr
    ⟨b, E.reader r₀, hskip' hfits, peek?_of_some hpeek, ?_⟩
  rw [reader_movedTo, cursor_next hpeek]
  rfl

/-- The span of an expected character is only used in reports. -/
theorem expect_bind {β : Type} [Numbered β] (h : E.Around s s') {x : Char} (hx : x ∉ triggers)
    {g g' : Span → Reading β}
    (hg : ∀ span span' r₁, E.Follows (E.Clear false) Q (g span) (g' span') r₁) :
    E.Follows (E.Clear false) Q (s.expect x >>= g) (s'.expect x >>= g') r := by
  intro _ a r₂ hrun
  obtain ⟨span, r₁, hexpect, hgr⟩ := bind_eq_ok_iff.mp hrun
  obtain ⟨b, r₀, hskip, hpeek, rfl, rfl⟩ := Surroundings.expect_eq_ok_iff.mp hexpect
  obtain ⟨hleads, -, hfollows⟩ := h.trivia_follows r trivial b r₀ hskip
  obtain ⟨hclear, hskip'⟩ := hfollows (clear_of_peek? hpeek hx)
  obtain ⟨hleads', -, hfollows'⟩ := hg _ (E.cursor r₀.cursor).peekSpan _ trivial a r₂ hgr
  refine ⟨hleads.trans ((Reader.Leads.movedTo r₀.cursor.reaches_next).trans hleads'), trivial,
    fun hQ => ⟨hclear, fun hfits => ?_⟩⟩
  have hgr' := (hfollows' hQ).2 hfits
  rw [reader_movedTo, cursor_next hpeek] at hgr'
  have hexpect' := Surroundings.expect_eq_ok_iff.mpr
    ⟨b, E.reader r₀, hskip' (hfits.mono hleads'.size_le), peek?_of_some hpeek, rfl, rfl⟩
  rw [bind_ok hexpect']
  exact hgr'

theorem items_follows (h : E.Around s s') {closing : Char} (hc : closing ∉ triggers)
    (opener opener' : Span) (opening : Char) {k k' : Nat} (hk : k ≤ k') (found : List NodeId)
    (r : Reader) :
    E.Follows (E.Clear false) Anywhere (s.items opener opening closing k found)
      (s'.items opener' opening closing k' (Numbered.shift E.before.size found)) r := by
  induction k generalizing k' found r with
  | zero => exact .of_fails fun p => fail_ne_ok
  | succ k ih =>
      obtain ⟨k', rfl⟩ : ∃ j, k' = j + 1 := ⟨k' - 1, by omega⟩
      rw [Surroundings.items, Surroundings.items]
      refine (h.nested_follows r).bind fun item r₁ _ => ?_
      refine (h.trivia_follows r₁).bind fun _ r₂ _ => ?_
      refine (Follows.eat (by decide)).bind fun b r₃ _ => ?_
      cases b with
      | true => exact ih (Nat.le_of_succ_le_succ hk) (item :: found) r₃
      | false =>
          refine (h.expectClose_follows hc opener opener' opening r₃).bind fun _ r₄ _ => ?_
          have hreverse := Numbered.shift_reverse E.before.size (item :: found)
          exact hreverse ▸ .pure (item :: found).reverse

theorem delimited_follows (h : E.Around s s') {closing : Char} (hc : closing ∉ triggers)
    (mode : Mode) (opener opener' : Span) (opening : Char) (construct : Construct) (r : Reader) :
    E.Follows (E.Clear false) Anywhere (s.delimited mode opener opening closing construct)
      (s'.delimited mode opener' opening closing construct) r := by
  refine .within (((h.inside mode).trivia_follows r).bind fun _ r₁ _ => ?_)
  refine Follows.eat_or hc ([] : List NodeId) (Follows.rounds_bind fun k k' hk => ?_)
  exact (h.inside mode).items_follows hc opener opener' opening hk [] r₁

theorem condition_follows (h : E.Around s s') (r : Reader) :
    E.Follows (E.Clear false) Anywhere s.condition s'.condition r := by
  refine h.expect_bind (by decide) fun opener opener' r₁ => ?_
  refine ((h.inside .group).nested_follows r₁).bind fun cond r₂ _ => ?_
  refine ((h.inside .group).expectClose_follows (by decide) opener opener' '(' r₂).bind
    fun _ r₃ _ => ?_
  exact .pure cond

theorem statementList_follows (h : E.Around s s') (close : Option Char) {k k' : Nat} (hk : k ≤ k')
    (found : List Statement) (r : Reader) :
    E.Follows (E.Clear false) (E.Clear false) (s.statementList close k found)
      (s'.statementList close k' (Numbered.shift E.before.size found)) r := by
  induction k generalizing k' found r with
  | zero => exact .of_fails fun p => fail_ne_ok (r := r)
  | succ k ih =>
      obtain ⟨k', rfl⟩ : ∃ j, k' = j + 1 := ⟨k' - 1, by omega⟩
      have hk : k ≤ k' := Nat.le_of_succ_le_succ hk
      have hdone (r : Reader) : E.Follows (E.Clear false) (E.Clear false) (pure found.reverse)
          (pure (Numbered.shift E.before.size found : List Statement).reverse) r := by
        rw [← Numbered.shift_reverse]
        exact .pure found.reverse
      rw [Surroundings.statementList, Surroundings.statementList]
      refine (h.trivia_follows r).bind fun _ r₁ _ => Follows.peek_bind ?_
      cases hpeek : r₁.cursor.peek? with
      | none => exact hdone r₁
      | some c =>
          dsimp only
          by_cases hclose : some c == close
          · rw [if_pos hclose, if_pos hclose]
            exact hdone r₁
          rw [if_neg hclose, if_neg hclose]
          simp only [Bool.or_eq_true, decide_eq_true_eq]
          by_cases hsep : c = ';' ∨ c = '\n'
          · rw [if_pos hsep, if_pos hsep]
            refine (ih hk found _).next_bind hpeek fun hclear => ?_
            rcases hsep with rfl | rfl
            · exact clear_of_peek? hpeek (by decide)
            · exact hclear.of_next hpeek
          rw [if_neg hsep, if_neg hsep]
          refine Site.Follows.bind (h.nested_follows r₁).within fun root r₂ _ => ?_
          refine (h.trivia_follows r₂).bind fun _ r₃ _ => ?_
          refine (statementEnd_follows close r₃).bind fun muted r₄ _ => ?_
          exact ih hk (⟨root, muted⟩ :: found) r₄

theorem statements_follows (h : E.Around s s') (close : Option Char) (r : Reader) :
    E.Follows (E.Clear false) (E.Clear false) (s.statements close) (s'.statements close) r :=
  Follows.rounds_bind fun _ _ hk => h.statementList_follows close hk [] r

/-- The word `else` is found where the text stands if it is found in the text. -/
theorem eatElse_follows (h : E.Around s s') (r : Reader) :
    E.Follows (E.Clear last) (E.Clear last) (s.eatWord ['e', 'l', 's', 'e'])
      (s'.eatWord ['e', 'l', 's', 'e']) r := by
  intro _ b r₁ hrun
  obtain ⟨d, harrives, hend⟩ := (Surroundings.eatWord_eq_ok_iff_arrives h.skip).mp hrun
  have hsame : startsWithWord ['e', 'l', 's', 'e'] (E.cursor d).rest
      = startsWithWord ['e', 'l', 's', 'e'] d.rest := E.endsLine.startsWithWord_eq (by decide)
  rcases hend with ⟨hword, rfl, rfl⟩ | ⟨hword, rfl, rfl⟩
  · obtain ⟨w, hw⟩ := exists_of_startsWithWord hword
    have hclear : E.Clear false d := clear_of_peek? (Cursor.peek?_cons hw) (by decide)
    obtain ⟨e, hskips⟩ := harrives
    have hmoves := hskips.reaches.trans (d.reaches_advance (byteCount ['e', 'l', 's', 'e']))
    refine ⟨.movedTo hmoves, trivial, fun _ => ⟨(hclear.of_skips hskips).mono, fun _ => ?_⟩⟩
    refine (Surroundings.eatWord_eq_ok_iff_arrives h.skip').mpr
      ⟨E.cursor d, ⟨e, hclear.skips nofun hskips⟩, .inl ⟨hsame.trans hword, rfl, ?_⟩⟩
    rw [reader_movedTo, cursor_advance_append hw]
  · refine ⟨.refl _, trivial, fun hclear => ⟨hclear, fun _ => ?_⟩⟩
    suffices hfound : ∃ e, Arrives (E.cursor r₁.cursor) e
        ∧ startsWithWord ['e', 'l', 's', 'e'] e.rest = false by
      obtain ⟨e, harrives', hword'⟩ := hfound
      exact (Surroundings.eatWord_eq_ok_iff_arrives h.skip').mpr
        ⟨e, harrives', .inr ⟨hword', rfl, rfl⟩⟩
    by_cases hinside : E.tail = [] ∨ d.rest ≠ []
    · have hd := hclear.arrives harrives hinside
      obtain ⟨e, hskips⟩ := harrives
      exact ⟨E.cursor d, ⟨e, hd.skips nofun hskips⟩, hsame.trans hword⟩
    · -- nothing is left of the text, so the search goes on in the lines behind it
      obtain ⟨htail, hrest⟩ := not_or.mp hinside
      have hcursor : E.cursor d = ⟨(E.cursor d).offset, E.tail⟩ := by
        rw [cursor_eq, not_not.mp hrest, List.nil_append]
      obtain ⟨e, ⟨b, hskips'⟩, hword'⟩ := E.passable htail (E.cursor d).offset
      obtain ⟨b', hskips⟩ := harrives
      rw [← hcursor] at hskips'
      exact ⟨e, ⟨_, skips_trans hskips hskips'⟩, hword'⟩

end Around

end Place

end MatrixScript
