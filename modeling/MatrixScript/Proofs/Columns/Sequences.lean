import MatrixScript.Proofs.Columns.Steps

/-!
# Sequences in a row

The steps that forms share are followed, given that expressions are. What stands between delimiters
is read while a closing one is ahead, so it is followed to the closing delimiter itself. Outside of
all delimiters no text without meaning is passed, except by the search for the word `else`. That
search can look past the end of the element; the word is not found there, since no element starts
with it.
-/

namespace MatrixScript

open Reading Grammar

namespace RowPlace

open Site (reader_movedTo)

variable {E : RowPlace} {s s' : Surroundings} {z : Zone} {i j k : Nat} {Q : Cursor → Prop}
  {r : Reader}

theorem rest_ne_of_within {c : Cursor} (h : Within c) : c.rest ≠ [']'] := by
  obtain ⟨w, hw, x, hx, -⟩ := h
  obtain ⟨a, w, rfl⟩ := List.exists_cons_of_ne_nil (List.ne_nil_of_mem hx)
  simp [hw]

/-- The same text without meaning is passed in front of what is not the end of the element. -/
theorem skips_open {flags : Flags} {b : Bool} {c d : Cursor} {mode : Mode} (hz : z.Admits mode i)
    (hcompact : Compact (.code i) c.rest) (hskips : standard.Skips flags b c d) (h : z.Open d)
    (hd : d.rest ≠ [']']) : standard.Skips flags b (E.cursor c) (E.cursor d) := by
  cases z with
  | inner => exact skips_cursor hcompact hskips h
  | outer =>
      obtain ⟨-, rfl⟩ := hz
      have hsettled := hcompact.settled flags
      obtain ⟨rfl, rfl⟩ := hskips.eq_of_settled hsettled
      obtain ⟨w, hw⟩ := h
      have hne : w ≠ [] := by
        rintro rfl
        exact hd hw
      exact .stop (settled_cursor hcompact hw hne (.inr rfl) hsettled)

/-- Surroundings that pass text without meaning alike and whose expressions are followed. -/
structure Around (E : RowPlace) (s s' : Surroundings) : Prop where
  mode : s'.mode = s.mode
  skip : s.skipIn = standard.skip
  skip' : s'.skipIn = standard.skip
  expression (z : Zone) (i : Nat) (mode : Mode) (least : UInt8) (r : Reader) :
    z.Admits mode i →
      E.Follows i i z.Open z.Open (s.expressionIn mode least) (s'.expressionIn mode least) r

theorem statementEnd_follows (close : Option Char) (r : Reader) :
    E.Follows i i Within Within (Surroundings.statementEnd close)
      (Surroundings.statementEnd close) r := by
  intro hat muted r₁ hrun
  rcases Surroundings.statementEnd_eq_ok_iff.mp hrun with ⟨hstay, rfl, rfl⟩ | ⟨hend, rfl⟩
  · refine ⟨.refl _, hat, fun hwithin => ⟨hwithin, fun _ => ?_⟩⟩
    rw [← peek?_within (E := E) hwithin] at hstay
    exact Surroundings.statementEnd_eq_ok_iff.mpr (.inl ⟨hstay, rfl, rfl⟩)
  · have hpeek : ∃ x, r.cursor.peek? = some x ∧ x ∉ delimiters := by
      rcases hend with ⟨hx, -⟩ | ⟨hx, -⟩
      · exact ⟨_, hx, by decide⟩
      · exact ⟨_, hx, by decide⟩
    obtain ⟨x, hx, hdelimiter⟩ := hpeek
    have hcompact := hat.compact.rest_next hx
    rw [Scan.next_of_not_mem hdelimiter] at hcompact
    refine ⟨.movedTo r.cursor.reaches_next, hat.movedTo r.cursor.reaches_next hcompact,
      fun hwithin => ⟨hwithin.of_reaches r.cursor.reaches_next, fun _ => ?_⟩⟩
    obtain ⟨hx', hnext⟩ := cursor_next (E := E) hx hwithin.fenced
    refine Surroundings.statementEnd_eq_ok_iff.mpr (.inr ⟨?_, ?_⟩)
    · rw [hx, ← hx'] at hend
      exact hend
    · rw [reader_movedTo, hnext]
      rfl

namespace Around

theorem inside (h : E.Around s s') (mode : Mode) : E.Around (s.inside mode) (s'.inside mode) :=
  ⟨rfl, h.skip, h.skip', h.expression⟩

theorem any_follows (h : E.Around s s') (hz : z.Admits s.mode i) (r : Reader) :
    E.Follows i i z.Open z.Open s.expression s'.expression r := by
  have hs' : s'.expression = s'.expressionIn s.mode 0 := by rw [Surroundings.expression, h.mode]
  rw [hs']
  exact h.expression z i s.mode 0 r hz

theorem nested_follows (h : E.Around s s') (r : Reader) :
    E.Follows i i Within Within s.expression s'.expression r :=
  h.any_follows (z := .inner) trivial r

theorem skip_follows (h : E.Around s s') (hz : z.Admits s.mode i) (r : Reader) :
    E.Follows i i z.Open (fun c => z.Open c ∧ c.rest ≠ [']']) s.skip s'.skip r := by
  have hs : s.skip = standard.skip s.mode := by rw [Surroundings.skip, h.skip]
  have hs' : s'.skip = standard.skip s.mode := by rw [Surroundings.skip, h.skip', h.mode]
  rw [hs, hs']
  intro hat b r₁ hrun
  obtain ⟨c, hskips, rfl⟩ := skip_eq_ok_iff.mp hrun
  refine ⟨.movedTo hskips.reaches, hat.skips hskips,
    fun hfar => ⟨hfar.1.of_reaches hskips.reaches, fun _ => ?_⟩⟩
  exact skip_eq_ok_iff.mpr ⟨E.cursor c, skips_open hz hat.compact hskips hfar.1 hfar.2, rfl⟩

theorem trivia_follows (h : E.Around s s') (r : Reader) :
    E.Follows i i Within Within s.skip s'.skip r :=
  (h.skip_follows (z := .inner) trivial r).weaken fun _ hwithin =>
    ⟨hwithin, rest_ne_of_within hwithin⟩

theorem expectClose_follows (h : E.Around s s') {closing : Char} (hcloser : closing ∈ closers)
    (hscan : (Scan.code i).next closing = .code j) (opener opener' : Span) (opening : Char)
    (r : Reader) :
    E.Follows i j Within Fenced (s.expectClose opener opening closing)
      (s'.expectClose opener' opening closing) r := by
  intro hat u r₁ hrun
  obtain ⟨b, r₀, hskip, hpeek, rfl⟩ := Surroundings.expectClose_eq_ok_iff.mp hrun
  obtain ⟨hleads, hat₀, hfollows⟩ := h.trivia_follows r hat b r₀ hskip
  refine ⟨hleads.trans (.movedTo r₀.cursor.reaches_next),
    hat₀.movedTo r₀.cursor.reaches_next (hscan ▸ hat₀.compact.rest_next hpeek), fun hfenced => ?_⟩
  obtain ⟨hwithin, hskip'⟩ := hfollows (within_of_peek? hpeek hcloser hfenced)
  refine ⟨hwithin, fun hfits => ?_⟩
  obtain ⟨hpeek', hnext⟩ := cursor_next (E := E) hpeek hfenced
  refine Surroundings.expectClose_eq_ok_iff.mpr ⟨b, E.reader r₀, hskip' hfits, hpeek', ?_⟩
  rw [reader_movedTo, hnext]
  rfl

/-- The span of an expected character is only used in reports. -/
theorem expect_bind {β : Type} [Numbered β] (h : E.Around s s') {x : Char}
    (hscan : (Scan.code i).next x = .code j) {g g' : Span → Reading β}
    (hg : ∀ span span' r₁, E.Follows j k Within Q (g span) (g' span') r₁) :
    E.Follows i k Within Q (s.expect x >>= g) (s'.expect x >>= g') r := by
  intro hat a r₂ hrun
  obtain ⟨span, r₁, hexpect, hgr⟩ := bind_eq_ok_iff.mp hrun
  obtain ⟨b, r₀, hskip, hpeek, rfl, rfl⟩ := Surroundings.expect_eq_ok_iff.mp hexpect
  obtain ⟨hleads, hat₀, hfollows⟩ := h.trivia_follows r hat b r₀ hskip
  have hat₁ : (r₀.movedTo r₀.cursor.next).At j :=
    hat₀.movedTo r₀.cursor.reaches_next (hscan ▸ hat₀.compact.rest_next hpeek)
  obtain ⟨hleads', hat₂, hfollows'⟩ := hg _ (E.cursor r₀.cursor).peekSpan _ hat₁ a r₂ hgr
  refine ⟨hleads.trans ((Reader.Leads.movedTo r₀.cursor.reaches_next).trans hleads'), hat₂,
    fun hQ => ?_⟩
  obtain ⟨hwithin, hgr'⟩ := hfollows' hQ
  obtain ⟨hstart, hskip'⟩ := hfollows (hwithin.of_reaches r₀.cursor.reaches_next)
  refine ⟨hstart, fun hfits => ?_⟩
  obtain ⟨hpeek', hnext⟩ := cursor_next (E := E) hpeek hwithin.fenced
  have hgr' := hgr' hfits
  rw [reader_movedTo, hnext] at hgr'
  have hexpect' := Surroundings.expect_eq_ok_iff.mpr
    ⟨b, E.reader r₀, hskip' (hfits.mono hleads'.size_le), hpeek', rfl, rfl⟩
  rw [bind_ok hexpect']
  exact hgr'

theorem items_follows (h : E.Around s s') {closing : Char} (hcloser : closing ∈ closers)
    (hscan : (Scan.code i).next closing = .code j) (opener opener' : Span) (opening : Char)
    {n n' : Nat} (hn : n ≤ n') (found : List NodeId) (r : Reader) :
    E.Follows i j Within Fenced (s.items opener opening closing n found)
      (s'.items opener' opening closing n' (Numbered.shift E.before.size found)) r := by
  induction n generalizing n' found r with
  | zero => exact .of_fails fun p => fail_ne_ok
  | succ n ih =>
      obtain ⟨n', rfl⟩ : ∃ m, n' = m + 1 := ⟨n' - 1, by omega⟩
      rw [Surroundings.items, Surroundings.items]
      refine (h.nested_follows r).bind fun item r₁ _ => ?_
      refine (h.trivia_follows r₁).bind fun _ r₂ _ => ?_
      refine (Follows.eat (by decide)).bind fun b r₃ _ => ?_
      cases b with
      | true => exact ih (Nat.le_of_succ_le_succ hn) (item :: found) r₃
      | false =>
          refine (h.expectClose_follows hcloser hscan opener opener' opening r₃).bind
            fun _ r₄ _ => ?_
          have hreverse := Numbered.shift_reverse E.before.size (item :: found)
          exact hreverse ▸ .pure (item :: found).reverse

theorem delimited_follows (h : E.Around s s') {closing : Char} (hcloser : closing ∈ closers)
    (hscan : (Scan.code i).next closing = .code j) (mode : Mode) (opener opener' : Span)
    (opening : Char) (construct : Construct) (r : Reader) :
    E.Follows i j Within Fenced (s.delimited mode opener opening closing construct)
      (s'.delimited mode opener' opening closing construct) r := by
  refine .within (((h.inside mode).trivia_follows r).bind fun _ r₁ _ => ?_)
  refine Follows.eat_or hcloser hscan ([] : List NodeId) (Follows.rounds_bind fun n n' hn => ?_)
  exact (h.inside mode).items_follows hcloser hscan opener opener' opening hn [] r₁

theorem condition_follows (h : E.Around s s') (r : Reader) :
    E.Follows i i Within Fenced s.condition s'.condition r := by
  refine h.expect_bind (j := i + 1) rfl fun opener opener' r₁ => ?_
  refine ((h.inside .group).nested_follows r₁).bind fun cond r₂ _ => ?_
  refine ((h.inside .group).expectClose_follows (by decide) rfl opener opener' '(' r₂).bind
    fun _ r₃ _ => ?_
  exact .pure cond

theorem statementList_follows (h : E.Around s s') (close : Option Char) {n n' : Nat} (hn : n ≤ n')
    (found : List Statement) (r : Reader) :
    E.Follows i i Within Within (s.statementList close n found)
      (s'.statementList close n' (Numbered.shift E.before.size found)) r := by
  induction n generalizing n' found r with
  | zero => exact .of_fails fun p => fail_ne_ok (r := r)
  | succ n ih =>
      obtain ⟨n', rfl⟩ : ∃ m, n' = m + 1 := ⟨n' - 1, by omega⟩
      have hn : n ≤ n' := Nat.le_of_succ_le_succ hn
      have hdone (r : Reader) : E.Follows i i Within Within (pure found.reverse)
          (pure (Numbered.shift E.before.size found : List Statement).reverse) r := by
        rw [← Numbered.shift_reverse]
        exact .pure found.reverse
      rw [Surroundings.statementList, Surroundings.statementList]
      refine (h.trivia_follows r).bind fun _ r₁ _ => Follows.peek_bind ?_
      cases hpeek : r₁.cursor.peek? with
      | none => exact hdone r₁
      | some c =>
          dsimp only
          by_cases hclose : some c == close
          · rw [if_pos hclose, if_pos hclose]
            exact hdone r₁
          rw [if_neg hclose, if_neg hclose]
          simp only [Bool.or_eq_true, decide_eq_true_eq]
          by_cases hsep : c = ';' ∨ c = '\n'
          · rw [if_pos hsep, if_pos hsep]
            have hdelimiter : c ∉ delimiters := by
              rcases hsep with rfl | rfl <;> decide
            exact (ih hn found _).next_bind hpeek (Scan.next_of_not_mem hdelimiter i)
              fun hwithin => ⟨hwithin.of_reaches r₁.cursor.reaches_next, hwithin.fenced⟩
          rw [if_neg hsep, if_neg hsep]
          refine Site.Follows.bind (h.nested_follows r₁).within fun root r₂ _ => ?_
          refine (h.trivia_follows r₂).bind fun _ r₃ _ => ?_
          refine (statementEnd_follows close r₃).bind fun muted r₄ _ => ?_
          exact ih hn (⟨root, muted⟩ :: found) r₄

theorem statements_follows (h : E.Around s s') (close : Option Char) (r : Reader) :
    E.Follows i i Within Within (s.statements close) (s'.statements close) r :=
  Follows.rounds_bind fun _ _ hn => h.statementList_follows close hn [] r

/-- The word `else` is found in the row if it is found in the element. -/
theorem eatElse_follows (h : E.Around s s') (hz : z.Admits s.mode i) (r : Reader) :
    E.Follows i i z.Open z.Open (s.eatWord ['e', 'l', 's', 'e'])
      (s'.eatWord ['e', 'l', 's', 'e']) r := by
  intro hat b r₁ hrun
  obtain ⟨d, harrives, hend⟩ := (Surroundings.eatWord_eq_ok_iff_arrives h.skip).mp hrun
  obtain ⟨e, hskips⟩ := id harrives
  have hcompact := (hat.skips hskips).compact
  rw [Reader.movedTo_cursor] at hcompact
  have hsame (hopen : z.Open d) : startsWithWord ['e', 'l', 's', 'e'] (E.cursor d).rest
      = startsWithWord ['e', 'l', 's', 'e'] d.rest :=
    startsWithWord_cursor (by decide) hopen.fenced
  rcases hend with ⟨hword, rfl, rfl⟩ | ⟨hword, rfl, rfl⟩
  · obtain ⟨v, hv⟩ := exists_of_startsWithWord hword
    have hreaches := d.reaches_advance (byteCount ['e', 'l', 's', 'e'])
    have hbehind : Compact (.code i) (d.advance (byteCount ['e', 'l', 's', 'e'])).rest := by
      rw [hv] at hcompact
      rw [Cursor.advance_append hv]
      exact hcompact.pass (by decide)
    refine ⟨.movedTo (hskips.reaches.trans hreaches),
      hat.movedTo (hskips.reaches.trans hreaches) hbehind, fun hopen => ?_⟩
    have hopen_d : z.Open d := hopen.of_reaches hreaches
    refine ⟨hopen_d.of_reaches hskips.reaches, fun _ => ?_⟩
    have hne : d.rest ≠ [']'] := by
      rw [hv]
      rintro ⟨⟩
    refine (Surroundings.eatWord_eq_ok_iff_arrives h.skip').mpr
      ⟨E.cursor d, ⟨e, skips_open hz hat.compact hskips hopen_d hne⟩,
        .inl ⟨(hsame hopen_d).trans hword, rfl, ?_⟩⟩
    rw [reader_movedTo, (cursor_advance hv hopen.fenced).2]
  · refine ⟨.refl _, hat, fun hopen => ⟨hopen, fun _ => ?_⟩⟩
    refine (Surroundings.eatWord_eq_ok_iff_arrives h.skip').mpr ?_
    suffices hfound : ∃ e, Arrives (E.cursor r₁.cursor) e
        ∧ startsWithWord ['e', 'l', 's', 'e'] e.rest = false by
      obtain ⟨e, harrives', hword'⟩ := hfound
      exact ⟨e, harrives', .inr ⟨hword', rfl, rfl⟩⟩
    have hopen_d : z.Open d := hopen.of_skips hz hat.compact hskips
    by_cases hne : d.rest = [']']
    · -- nothing is left of the element, so the search goes on behind it
      have houter : d = r₁.cursor := by
        cases z with
        | inner => exact absurd hne (rest_ne_of_within hopen_d)
        | outer =>
            obtain ⟨-, rfl⟩ := hz
            exact (hskips.eq_of_settled (hat.compact.settled _)).2
      rw [houter] at hne
      obtain ⟨e, harrives', hword'⟩ := E.separated.passable (E.cursor r₁.cursor).offset
      have hcursor : E.cursor r₁.cursor = ⟨(E.cursor r₁.cursor).offset, E.tail⟩ := by
        rw [cursor_eq, hne]
        rfl
      rw [← hcursor] at harrives'
      exact ⟨e, harrives', hword'⟩
    · exact ⟨E.cursor d, ⟨e, skips_open hz hat.compact hskips hopen_d hne⟩,
        (hsame hopen_d).trans hword⟩

end Around

end RowPlace

end MatrixScript
