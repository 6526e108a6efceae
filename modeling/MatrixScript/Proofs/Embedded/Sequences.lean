import MatrixScript.Proofs.Embedded.Steps

/-!
# Sequences in two readings

The steps that forms share are followed, provided that text without meaning and expressions are.
Loops are followed round by round; the longer text has more characters left and thereby more fuel.
-/

namespace MatrixScript

open Reading

theorem Alive.of_peek? {c : Cursor} {x : Char} (hc : c.peek? = some x)
    (hx : x ∉ Grammar.triggers) : Alive c := by
  have hsettled := Grammar.settled_of_peek? Mode.group.flags hc hx
  refine hsettled.alive hc ?_
  rintro rfl
  exact hx (by decide)

namespace Embedding

variable {E : Embedding} {s s' : Surroundings} {n : Nat}

/-- Surroundings that pass text without meaning alike and whose expressions are followed. -/
structure Around (E : Embedding) (s s' : Surroundings) : Prop where
  mode : s'.mode = s.mode
  skip : s.skipIn = Grammar.standard.skip
  skip' : s'.skipIn = Grammar.standard.skip
  expression (n : Nat) (mode : Mode) (least : UInt8) :
    E.Tracks n Alive (s.expressionIn mode least) (s'.expressionIn mode least)

theorem eat_tracks {c : Char} (hc : c ∉ Grammar.triggers) :
    E.Tracks n Alive (eat c) (eat c) := by
  constructor
  · intro r r₁ b hf
    rcases eat_eq_ok_iff.mp hf with ⟨-, -, rfl⟩ | ⟨-, -, rfl⟩ <;> exact Nat.le_refl _
  · intro r r₁ b hf halive
    rcases eat_eq_ok_iff.mp hf with ⟨hpeek, -, rfl⟩ | ⟨-, -, rfl⟩
    · exact .of_peek? hpeek hc
    · exact halive
  · intro r r' r₁ b hr hn hf halive hfits
    rcases eat_eq_ok_iff.mp hf with ⟨hpeek, rfl, rfl⟩ | ⟨hpeek, rfl, rfl⟩
    · exact ⟨nofun, _, eat_eq_ok_iff.mpr (.inl ⟨hr.cursor.peek? hpeek, rfl, rfl⟩),
        hr.movedTo (hr.cursor.next hpeek)⟩
    · rw [← hr.cursor.peek?_eq halive] at hpeek
      exact ⟨nofun, _, eat_eq_ok_iff.mpr (.inr ⟨hpeek, rfl, rfl⟩), hr⟩

/-- Like `Tracks`, for steps that start only where `P` holds. -/
structure TracksWhen {α : Type} [Numbered α] (E : Embedding) (P : Cursor → Prop) (n : Nat)
    (Q : Cursor → Prop) (f f' : Reading α) : Prop where
  grows {r r₁ : Reader} {a : α} : P r.cursor → f r = .ok (a, r₁) →
    r.forest.size ≤ r₁.forest.size
  steady {r r₁ : Reader} {a : α} : P r.cursor → f r = .ok (a, r₁) → Q r₁.cursor → Alive r.cursor
  follows {r r' r₁ : Reader} {a : α} : P r.cursor → E.Readers r r' → n ≤ r.forest.size →
    f r = .ok (a, r₁) → Q r₁.cursor → E.Fits r₁.forest → Numbered.Below r₁.forest.size a
      ∧ ∃ r₁', f' r' = .ok (Numbered.shift E.before.size a, r₁') ∧ E.Readers r₁ r₁'

variable {α : Type} [Numbered α] {P Q : Cursor → Prop} {f f' : Reading α} {c : Char}

theorem Tracks.start (h : E.Tracks n Q f f') : E.TracksWhen P n Q f f' where
  grows _ := h.grows
  steady _ := h.steady
  follows _ := h.follows

namespace TracksWhen

/-- Passing a character in front of a step that is followed. -/
theorem next_bind (hP : ∀ c, P c → ∃ x, c.peek? = some x ∧ (x ∉ Grammar.triggers ∨ x = '\n'))
    (hf : E.Tracks n Q f f') :
    E.TracksWhen P n Q (next >>= fun _ => f) (next >>= fun _ => f') where
  grows {r _ _} _ h := hf.grows (r := r.movedTo r.cursor.next) h
  steady {r r₁ a} hr h hQ := by
    obtain ⟨x, hpeek, hx⟩ := hP _ hr
    rcases hx with hx | rfl
    · exact .of_peek? hpeek hx
    · exact .of_next (hf.steady h hQ) hpeek
  follows {r r' r₁ a} hP' hr hn h hQ hfits := by
    obtain ⟨x, hpeek, -⟩ := hP _ hP'
    exact hf.follows (hr.movedTo (hr.cursor.next hpeek)) hn h hQ hfits

/-- A delimiter that is passed as the last thing of a step. -/
theorem next_pure (hc : c ∉ Grammar.triggers) {a : α} (ha : Numbered.Below n a) :
    E.TracksWhen (·.peek? = some c) n Q (next >>= fun _ => pure a)
      (next >>= fun _ => pure (Numbered.shift E.before.size a)) where
  grows _ h := by
    obtain ⟨-, rfl⟩ := pure_eq_ok_iff.mp h
    exact Nat.le_refl _
  steady hpeek _ _ := .of_peek? hpeek hc
  follows hpeek hr hn h _ _ := by
    obtain ⟨rfl, rfl⟩ := pure_eq_ok_iff.mp h
    exact ⟨ha.mono hn, _, rfl, hr.movedTo (hr.cursor.next hpeek)⟩

/-- The start is remembered for the span of a node, and for the character that stands there. -/
theorem cursor_bind {g g' : Cursor → Reading α} (hP : ∀ c, P c → ∃ x, c.peek? = some x)
    (hg : ∀ c c', P c → c'.peek? = c.peek? → E.TracksWhen P n Q (g c) (g' c')) :
    E.TracksWhen P n Q (cursor >>= g) (cursor >>= g') where
  grows hr h := (hg _ _ hr rfl).grows hr h
  steady hr h := (hg _ _ hr rfl).steady hr h
  follows {r r' r₁ a} hP' hr hn h hQ hfits := by
    obtain ⟨x, hx⟩ := hP _ hP'
    have hpeek : r'.cursor.peek? = r.cursor.peek? := by rw [hx, hr.cursor.peek? hx]
    exact (hg _ _ hP' hpeek).follows hP' hr hn h hQ hfits

theorem offset_bind {g g' : Nat → Reading α}
    (hg : ∀ start start', E.TracksWhen P n Q (g start) (g' start')) :
    E.TracksWhen P n Q (offset >>= g) (offset >>= g') where
  grows hr h := (hg _ 0).grows hr h
  steady hr h := (hg _ 0).steady hr h
  follows hP' hr hn h hQ hfits := (hg _ _).follows hP' hr hn h hQ hfits

/-- Passing a first part of the text that starts with meaning. -/
theorem advance_bind {bytes : Nat}
    (hP : ∀ c, P c → ∃ p d x, c.rest = p ++ d ∧ bytes = byteCount p
      ∧ c.peek? = some x ∧ x ∉ Grammar.triggers)
    (hf : E.Tracks n Q f f') :
    E.TracksWhen P n Q (advance bytes >>= fun _ => f) (advance bytes >>= fun _ => f') where
  grows {r _ _} _ h := hf.grows (r := r.movedTo (r.cursor.advance bytes)) h
  steady hP' _ _ := by
    obtain ⟨p, d, x, -, -, hpeek, hx⟩ := hP _ hP'
    exact .of_peek? hpeek hx
  follows hP' hr hn h hQ hfits := by
    obtain ⟨p, d, x, hrest, rfl, -⟩ := hP _ hP'
    exact hf.follows (hr.movedTo (hr.cursor.advance hrest)) hn h hQ hfits

end TracksWhen

/-- A step that looks at the next character first. Where there is none the reading is over. -/
theorem Tracks.peek_bind {g g' : Option Char → Reading α}
    (hnone : ∀ {r r₁ : Reader} {a : α}, r.cursor.rest = [] → g none r = .ok (a, r₁) →
      r.forest.size ≤ r₁.forest.size ∧ ¬Q r₁.cursor)
    (hsome : ∀ c, E.TracksWhen (·.peek? = some c) n Q (g (some c)) (g' (some c))) :
    E.Tracks n Q (peek? >>= g) (peek? >>= g') := by
  have hrest {r : Reader} (h : r.cursor.peek? = none) : r.cursor.rest = [] :=
    List.head?_eq_none_iff.mp h
  constructor
  · intro r r₁ a h
    rw [peek?_bind] at h
    cases hpeek : r.cursor.peek? with
    | none =>
        rw [hpeek] at h
        exact (hnone (hrest hpeek) h).1
    | some c =>
        rw [hpeek] at h
        exact (hsome c).grows hpeek h
  · intro r r₁ a h hQ
    rw [peek?_bind] at h
    cases hpeek : r.cursor.peek? with
    | none =>
        rw [hpeek] at h
        exact absurd hQ (hnone (hrest hpeek) h).2
    | some c =>
        rw [hpeek] at h
        exact (hsome c).steady hpeek h hQ
  · intro r r' r₁ a hr hn h hQ hfits
    rw [peek?_bind] at h ⊢
    cases hpeek : r.cursor.peek? with
    | none =>
        rw [hpeek] at h
        exact absurd hQ (hnone (hrest hpeek) h).2
    | some c =>
        rw [hpeek] at h
        rw [hr.cursor.peek? hpeek]
        exact (hsome c).follows hpeek hr hn h hQ hfits

/-- A delimiter that is passed at once, or else what has to end by passing one. -/
theorem eat_or_tracks (hc : c ∉ Grammar.triggers) {a : α} (ha : Numbered.Below n a)
    (hf : E.Tracks n Anywhere f f') :
    E.Tracks n Anywhere (eat c >>= fun b => if b then pure a else f)
      (eat c >>= fun b => if b then pure (Numbered.shift E.before.size a) else f') := by
  constructor
  · intro r r₁ b h
    rw [eat_bind] at h
    split at h
    · obtain ⟨-, rfl⟩ := pure_eq_ok_iff.mp h
      exact Nat.le_refl _
    · exact hf.grows h
  · intro r r₁ b h _
    rw [eat_bind] at h
    split at h
    · rename_i hpeek
      exact .of_peek? hpeek hc
    · exact hf.steady h trivial
  · intro r r' r₁ b hr hn h _ hfits
    rw [eat_bind] at h ⊢
    split at h
    · rename_i hpeek
      obtain ⟨rfl, rfl⟩ := pure_eq_ok_iff.mp h
      rw [if_pos (hr.cursor.peek? hpeek)]
      exact ⟨ha.mono hn, _, rfl, hr.movedTo (hr.cursor.next hpeek)⟩
    · rename_i hpeek
      have halive := hf.steady h trivial
      rw [← hr.cursor.peek?_eq halive] at hpeek
      rw [if_neg hpeek]
      exact hf.follows hr hn h trivial hfits

namespace Around

theorem inside (h : E.Around s s') (mode : Mode) : E.Around (s.inside mode) (s'.inside mode) :=
  ⟨rfl, h.skip, h.skip', h.expression⟩

theorem skip_tracks (h : E.Around s s') : E.Tracks n Alive s.skip s'.skip := by
  have hs : s.skip = Grammar.standard.skip s.mode := by rw [Surroundings.skip, h.skip]
  have hs' : s'.skip = Grammar.standard.skip s.mode := by
    rw [Surroundings.skip, h.skip', h.mode]
  rw [hs, hs']
  constructor
  · intro r r₁ b hf
    obtain ⟨c, -, rfl⟩ := Grammar.skip_eq_ok_iff.mp hf
    exact Nat.le_refl _
  · intro r r₁ b hf halive
    obtain ⟨c, hskips, rfl⟩ := Grammar.skip_eq_ok_iff.mp hf
    exact hskips.alive halive
  · intro r r' r₁ b hr hn hf halive hfits
    obtain ⟨c, hskips, rfl⟩ := Grammar.skip_eq_ok_iff.mp hf
    obtain ⟨-, c', hskips', hc⟩ := hr.cursor.skips (hskips.alive halive) hskips
    exact ⟨nofun, _, Grammar.skip_eq_ok_iff.mpr ⟨c', hskips', rfl⟩, hr.movedTo hc⟩

theorem any_tracks (h : E.Around s s') : E.Tracks n Alive s.expression s'.expression := by
  have hs' : s'.expression = s'.expressionIn s.mode 0 := by rw [Surroundings.expression, h.mode]
  rw [hs']
  exact h.expression n s.mode 0

/-- A delimiter is passed in step, also when nothing is left behind it. -/
theorem passes (h : E.Around s s') {c : Char} (hc : c ∉ Grammar.triggers) {r r' r₀ : Reader}
    {b : Bool} (hr : E.Readers r r') (hskip : s.skip r = .ok (b, r₀))
    (hpeek : r₀.cursor.peek? = some c) (hfits : E.Fits r₀.forest) :
    ∃ r₀', s'.skip r' = .ok (b, r₀') ∧ r₀'.cursor.peek? = some c
      ∧ E.Readers (r₀.movedTo r₀.cursor.next) (r₀'.movedTo r₀'.cursor.next) := by
  have halive : Alive r₀.cursor := .of_peek? hpeek hc
  obtain ⟨-, r₀', hskip', hr₀⟩ :=
    (h.skip_tracks (n := 0)).follows hr (Nat.zero_le _) hskip halive hfits
  exact ⟨r₀', hskip', hr₀.cursor.peek? hpeek, hr₀.movedTo (hr₀.cursor.next hpeek)⟩

theorem expectClose_tracks (h : E.Around s s') {closing : Char}
    (hc : closing ∉ Grammar.triggers) (opener opener' : Span) (opening : Char) :
    E.Tracks n Anywhere (s.expectClose opener opening closing)
      (s'.expectClose opener' opening closing) := by
  constructor
  · intro r r₁ u hf
    obtain ⟨b, r₀, hskip, -, rfl⟩ := Surroundings.expectClose_eq_ok_iff.mp hf
    have hgrows := (h.skip_tracks (n := 0)).grows hskip
    exact hgrows
  · intro r r₁ u hf _
    obtain ⟨b, r₀, hskip, hpeek, rfl⟩ := Surroundings.expectClose_eq_ok_iff.mp hf
    exact (h.skip_tracks (n := 0)).steady hskip (.of_peek? hpeek hc)
  · intro r r' r₁ u hr hn hf _ hfits
    obtain ⟨b, r₀, hskip, hpeek, rfl⟩ := Surroundings.expectClose_eq_ok_iff.mp hf
    obtain ⟨r₀', hskip', hpeek', hr₁⟩ := h.passes hc hr hskip hpeek hfits
    exact ⟨nofun, _, Surroundings.expectClose_eq_ok_iff.mpr ⟨b, r₀', hskip', hpeek', rfl⟩, hr₁⟩

/-- An expected character is passed in step. Its span is that of the text in which it stands. -/
theorem expect_bind {β : Type} [Numbered β] {Q : Cursor → Prop} (h : E.Around s s') {c : Char}
    (hc : c ∉ Grammar.triggers) {g g' : Span → Reading β}
    (hg : ∀ span span', E.Tracks n Q (g span) (g' span')) :
    E.Tracks n Q (s.expect c >>= g) (s'.expect c >>= g') := by
  constructor
  · intro r r₂ b hf
    obtain ⟨span, r₁, hexpect, hgr⟩ := bind_eq_ok_iff.mp hf
    obtain ⟨e, r₀, hskip, -, rfl, rfl⟩ := Surroundings.expect_eq_ok_iff.mp hexpect
    have hgrows := (hg _ .none).grows hgr
    exact Nat.le_trans ((h.skip_tracks (n := 0)).grows hskip) hgrows
  · intro r r₂ b hf _
    obtain ⟨span, r₁, hexpect, hgr⟩ := bind_eq_ok_iff.mp hf
    obtain ⟨e, r₀, hskip, hpeek, rfl, rfl⟩ := Surroundings.expect_eq_ok_iff.mp hexpect
    exact (h.skip_tracks (n := 0)).steady hskip (.of_peek? hpeek hc)
  · intro r r' r₂ b hr hn hf hQ hfits
    obtain ⟨span, r₁, hexpect, hgr⟩ := bind_eq_ok_iff.mp hf
    obtain ⟨e, r₀, hskip, hpeek, rfl, rfl⟩ := Surroundings.expect_eq_ok_iff.mp hexpect
    have hgrows := (hg _ .none).grows hgr
    obtain ⟨r₀', hskip', hpeek', hr₁⟩ := h.passes hc hr hskip hpeek (hfits.mono hgrows)
    have hn₀ : n ≤ r₀.forest.size := Nat.le_trans hn ((h.skip_tracks (n := 0)).grows hskip)
    obtain ⟨hb, r₂', hgr', hr₂⟩ := (hg _ r₀'.cursor.peekSpan).follows hr₁ hn₀ hgr hQ hfits
    refine ⟨hb, r₂', ?_, hr₂⟩
    rw [bind_ok (Surroundings.expect_eq_ok_iff.mpr ⟨e, r₀', hskip', hpeek', rfl, rfl⟩), hgr']

theorem items_tracks (h : E.Around s s') {closing : Char} (hc : closing ∉ Grammar.triggers)
    (opener opener' : Span) (opening : Char) {k k' : Nat} (hk : k ≤ k') :
    ∀ {n : Nat} {found : List NodeId}, Numbered.Below n found →
      E.Tracks n Anywhere (s.items opener opening closing k found)
        (s'.items opener' opening closing k' (Numbered.shift E.before.size found)) := by
  induction k generalizing k' with
  | zero =>
      intro n found _
      rw [Surroundings.items]
      exact .of_fails fun r p => fail_ne_ok
  | succ k ih =>
      obtain ⟨k', rfl⟩ : ∃ j, k' = j + 1 := ⟨k' - 1, by omega⟩
      intro n found hfound
      rw [Surroundings.items, Surroundings.items]
      refine h.any_tracks.bind fun m item hm hitem => ?_
      refine h.skip_tracks.bind fun m₁ _ hm₁ _ => ?_
      refine (eat_tracks (by decide)).bind fun m₂ b hm₂ _ => ?_
      have hmore : Numbered.Below m₂ (item :: found) :=
        Numbered.below_cons (hitem.mono (Nat.le_trans hm₁ hm₂))
          (hfound.mono (Nat.le_trans hm (Nat.le_trans hm₁ hm₂)))
      cases b with
      | true => exact ih (Nat.le_of_succ_le_succ hk) hmore
      | false =>
          refine (h.expectClose_tracks hc opener opener' opening).bind_inPlace fun m₃ _ hm₃ _ => ?_
          have hreverse := Numbered.shift_reverse E.before.size (item :: found)
          change E.TracksInPlace m₃ _ (pure (Numbered.shift E.before.size (item :: found)).reverse)
          rw [← hreverse]
          exact .pure (Numbered.below_reverse (hmore.mono hm₃))

theorem delimited_tracks (h : E.Around s s') {closing : Char} (hc : closing ∉ Grammar.triggers)
    (mode : Mode) (opener opener' : Span) (opening : Char) (construct : Construct) :
    E.Tracks n Anywhere (s.delimited mode opener opening closing construct)
      (s'.delimited mode opener' opening closing construct) := by
  refine .within ((h.inside mode).skip_tracks.bind fun m _ _ _ => ?_)
  refine eat_or_tracks hc Numbered.below_nil (.rounds_bind fun k k' hk => ?_)
  exact (h.inside mode).items_tracks hc opener opener' opening hk Numbered.below_nil

theorem condition_tracks (h : E.Around s s') : E.Tracks n Anywhere s.condition s'.condition := by
  refine h.expect_bind (by decide) fun opener opener' => ?_
  refine (h.inside .group).any_tracks.bind fun m cond _ hcond => ?_
  refine ((h.inside .group).expectClose_tracks (by decide) opener opener' '(').bind_inPlace
    fun m₁ _ hm₁ _ => ?_
  exact .pure (hcond.mono hm₁)

theorem statementEnd_tracks {close : Option Char} :
    E.Tracks n Alive (Surroundings.statementEnd close) (Surroundings.statementEnd close) := by
  constructor
  · intro r r₁ muted h
    rcases Surroundings.statementEnd_eq_ok_iff.mp h with ⟨-, -, rfl⟩ | ⟨-, rfl⟩ <;>
      exact Nat.le_refl _
  · intro r r₁ muted h halive
    rcases Surroundings.statementEnd_eq_ok_iff.mp h with ⟨-, -, rfl⟩ | ⟨hpeek, rfl⟩
    · exact halive
    · rcases hpeek with ⟨hpeek, -⟩ | ⟨hpeek, -⟩
      · exact .of_peek? hpeek (by decide)
      · exact .of_next halive hpeek
  · intro r r' r₁ muted hr hn h halive hfits
    rcases Surroundings.statementEnd_eq_ok_iff.mp h with ⟨hstay, rfl, rfl⟩ | ⟨hpeek, rfl⟩
    · refine ⟨nofun, r', Surroundings.statementEnd_eq_ok_iff.mpr (.inl ⟨?_, rfl, rfl⟩), hr⟩
      rw [hr.cursor.peek?_eq halive, hr.afterControlFlow]
      exact hstay
    · rcases hpeek with ⟨hpeek, rfl⟩ | ⟨hpeek, rfl⟩
      · exact ⟨nofun, _, Surroundings.statementEnd_eq_ok_iff.mpr
          (.inr ⟨.inl ⟨hr.cursor.peek? hpeek, rfl⟩, rfl⟩), hr.movedTo (hr.cursor.next hpeek)⟩
      · exact ⟨nofun, _, Surroundings.statementEnd_eq_ok_iff.mpr
          (.inr ⟨.inr ⟨hr.cursor.peek? hpeek, rfl⟩, rfl⟩), hr.movedTo (hr.cursor.next hpeek)⟩

theorem statementList_tracks (h : E.Around s s') {close : Option Char} {k k' : Nat}
    (hk : k ≤ k') :
    ∀ {n : Nat} {found : List Statement}, Numbered.Below n found →
      E.Tracks n Alive (s.statementList close k found)
        (s'.statementList close k' (Numbered.shift E.before.size found)) := by
  induction k generalizing k' with
  | zero =>
      intro n found _
      rw [Surroundings.statementList]
      exact .of_fails fun r p => fail_ne_ok (r := r)
  | succ k ih =>
      obtain ⟨k', rfl⟩ : ∃ j, k' = j + 1 := ⟨k' - 1, by omega⟩
      have hk : k ≤ k' := Nat.le_of_succ_le_succ hk
      intro n found hfound
      have hdone {m : Nat} (hm : n ≤ m) : E.Tracks m Alive (pure found.reverse)
          (pure (Numbered.shift E.before.size found : List Statement).reverse) := by
        rw [← Numbered.shift_reverse]
        exact (TracksInPlace.pure (Numbered.below_reverse (hfound.mono hm))).tracks
      rw [Surroundings.statementList, Surroundings.statementList]
      refine h.skip_tracks.bind fun m _ hm _ => .peek_bind ?_ fun c => ?_
      · intro r r₁ ts hrest hdone
        obtain ⟨-, rfl⟩ := pure_eq_ok_iff.mp hdone
        exact ⟨Nat.le_refl _, fun halive => halive.1 hrest⟩
      · dsimp only
        by_cases hclose : some c == close
        · rw [if_pos hclose, if_pos hclose]
          exact (hdone hm).start
        rw [if_neg hclose, if_neg hclose]
        simp only [Bool.or_eq_true, decide_eq_true_eq]
        by_cases hsep : c = ';' ∨ c = '\n'
        · rw [if_pos hsep, if_pos hsep]
          refine .next_bind (fun _ hpeek => ⟨c, hpeek, ?_⟩) (ih hk (hfound.mono hm))
          exact hsep.imp_left fun hc => by rw [hc]; decide
        rw [if_neg hsep, if_neg hsep]
        refine Tracks.start (.bind h.any_tracks.within fun m₁ root hm₁ hroot => ?_)
        refine h.skip_tracks.bind fun m₂ _ hm₂ _ => ?_
        refine statementEnd_tracks.bind fun m₃ muted hm₃ _ => ?_
        have hmore : Numbered.Below m₃ ((⟨root, muted⟩ : Statement) :: found) :=
          Numbered.below_cons (hroot.mono (Nat.le_trans hm₂ hm₃))
            (hfound.mono (by omega))
        exact ih hk hmore

theorem statements_tracks (h : E.Around s s') (close : Option Char) :
    E.Tracks n Alive (s.statements close) (s'.statements close) :=
  .rounds_bind fun _ _ hk => h.statementList_tracks hk Numbered.below_nil

/-- Passing text without meaning changes nothing but the cursor. -/
theorem skip_moves (h : E.Around s s') {r r₁ : Reader} {b : Bool} (hskip : s.skip r = .ok (b, r₁)) :
    r₁ = r.movedTo r₁.cursor ∧ r₁.cursor.rest.length ≤ r.cursor.rest.length := by
  rw [Surroundings.skip, h.skip] at hskip
  obtain ⟨c, hskips, rfl⟩ := Grammar.skip_eq_ok_iff.mp hskip
  exact ⟨rfl, hskips.length_le⟩

theorem skip_follows (h : E.Around s s') {r r' r₁ : Reader} {b : Bool} (hr : E.Readers r r')
    (halive : Alive r.cursor) (hskip : s.skip r = .ok (b, r₁)) (hfits : E.Fits r.forest) :
    Alive r₁.cursor ∧ ∃ r₁', s'.skip r' = .ok (b, r₁') ∧ E.Readers r₁ r₁' := by
  have hmoved := (h.skip_moves hskip).1
  have halive₁ : Alive r₁.cursor := by
    rw [Surroundings.skip, h.skip] at hskip
    obtain ⟨c, hskips, rfl⟩ := Grammar.skip_eq_ok_iff.mp hskip
    exact (hr.cursor.skips halive hskips).1
  have hfits₁ : E.Fits r₁.forest := by
    rw [hmoved]
    exact hfits
  obtain ⟨-, r₁', hskip', hr₁⟩ :=
    (h.skip_tracks (n := 0)).follows hr (Nat.zero_le _) hskip halive₁ hfits₁
  exact ⟨halive₁, r₁', hskip', hr₁⟩

/-- Passing lines changes nothing but the cursor, and what can be read behind them can be read in
front of them. -/
theorem skipLines_moves (h : E.Around s s') {k : Nat} {r r₁ : Reader} {u : Unit}
    (hf : s.skipLines k r = .ok (u, r₁)) :
    r₁ = r.movedTo r₁.cursor ∧ (Alive r₁.cursor → Alive r.cursor) := by
  induction k generalizing r with
  | zero =>
      obtain ⟨-, rfl⟩ := pure_eq_ok_iff.mp hf
      exact ⟨rfl, id⟩
  | succ k ih =>
      rcases Surroundings.skipLines_eq_ok_iff.mp hf with ⟨hpeek, b, r₂, hskip, hf⟩ | ⟨-, rfl⟩
      · obtain ⟨hr₁, halive⟩ := ih hf
        rw [(h.skip_moves hskip).1] at hr₁
        refine ⟨hr₁, fun hr₁ => ?_⟩
        have hnext := (h.skip_tracks (n := 0)).steady hskip (halive hr₁)
        exact .of_next hnext hpeek
      · exact ⟨rfl, id⟩

theorem skipLines_follows (h : E.Around s s') {k k' : Nat} {r r' r₁ : Reader} {u : Unit}
    (hk : r.cursor.rest.length < k) (hk' : r'.cursor.rest.length < k') (hr : E.Readers r r')
    (halive : Alive r.cursor) (hf : s.skipLines k r = .ok (u, r₁)) (hfits : E.Fits r.forest) :
    Alive r₁.cursor ∧ ∃ r₁', s'.skipLines k' r' = .ok (u, r₁') ∧ E.Readers r₁ r₁' := by
  induction k generalizing k' r r' with
  | zero => omega
  | succ k ih =>
      obtain ⟨k', rfl⟩ : ∃ j, k' = j + 1 := ⟨k' - 1, by omega⟩
      rcases Surroundings.skipLines_eq_ok_iff.mp hf with ⟨hpeek, b, r₂, hskip, hf⟩ | ⟨hpeek, rfl⟩
      · have hnext := hr.cursor.alive_next halive hpeek
        have hpeek' := hr.cursor.peek? hpeek
        have hmoved := hr.movedTo (hr.cursor.next hpeek)
        obtain ⟨halive₂, r₂', hskip', hr₂⟩ := h.skip_follows hmoved hnext hskip hfits
        obtain ⟨hr₂_eq, hlength⟩ := h.skip_moves hskip
        have hlength' : r₂'.cursor.rest.length ≤ r'.cursor.next.rest.length := by
          rw [Surroundings.skip, h.skip'] at hskip'
          obtain ⟨c, hskips, rfl⟩ := Grammar.skip_eq_ok_iff.mp hskip'
          exact hskips.length_le
        have hnext_length := Cursor.next_length hpeek
        have hnext_length' := Cursor.next_length hpeek'
        rw [Reader.movedTo_cursor] at hlength
        have hfits₂ : E.Fits r₂.forest := by
          rw [hr₂_eq]
          exact hfits
        have hk₂ : r₂.cursor.rest.length < k := by omega
        have hk₂' : r₂'.cursor.rest.length < k' := by omega
        obtain ⟨halive₁, r₁', hf', hr₁⟩ := ih hk₂ hk₂' hr₂ halive₂ hf hfits₂
        exact ⟨halive₁, r₁', Surroundings.skipLines_eq_ok_iff.mpr
          (.inl ⟨hpeek', b, r₂', hskip', hf'⟩), hr₁⟩
      · rw [← hr.cursor.peek?_eq halive] at hpeek
        exact ⟨halive, r', Surroundings.skipLines_eq_ok_iff.mpr (.inr ⟨hpeek, rfl⟩), hr⟩

/-- Looking for a word changes nothing but the cursor, which can be read on from where it was. -/
theorem eatWord_moves (h : E.Around s s') {word : List Char}
    (hhead : ∃ x ∈ word.head?, x ∉ Grammar.triggers) {r r₁ : Reader} {b : Bool}
    (hf : s.eatWord word r = .ok (b, r₁)) :
    r₁.forest = r.forest ∧ (Alive r₁.cursor → Alive r.cursor) := by
  obtain ⟨e, r₂, hskip, u, r₃, hlines, hend⟩ := Surroundings.eatWord_eq_ok_iff.mp hf
  have hforest : r₃.forest = r.forest := by
    rw [(h.skipLines_moves hlines).1, (h.skip_moves hskip).1]
    rfl
  rcases hend with ⟨hword, -, rfl⟩ | ⟨-, -, rfl⟩
  · refine ⟨hforest, fun _ => ?_⟩
    obtain ⟨x, hx, htrigger⟩ := hhead
    obtain ⟨rest, hrest⟩ := exists_of_startsWithWord hword
    have hpeek : r₃.cursor.peek? = some x := by
      rw [Cursor.peek?, hrest, List.head?_append, hx]
      rfl
    have halive₂ := (h.skipLines_moves hlines).2 (.of_peek? hpeek htrigger)
    exact (h.skip_tracks (n := 0)).steady hskip halive₂
  · exact ⟨hforest, id⟩

theorem eatWord_tracks (h : E.Around s s') {word : List Char} (hfence : ')' ∉ word)
    (hhead : ∃ x ∈ word.head?, x ∉ Grammar.triggers) :
    E.Tracks n Alive (s.eatWord word) (s'.eatWord word) := by
  constructor
  · intro r r₁ b hf
    rw [(h.eatWord_moves hhead hf).1]
  · intro r r₁ b hf
    exact (h.eatWord_moves hhead hf).2
  · intro r r' r₁ b hr hn hf halive hfits
    have hstart := (h.eatWord_moves hhead hf).2 halive
    rw [(h.eatWord_moves hhead hf).1] at hfits
    obtain ⟨e, r₂, hskip, u, r₃, hlines, hend⟩ := Surroundings.eatWord_eq_ok_iff.mp hf
    have hfits₂ : E.Fits r₂.forest := by
      rw [(h.skip_moves hskip).1]
      exact hfits
    obtain ⟨halive₂, r₂', hskip', hr₂⟩ := h.skip_follows hr hstart hskip hfits
    obtain ⟨halive₃, r₃', hlines', hr₃⟩ := h.skipLines_follows (Nat.lt_succ_self _)
      (Nat.lt_succ_self _) hr₂ halive₂ hlines hfits₂
    obtain ⟨w, hw, hw'⟩ := hr₃.cursor.fence halive₃
    have hsame : startsWithWord word r₃'.cursor.rest = startsWithWord word r₃.cursor.rest := by
      rw [hw, hw', startsWithWord_fence fence_paren hfence,
        startsWithWord_fence fence_paren hfence]
    rcases hend with ⟨hword, rfl, rfl⟩ | ⟨hword, rfl, rfl⟩
    · obtain ⟨rest, hrest⟩ := exists_of_startsWithWord hword
      exact ⟨nofun, _, Surroundings.eatWord_eq_ok_iff.mpr ⟨e, r₂', hskip', u, r₃', hlines',
        .inl ⟨hsame.trans hword, rfl, rfl⟩⟩, hr₃.movedTo (hr₃.cursor.advance hrest)⟩
    · exact ⟨nofun, _, Surroundings.eatWord_eq_ok_iff.mpr ⟨e, r₂', hskip', u, r₃', hlines',
        .inr ⟨hsame.trans hword, rfl, rfl⟩⟩, hr₃.movedTo hr.cursor⟩

end Around

end Embedding

end MatrixScript
