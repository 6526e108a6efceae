import MatrixScript.Proofs.Lines.Lexical

/-!
# Text without meaning at the end of a line

A piece without meaning that is passed in a line is passed when more lines follow, since it ends
before the newline. A piece can only grow if it is a backslash at the very end, which joins the next
line; a line that ends so is not finished.

Passing all newlines as well, as a group does, leads to the next character that means something.
Where that is says whether a line can be taken up by itself: it must not be a dangling backslash,
and unless the line may end there it must not be the end of the text.
-/

namespace MatrixScript

open Transform

/-- A backslash and blanks, which a newline would turn into a continued line. -/
def Dangling (w : List Char) : Prop :=
  ∃ blanks, w = '\\' :: blanks ∧ ∀ x ∈ blanks, isInline x = true

namespace Transform

variable {w tail : List Char} {flags : Flags} {n : Nat}

theorem continuation_eq (x : Char) (w : List Char) :
    continuation (x :: w) flags
      = if (w.dropWhile isInline).head? = some '\n'
        then .elided ((w.takeWhile isInline).length + 2) else .declined := by
  simp only [continuation, List.drop_succ_cons, List.drop_zero, drop_takeWhile_length]

/-- What is passed of a line is passed of a longer text. -/
theorem elided_split {x : Char} {t : Transform} (ht : Grammar.standard.transform? x = some t)
    (hx : w.head? = some x) (hn : t w flags = .elided (n + 1)) :
    ∃ p v, w = p ++ v ∧ n + 1 = byteCount p
      ∧ ∀ tail, EndsLine tail → t (w ++ tail) flags = .elided (n + 1) := by
  obtain ⟨w, rfl⟩ := List.head?_eq_some_iff.mp hx
  rcases Grammar.transform?_eq_some ht with ⟨-, rfl⟩ | ⟨rfl, rfl⟩ | ⟨rfl, rfl⟩ | ⟨rfl, rfl⟩
  · injection hn with hn
    have hsize : byteCount ((x :: w).takeWhile isInline) = ((x :: w).takeWhile isInline).length :=
      byteCount_of_all_isInline fun c hc => List.mem_takeWhile_imp hc
    refine ⟨_, _, List.takeWhile_append_dropWhile.symm, hn.symm.trans hsize.symm,
      fun tail htail => ?_⟩
    rw [whitespace, htail.takeWhile_eq (by decide), hn]
  · refine ⟨['\n'], w, rfl, ?_, fun tail _ => hn⟩
    unfold newline at hn
    split at hn
    · cases hn
    · injection hn with hn
      exact hn.symm
  · rcases w with _ | ⟨b, w⟩
    · cases hn
    · by_cases hline : b = '/'
      · subst hline
        injection hn with hn
        refine ⟨_, _, (List.takeWhile_append_dropWhile (p := (· ≠ '\n'))).symm, hn.symm,
          fun tail htail => ?_⟩
        have htake := htail.takeWhile_eq (w := '/' :: '/' :: w) (p := (· ≠ '\n')) (by decide)
        rw [← hn, ← htake]
        rfl
      · by_cases hblock : b = '*'
        · subst hblock
          cases hbody : commentBody? w with
          | none => simp [comment, hbody] at hn
          | some body =>
              have hbytes : comment ('/' :: '*' :: w) flags = .elided (byteCount body + 4) := by
                simp only [comment, hbody]
              obtain ⟨v, rfl, hall⟩ := commentBody?_eq_some hbody
              rw [hbytes] at hn
              injection hn with hn
              refine ⟨'/' :: '*' :: (body ++ ['*', '/']), v, by simp, ?_, fun tail _ => ?_⟩
              · have hmarks : byteCount ['*', '/'] = 2 ∧ '/'.utf8Size = 1 ∧ '*'.utf8Size = 1 := by
                  decide
                simp only [byteCount_cons, byteCount_append, hmarks]
                omega
              · have hfound := hall (v ++ tail)
                simp only [List.cons_append, List.append_assoc, comment, hfound, ← hn]
        · simp [comment, hline, hblock] at hn
  · rw [continuation_eq] at hn
    split at hn
    · rename_i hhead
      injection hn with hn
      obtain ⟨v, hv⟩ := List.head?_eq_some_iff.mp hhead
      have hw : w = w.takeWhile isInline ++ '\n' :: v := by
        rw [← hv, List.takeWhile_append_dropWhile]
      refine ⟨'\\' :: (w.takeWhile isInline ++ ['\n']), v, by simp [← hw], ?_,
        fun tail htail => ?_⟩
      · have hmarks : byteCount ['\n'] = 1 ∧ '\\'.utf8Size = 1 := by decide
        simp only [byteCount_cons, byteCount_append, hmarks,
          byteCount_of_all_isInline fun c hc => List.mem_takeWhile_imp hc]
        omega
      · rw [List.cons_append, continuation_eq, htail.takeWhile_eq (by decide),
          htail.dropWhile_eq (by decide), hv, ← hn]
        rfl
    · cases hn

/-- A transform that does not apply in a line does not apply there when more lines follow. -/
theorem stays_append {x : Char} {t : Transform} (ht : Grammar.standard.transform? x = some t)
    (hx : w.head? = some x) (h : t w flags = .declined ∨ t w flags = .elided 0)
    (hw : ¬Dangling w) (htail : EndsLine tail) :
    t (w ++ tail) flags = .declined ∨ t (w ++ tail) flags = .elided 0 := by
  obtain ⟨w, rfl⟩ := List.head?_eq_some_iff.mp hx
  rcases Grammar.transform?_eq_some ht with ⟨-, rfl⟩ | ⟨-, rfl⟩ | ⟨rfl, rfl⟩ | ⟨rfl, rfl⟩
  · rwa [whitespace, htail.takeWhile_eq (by decide)]
  · exact h
  · rcases w with _ | ⟨b, w⟩
    · rcases htail with rfl | ⟨u, rfl⟩ <;> exact .inl rfl
    · by_cases hline : b = '/'
      · subst hline
        have hsize : '/'.utf8Size = 1 := rfl
        simp [comment, hsize] at h
      · by_cases hblock : b = '*'
        · subst hblock
          simp only [comment] at h
          cases hbody : commentBody? w <;> rw [hbody] at h <;> simp at h
        · exact .inl (by simp [comment, hline, hblock])
  · rw [continuation_eq] at h
    rw [List.cons_append, continuation_eq, htail.dropWhile_eq (by decide)]
    have hmore : w.dropWhile isInline ≠ [] := fun hnil =>
      hw ⟨w, rfl, List.dropWhile_eq_nil_iff.mp hnil⟩
    rw [head?_append_of_ne_nil hmore]
    split at h
    · rcases h with h | h <;> cases h
    · rename_i hhead
      exact .inl (if_neg hhead)

/-- A dangling backslash is not passed. -/
theorem continuation_of_dangling (h : Dangling w) : continuation w flags = .declined := by
  obtain ⟨blanks, rfl, hblanks⟩ := h
  rw [continuation_eq, List.dropWhile_eq_nil_iff.mpr hblanks]
  rfl

end Transform

/-! ### Where text without meaning ends -/

namespace Grammar

variable {flags : Flags} {b : Bool} {c d e : Cursor}

/-- What is passed in any mode is passed in a group. -/
theorem Skips.group (h : standard.Skips flags b c d) {b' : Bool}
    (h' : standard.Skips Mode.group.flags b' d e) :
    ∃ b', standard.Skips Mode.group.flags b' c e := by
  induction h with
  | stop _ => exact ⟨b', h'⟩
  | pass ht hn _ ih =>
      obtain ⟨b', hgroup⟩ := ih h'
      obtain ⟨x, -, htransform⟩ := Option.bind_eq_some_iff.mp ht
      exact ⟨true, .pass ht (elided_group htransform hn) hgroup⟩

theorem Skips.deterministic {b' : Bool} {d' : Cursor} (h : standard.Skips flags b c d)
    (h' : standard.Skips flags b' c d') : b' = b ∧ d' = d := by
  induction h generalizing b' with
  | stop hsettled => exact h'.eq_of_settled hsettled
  | pass ht hn _ ih =>
      cases h' with
      | stop hsettled => rcases hsettled _ ht with h | h <;> rw [hn] at h <;> cases h
      | pass ht' hn' h' =>
          rw [ht] at ht'
          cases ht'
          rw [hn] at hn'
          cases hn'
          exact ⟨rfl, (ih h').2⟩

theorem newline_of_peek? (hc : c.peek? = some '\n') :
    c.peek?.bind standard.transform? = some newline := by
  rw [hc]
  rfl

theorem advance_newline (hc : c.peek? = some '\n') : c.advance 1 = c.next := by
  obtain ⟨w, hw⟩ := Cursor.rest_of_peek? hc
  have hbytes : byteCount ['\n'] = 1 := by decide
  rw [← hbytes, Cursor.advance_append (p := ['\n']) hw, Cursor.next_cons hw]
  rfl

/-- The next character that means something, newlines being passed, is at the second cursor. -/
def Arrives (c d : Cursor) : Prop := ∃ b, standard.Skips Mode.group.flags b c d

theorem Arrives.of_skips (h : standard.Skips flags b c d) (h' : Arrives d e) : Arrives c e :=
  h.group h'.choose_spec

theorem Arrives.of_next (hc : c.peek? = some '\n') (h : Arrives c.next d) : Arrives c d := by
  have hn : newline c.rest Mode.group.flags = .elided (0 + 1) := rfl
  obtain ⟨b, h⟩ := h
  rw [← advance_newline hc] at h
  exact ⟨true, .pass (newline_of_peek? hc) hn h⟩

theorem arrives_self {x : Char} (hc : c.peek? = some x) (hx : x ∉ triggers) : Arrives c c :=
  ⟨false, .stop (settled_of_peek? _ hc hx)⟩

theorem Arrives.unique (h : Arrives c d) (h' : Arrives c e) : e = d :=
  (h.choose_spec.deterministic h'.choose_spec).2

theorem arrives_of_rest_eq_nil (hc : c.rest = []) : Arrives c c :=
  ⟨false, .stop (settled_of_rest_eq_nil hc)⟩

/-- The next meaning stays the same while text without meaning is passed. -/
theorem Arrives.behind (h : Arrives c e) (hskips : standard.Skips flags b c d) : Arrives d e := by
  induction hskips with
  | stop _ => exact h
  | pass ht hn _ ih =>
      obtain ⟨x, -, htransform⟩ := Option.bind_eq_some_iff.mp ht
      obtain ⟨b, h⟩ := h
      cases h with
      | stop hsettled =>
          rcases hsettled _ ht with h | h <;> rw [elided_group htransform hn] at h <;> cases h
      | pass ht' hn' hmore =>
          rw [ht] at ht'
          cases ht'
          rw [elided_group htransform hn] at hn'
          cases hn'
          exact ih ⟨_, hmore⟩

/-- A dangling backslash stays where it is in any mode. -/
theorem arrives_of_dangling (hc : Dangling c.rest) : Arrives c c := by
  refine ⟨false, .stop fun t ht => ?_⟩
  obtain ⟨blanks, hrest, -⟩ := id hc
  have hslash : standard.transform? '\\' = some continuation := rfl
  rw [Cursor.peek?_cons hrest, Option.bind_some, hslash] at ht
  cases ht
  exact .inl (continuation_of_dangling hc)

/-- Where text without meaning ends, the text goes on with something that can be taken up. Only the
end of a statement may be the end of the text. -/
def Finished (last : Bool) (c : Cursor) : Prop :=
  ∃ d, Arrives c d ∧ ¬Dangling d.rest ∧ (d.rest = [] → last = true)

theorem finished_of_rest_eq_nil (hc : c.rest = []) : Finished true c := by
  refine ⟨c, arrives_of_rest_eq_nil hc, ?_, fun _ => rfl⟩
  rintro ⟨blanks, hblanks, -⟩
  rw [hc] at hblanks
  cases hblanks

theorem Finished.of_skips {last : Bool} (h : standard.Skips flags b c d) (hd : Finished last d) :
    Finished last c := by
  obtain ⟨e, harrives, he⟩ := hd
  exact ⟨e, .of_skips h harrives, he⟩

theorem Finished.behind {last : Bool} (h : Finished last c) (hskips : standard.Skips flags b c d) :
    Finished last d := by
  obtain ⟨e, harrives, he⟩ := h
  exact ⟨e, harrives.behind hskips, he⟩

theorem Finished.mono {last : Bool} (h : Finished false c) : Finished last c := by
  obtain ⟨d, harrives, hdangling, hrest⟩ := h
  exact ⟨d, harrives, hdangling, fun hnil => absurd (hrest hnil) Bool.false_ne_true⟩

theorem Finished.of_next {last : Bool} (hc : c.peek? = some '\n') (h : Finished last c.next) :
    Finished last c := by
  obtain ⟨d, harrives, hd⟩ := h
  exact ⟨d, .of_next hc harrives, hd⟩

theorem finished_of_peek? {last : Bool} {x : Char} (hc : c.peek? = some x) (hx : x ∉ triggers) :
    Finished last c := by
  obtain ⟨w, hw⟩ := Cursor.rest_of_peek? hc
  refine ⟨c, arrives_self hc hx, ?_, fun hnil => ?_⟩
  · rintro ⟨blanks, hblanks, -⟩
    rw [Cursor.peek?_cons hblanks] at hc
    cases hc
    exact hx (by decide)
  · rw [hw] at hnil
    cases hnil

theorem Finished.not_dangling {last : Bool} (h : Finished last c) : ¬Dangling c.rest := by
  intro hdangling
  obtain ⟨d, harrives, hd, -⟩ := h
  rw [(arrives_of_dangling hdangling).unique harrives] at hd
  exact hd hdangling

theorem Finished.last_of_rest {last : Bool} (h : Finished last c) (hc : c.rest = []) :
    last = true := by
  obtain ⟨d, harrives, -, hd⟩ := h
  rw [(arrives_of_rest_eq_nil hc).unique harrives] at hd
  exact hd hc

/-- What stands behind a dangling backslash is not finished. -/
theorem not_finished_of_dangling (h : Dangling c.rest) : ¬Finished false (c.advance 1) := by
  obtain ⟨blanks, hrest, hblanks⟩ := h
  have hbytes : byteCount ['\\'] = 1 := by decide
  have hadvance : (c.advance 1).rest = blanks := by
    rw [← hbytes, Cursor.advance_append (p := ['\\']) hrest]
  intro hfinished
  cases hlength : blanks.length with
  | zero =>
      rw [List.eq_nil_of_length_eq_zero hlength] at hadvance
      exact Bool.false_ne_true (hfinished.last_of_rest hadvance)
  | succ n =>
      obtain ⟨x, more, hmore⟩ := List.exists_cons_of_length_eq_add_one hlength
      have hx : isInline x = true := hblanks x (hmore ▸ List.mem_cons_self)
      have ht : (c.advance 1).peek?.bind standard.transform? = some whitespace := by
        rw [Cursor.peek?_cons (hadvance.trans hmore), Option.bind_some, transform?_of_isInline hx]
      have hn : whitespace (c.advance 1).rest Mode.group.flags = .elided (n + 1) := by
        rw [whitespace, hadvance, List.takeWhile_eq_self_iff.mpr hblanks, hlength]
      have hend : ((c.advance 1).advance (n + 1)).rest = [] := by
        have hsize := byteCount_of_all_isInline hblanks
        rw [← hlength, ← hsize, Cursor.advance_append (p := blanks) (d := [])
          (by rw [hadvance, List.append_nil])]
      have harrives : Arrives (c.advance 1) ((c.advance 1).advance (n + 1)) :=
        ⟨true, .pass ht hn (.stop (settled_of_rest_eq_nil hend))⟩
      obtain ⟨d, harrives', -, hd⟩ := hfinished
      rw [harrives.unique harrives'] at hd
      exact Bool.false_ne_true (hd hend)

/-! ### From one mode to another -/

/-- Only newlines are treated differently from one mode to another. -/
theorem transform_flags {x : Char} {t : Transform} (ht : standard.transform? x = some t)
    (hx : x ≠ '\n') (input : List Char) (flags flags' : Flags) :
    t input flags = t input flags' := by
  rcases transform?_eq_some ht with ⟨-, rfl⟩ | ⟨hline, -⟩ | ⟨-, rfl⟩ | ⟨-, rfl⟩
  · rfl
  · exact absurd hline hx
  · rfl
  · rfl

theorem Settled.change (h : standard.Settled flags c) (hline : c.peek? ≠ some '\n')
    (flags' : Flags) : standard.Settled flags' c := by
  intro t ht
  obtain ⟨x, hx, htransform⟩ := Option.bind_eq_some_iff.mp ht
  have hne : x ≠ '\n' := fun heq => hline (heq ▸ hx)
  rw [transform_flags htransform hne _ flags' flags]
  exact h t ht

theorem Settled.peek?_ne (h : standard.Settled Mode.group.flags c) : c.peek? ≠ some '\n' := by
  intro hc
  rcases h _ (newline_of_peek? hc) with h | h <;> cases h

/-- On the way to the next meaning any mode passes a first part. -/
theorem Arrives.skips (h : Arrives c d) (flags : Flags) :
    ∃ b e, standard.Skips flags b c e ∧ Arrives e d := by
  obtain ⟨b, h⟩ := h
  induction h with
  | stop hsettled =>
      exact ⟨false, _, .stop (hsettled.change hsettled.peek?_ne flags), false, .stop hsettled⟩
  | @pass c d t n more ht hn hmore ih =>
      obtain ⟨b, e, hskips, harrives⟩ := ih
      obtain ⟨x, hx, htransform⟩ := Option.bind_eq_some_iff.mp ht
      by_cases hline : x = '\n'
      · subst hline
        have hnewline := newline_of_peek? hx
        rw [ht] at hnewline
        cases hnewline
        by_cases hflag : flags.newlineSignificant = true
        · refine ⟨false, c, .stop fun t' ht' => ?_, true, .pass ht hn hmore⟩
          rw [ht] at ht'
          cases ht'
          exact .inl (if_pos hflag)
        · have hn' : newline c.rest flags = .elided (n + 1) := (if_neg hflag).trans hn
          exact ⟨true, e, .pass ht hn' hskips, harrives⟩
      · rw [transform_flags htransform hline _ Mode.group.flags flags] at hn
        exact ⟨true, e, .pass ht hn hskips, harrives⟩

theorem Arrives.next (h : Arrives c d) (hc : c.peek? = some '\n') : Arrives c.next d := by
  obtain ⟨b, h⟩ := h
  cases h with
  | stop hsettled => exact absurd hc hsettled.peek?_ne
  | pass ht hn hmore =>
      rw [newline_of_peek? hc] at ht
      cases ht
      cases hn
      rw [Nat.zero_add, advance_newline hc] at hmore
      exact ⟨_, hmore⟩

end Grammar

/-! ### Looking for a word -/

namespace Surroundings

variable {s : Surroundings} {r r₁ : Reader}

/-- Passing the lines behind text without meaning leads to the next meaning. -/
theorem skipLines_eq_ok_iff_arrives (hs : s.skipIn = Grammar.standard.skip) {fuel : Nat} {u : Unit}
    (hfuel : r.cursor.rest.length < fuel)
    (hsettled : Grammar.standard.Settled s.mode.flags r.cursor) :
    s.skipLines fuel r = .ok (u, r₁) ↔
      ∃ d, Grammar.Arrives r.cursor d ∧ r₁ = r.movedTo d := by
  have hskip : s.skip = Grammar.standard.skip s.mode := by rw [skip, hs]
  induction fuel generalizing r with
  | zero => omega
  | succ fuel ih =>
      rw [skipLines_eq_ok_iff]
      by_cases hline : r.cursor.peek? = some '\n'
      · have hlength := Cursor.next_length hline
        simp only [hline, ne_eq, not_true_eq_false, false_and, or_false, true_and]
        constructor
        · rintro ⟨b, r₂, hpassed, hlines⟩
          rw [hskip] at hpassed
          obtain ⟨c, hskips, rfl⟩ := Grammar.skip_eq_ok_iff.mp hpassed
          have hle := hskips.length_le
          rw [Reader.movedTo_cursor] at hle
          have hfuel' : c.rest.length < fuel := by omega
          obtain ⟨d, harrives, rfl⟩ := (ih hfuel' hskips.settled).mp hlines
          exact ⟨d, .of_next hline (.of_skips hskips harrives), rfl⟩
        · rintro ⟨d, harrives, rfl⟩
          obtain ⟨b, c, hskips, hmore⟩ := (harrives.next hline).skips s.mode.flags
          have hle := hskips.length_le
          have hfuel' : (r.movedTo c).cursor.rest.length < fuel := by
            rw [Reader.movedTo_cursor]
            omega
          rw [hskip]
          exact ⟨b, r.movedTo c, Grammar.skip_eq_ok_iff.mpr ⟨c, hskips, rfl⟩,
            (ih hfuel' hskips.settled).mpr ⟨d, hmore, rfl⟩⟩
      · simp only [hline, false_and, ne_eq, not_false_eq_true, true_and, false_or]
        have hself : Grammar.Arrives r.cursor r.cursor := ⟨false, .stop (hsettled.change hline _)⟩
        constructor
        · rintro rfl
          exact ⟨_, hself, rfl⟩
        · rintro ⟨d, harrives, rfl⟩
          rw [hself.unique harrives]
          rfl

/-- A word is looked for where the next meaning is. -/
theorem eatWord_eq_ok_iff_arrives (hs : s.skipIn = Grammar.standard.skip) {word : List Char}
    {b : Bool} :
    s.eatWord word r = .ok (b, r₁) ↔
      ∃ d, Grammar.Arrives r.cursor d
        ∧ (startsWithWord word d.rest = true ∧ b = true
            ∧ r₁ = r.movedTo (d.advance (byteCount word))
          ∨ startsWithWord word d.rest = false ∧ b = false ∧ r₁ = r) := by
  have hskip : s.skip = Grammar.standard.skip s.mode := by rw [skip, hs]
  rw [eatWord_eq_ok_iff, hskip]
  constructor
  · rintro ⟨e, r₂, hpassed, u, r₃, hlines, hend⟩
    obtain ⟨c, hskips, rfl⟩ := Grammar.skip_eq_ok_iff.mp hpassed
    obtain ⟨d, harrives, rfl⟩ :=
      (skipLines_eq_ok_iff_arrives hs (Nat.lt_succ_self _) hskips.settled).mp hlines
    exact ⟨d, .of_skips hskips harrives, hend⟩
  · rintro ⟨d, harrives, hend⟩
    obtain ⟨e, c, hskips, hmore⟩ := harrives.skips s.mode.flags
    exact ⟨e, r.movedTo c, Grammar.skip_eq_ok_iff.mpr ⟨c, hskips, rfl⟩, (), r.movedTo d,
      (skipLines_eq_ok_iff_arrives hs (Nat.lt_succ_self _) hskips.settled).mpr ⟨d, hmore, rfl⟩,
      hend⟩

end Surroundings

end MatrixScript
