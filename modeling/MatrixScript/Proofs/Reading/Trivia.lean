import MatrixScript.Proofs.Reading.Steps
import MatrixScript.Grammar.Standard

/-!
# Passing over text without meaning

The loop over the transforms is given its meaning as a relation: it leads from one cursor to
another, one elided piece at a time, and stops where no transform applies. Each piece has at least
one character, so the fuel that the loop is given always suffices.

Only blanks, newlines, slashes and backslashes can start text without meaning, and only newlines are
treated differently from one mode to another.
-/

namespace MatrixScript

theorem dropBytes_length_le (n : Nat) (cs : List Char) : (dropBytes n cs).length ≤ cs.length := by
  induction cs generalizing n with
  | nil => cases n <;> simp [dropBytes]
  | cons c cs ih =>
      cases n with
      | zero => simp [dropBytes]
      | succ n =>
          rw [dropBytes, List.length_cons]
          exact Nat.le_succ_of_le (ih _)

theorem dropBytes_length_lt {n : Nat} {c : Char} {cs : List Char} :
    (dropBytes (n + 1) (c :: cs)).length < (c :: cs).length := by
  rw [dropBytes, List.length_cons]
  exact Nat.lt_succ_of_le (dropBytes_length_le _ cs)

namespace Grammar

/-- No transform applies at the cursor. -/
def Settled (g : Grammar) (flags : Flags) (c : Cursor) : Prop :=
  ∀ t, c.peek?.bind g.transform? = some t →
    t c.rest flags = .declined ∨ t c.rest flags = .elided 0

/-- Passing over text without meaning leads from the first cursor to the second. The flag says
whether there was any. -/
inductive Skips (g : Grammar) (flags : Flags) : Bool → Cursor → Cursor → Prop where
  | stop {c : Cursor} : g.Settled flags c → Skips g flags false c c
  | pass {c d : Cursor} {t : Transform} {n : Nat} {more : Bool} :
      c.peek?.bind g.transform? = some t → t c.rest flags = .elided (n + 1) →
      Skips g flags more (c.advance (n + 1)) d → Skips g flags true c d

variable {g : Grammar} {flags : Flags} {c d : Cursor}

theorem Skips.settled {b : Bool} (h : g.Skips flags b c d) : g.Settled flags d := by
  induction h with
  | stop hsettled => exact hsettled
  | pass _ _ _ ih => exact ih

theorem Skips.length_le {b : Bool} (h : g.Skips flags b c d) : d.rest.length ≤ c.rest.length := by
  induction h with
  | stop _ => exact Nat.le_refl _
  | pass _ _ _ ih => exact Nat.le_trans ih (dropBytes_length_le _ _)

theorem Skips.eq_of_settled {b : Bool} (h : g.Skips flags b c d) (hc : g.Settled flags c) :
    b = false ∧ d = c := by
  cases h with
  | stop _ => exact ⟨rfl, rfl⟩
  | pass ht hn _ =>
      rcases hc _ ht with h | h <;> rw [hn] at h <;> cases h

theorem settled_of_rest_eq_nil (hc : c.rest = []) : g.Settled flags c := by
  intro t ht
  rw [Cursor.peek?, hc] at ht
  cases ht

theorem elide_eq_ok_iff {n : Nat} {b e : Bool} (hn : c.rest.length ≤ n) :
    g.elide flags n b c = .ok (e, d) ↔ ∃ more, g.Skips flags more c d ∧ e = (b || more) := by
  induction n generalizing b c with
  | zero =>
      have hsettled : g.Settled flags c :=
        settled_of_rest_eq_nil (List.eq_nil_of_length_eq_zero (Nat.le_zero.mp hn))
      rw [elide]
      constructor
      · intro h
        cases h
        exact ⟨false, .stop hsettled, by simp⟩
      · rintro ⟨more, hskips, rfl⟩
        obtain ⟨rfl, rfl⟩ := hskips.eq_of_settled hsettled
        simp
  | succ n ih =>
      have hstop (hsettled : g.Settled flags c) :
          Except.ok (b, c) = (.ok (e, d) : Except ParseError (Bool × Cursor)) ↔
            ∃ more, g.Skips flags more c d ∧ e = (b || more) := by
        constructor
        · intro h
          cases h
          exact ⟨false, .stop hsettled, by simp⟩
        · rintro ⟨more, hskips, rfl⟩
          obtain ⟨rfl, rfl⟩ := hskips.eq_of_settled hsettled
          simp
      rw [elide]
      cases ht : c.peek?.bind g.transform? with
      | none =>
          refine hstop fun t h => ?_
          rw [ht] at h
          cases h
      | some t =>
          simp only
          cases he : t c.rest flags with
          | declined =>
              refine hstop fun t' h => ?_
              rw [ht] at h
              cases h
              exact .inl he
          | unterminated what =>
              refine ⟨nofun, ?_⟩
              rintro ⟨more, hskips, -⟩
              cases hskips with
              | stop hsettled => rcases hsettled t ht with h | h <;> rw [he] at h <;> cases h
              | pass ht' hn' _ =>
                  rw [ht] at ht'
                  cases ht'
                  rw [he] at hn'
                  cases hn'
          | elided m =>
              cases m with
              | zero =>
                  refine hstop fun t' h => ?_
                  rw [ht] at h
                  cases h
                  exact .inr he
              | succ m =>
                  have hlength : (c.advance (m + 1)).rest.length ≤ n := by
                    cases hrest : c.rest with
                    | nil =>
                        rw [Cursor.peek?, hrest] at ht
                        cases ht
                    | cons x xs =>
                        have hlt : (dropBytes (m + 1) (x :: xs)).length < (x :: xs).length :=
                          dropBytes_length_lt
                        simp only [Cursor.advance, hrest] at hn ⊢
                        omega
                  rw [ih hlength]
                  constructor
                  · rintro ⟨more, hskips, rfl⟩
                    exact ⟨true, .pass ht he hskips, by simp⟩
                  · rintro ⟨more, hskips, rfl⟩
                    cases hskips with
                    | stop hsettled =>
                        rcases hsettled t ht with h | h <;> rw [he] at h <;> cases h
                    | pass ht' hn' hskips =>
                        rw [ht] at ht'
                        cases ht'
                        rw [he] at hn'
                        cases hn'
                        exact ⟨_, hskips, by simp⟩

theorem skip_eq_ok_iff {mode : Mode} {r r₁ : Reader} {elided : Bool} :
    g.skip mode r = .ok (elided, r₁) ↔
      ∃ c, g.Skips mode.flags elided r.cursor c ∧ r₁ = r.movedTo c := by
  have hskips (c : Cursor) : g.elide mode.flags r.cursor.rest.length false r.cursor
      = .ok (elided, c) ↔ g.Skips mode.flags elided r.cursor c := by
    rw [elide_eq_ok_iff (Nat.le_refl _)]
    simp
  simp only [← hskips]
  unfold skip
  rw [Reading.step_eq, Reading.cursor_bind]
  cases g.elide mode.flags r.cursor.rest.length false r.cursor with
  | error e =>
      constructor
      · nofun
      · rintro ⟨c, ⟨⟩, -⟩
  | ok p =>
      constructor
      · intro h
        cases h
        exact ⟨p.2, rfl, rfl⟩
      · rintro ⟨c, h, rfl⟩
        cases h
        rfl

end Grammar

/-! ### The standard grammar -/

namespace Grammar

open Transform

theorem transform?_eq_some {x : Char} {t : Transform} (h : standard.transform? x = some t) :
    isInline x = true ∧ t = whitespace ∨ x = '\n' ∧ t = newline
      ∨ x = '/' ∧ t = comment ∨ x = '\\' ∧ t = continuation := by
  obtain ⟨p, hfind, rfl⟩ := Option.map_eq_some_iff.mp h
  have hmem : p ∈ Transform.standard := List.mem_of_find?_eq_some hfind
  have hx : p.1 = x := by simpa using List.find?_some hfind
  simp only [Transform.standard, List.mem_cons, List.not_mem_nil, or_false] at hmem
  rcases hmem with rfl | rfl | rfl | rfl | rfl | rfl <;> subst hx <;> simp [isInline]

theorem transform?_of_isInline {x : Char} (h : isInline x = true) :
    standard.transform? x = some whitespace := by
  have hx : x = ' ' ∨ x = '\t' ∨ x = '\r' := by simpa [isInline, or_assoc] using h
  rcases hx with rfl | rfl | rfl <;> rfl

/-- The characters at which text without meaning can start. -/
def triggers : List Char := [' ', '\t', '\r', '\n', '/', '\\']

theorem transform?_eq_none {x : Char} (hx : x ∉ triggers) : standard.transform? x = none := by
  cases ht : standard.transform? x with
  | none => rfl
  | some t =>
      exfalso
      apply hx
      rcases transform?_eq_some ht with ⟨hinline, -⟩ | ⟨rfl, -⟩ | ⟨rfl, -⟩ | ⟨rfl, -⟩
      · have hx : x = ' ' ∨ x = '\t' ∨ x = '\r' := by simpa [isInline, or_assoc] using hinline
        rcases hx with rfl | rfl | rfl <;> decide
      · decide
      · decide
      · decide

theorem settled_of_peek? (flags : Flags) {c : Cursor} {x : Char} (hc : c.peek? = some x)
    (hx : x ∉ triggers) : standard.Settled flags c := by
  intro t ht
  rw [hc, Option.bind_some, transform?_eq_none hx] at ht
  cases ht

/-- What is elided where newlines mean something is elided where they mean nothing. -/
theorem elided_group {x : Char} {t : Transform} {input : List Char} {flags : Flags} {n : Nat}
    (ht : standard.transform? x = some t) (hn : t input flags = .elided (n + 1)) :
    t input Mode.group.flags = .elided (n + 1) := by
  rcases transform?_eq_some ht with ⟨-, rfl⟩ | ⟨-, rfl⟩ | ⟨-, rfl⟩ | ⟨-, rfl⟩
  · exact hn
  · by_cases hflag : flags.newlineSignificant = true
    · rw [newline, if_pos hflag] at hn
      cases hn
    · rw [newline, if_neg hflag] at hn
      exact hn
  · exact hn
  · exact hn

/-- Conversely, only a newline is elided in a group and can stay elsewhere. -/
theorem elided_of_group {x : Char} {t : Transform} {input : List Char} {n : Nat} (flags : Flags)
    (ht : standard.transform? x = some t) (hn : t input Mode.group.flags = .elided (n + 1)) :
    t input flags = .elided (n + 1) ∨ x = '\n' := by
  rcases transform?_eq_some ht with ⟨-, rfl⟩ | ⟨rfl, -⟩ | ⟨-, rfl⟩ | ⟨-, rfl⟩
  · exact .inl hn
  · exact .inr rfl
  · exact .inl hn
  · exact .inl hn

end Grammar

end MatrixScript
