import MatrixScript.Proofs.Lines.Trivia

/-!
# Compact texts

A text is compact if it holds no comment and, outside of brackets and text literals, no blank, comma
or semicolon. Whether a character stands outside is found by scanning what is in front of it, so
compactness is carried along: a text that is left behind brackets which are still open is compact at
their depth.

Text without meaning in a compact text is made of blanks, newlines and backslashes only. At depth
zero there is none at all.
-/

namespace MatrixScript

open Transform

/-- Where a scan stands: behind so many open brackets, there in a text literal, or there behind a
backslash in one. -/
inductive Scan where
  | code (depth : Nat)
  | text (depth : Nat)
  | escape (depth : Nat)

def Scan.next : Scan → Char → Scan
  | code depth, c =>
    if c = '"' then text depth
    else if c ∈ ['(', '[', '\x7b'] then code (depth + 1)
    else if c ∈ [')', ']', '\x7d'] then code (depth - 1)
    else code depth
  | text depth, c => if c = '"' then code depth else if c = '\\' then escape depth else text depth
  | escape depth, _ => text depth

/-- Whether a comment of either kind stands at the start. -/
def startsComment : List Char → Bool
  | '/' :: c :: _ => c == '/' || c == '*'
  | _ => false

/-- Blanks and the marks between columns and rows. -/
def isSeparator (c : Char) : Bool := isBlank c || c == ',' || c == ';'

/-- Nowhere a comment, and no separator that is outside of brackets and text literals. -/
def Compact : Scan → List Char → Prop
  | _, [] => True
  | .code depth, c :: cs =>
    startsComment (c :: cs) = false ∧ (depth = 0 → isSeparator c = false)
      ∧ Compact ((Scan.code depth).next c) cs
  | .text depth, c :: cs => Compact ((Scan.text depth).next c) cs
  | .escape depth, c :: cs => Compact ((Scan.escape depth).next c) cs

instance Compact.decidable : (s : Scan) → (cs : List Char) → Decidable (Compact s cs)
  | .code _, [] | .text _, [] | .escape _, [] => .isTrue trivial
  | .code depth, c :: cs =>
    have := decidable ((Scan.code depth).next c) cs
    inferInstanceAs (Decidable (_ ∧ _ ∧ _))
  | .text depth, c :: cs => decidable ((Scan.text depth).next c) cs
  | .escape depth, c :: cs => decidable ((Scan.escape depth).next c) cs

/-- What opens or closes something, a text literal included. -/
def delimiters : List Char := ['"', '(', '[', '\x7b', ')', ']', '\x7d']

theorem Scan.next_of_not_mem {c : Char} (hc : c ∉ delimiters) (depth : Nat) :
    (code depth).next c = code depth := by
  simp only [delimiters, List.mem_cons, List.not_mem_nil, or_false, not_or] at hc
  obtain ⟨hquote, hparen, hbracket, hbrace, hparen', hbracket', hbrace'⟩ := hc
  simp [next, hquote, hparen, hbracket, hbrace, hparen', hbracket', hbrace']

namespace Compact

variable {s : Scan} {depth : Nat} {c : Char} {cs p w : List Char} {flags : Flags} {b : Bool}

theorem next (h : Compact s (c :: cs)) : Compact (s.next c) cs := by
  cases s with
  | code depth => exact h.2.2
  | text depth => exact h
  | escape depth => exact h

theorem no_comment (h : Compact (.code depth) cs) : startsComment cs = false := by
  cases cs with
  | nil => rfl
  | cons c cs => exact h.1

/-- Passing what neither opens nor closes anything. -/
theorem pass (h : Compact (.code depth) (p ++ w)) (hp : ∀ c ∈ p, c ∉ delimiters) :
    Compact (.code depth) w := by
  induction p with
  | nil => exact h
  | cons c p ih =>
      obtain ⟨hc, hp⟩ := List.forall_mem_cons.mp hp
      have hnext := next h
      rw [Scan.next_of_not_mem hc] at hnext
      exact ih hnext hp

/-- Behind a text literal the scan stands where it stood in front of it. -/
theorem textBody {body after : List Char} (h : Compact (.text depth) cs)
    (hbody : Form.textBody? cs = some (body, after)) : Compact (.code depth) after := by
  fun_induction Form.textBody? cs generalizing body with
  | case1 => cases hbody
  | case2 rest =>
      cases hbody
      exact h
  | case3 => cases hbody
  | case4 c rest ih =>
      obtain ⟨⟨body', after'⟩, hrest, hsome⟩ := Option.map_eq_some_iff.mp hbody
      cases hsome
      exact ih h hrest
  | case5 c rest hquote hend hescape ih =>
      obtain ⟨⟨body', after'⟩, hrest, hsome⟩ := Option.map_eq_some_iff.mp hbody
      cases hsome
      have hslash : c ≠ '\\' := by
        rintro rfl
        cases rest with
        | nil => cases hrest
        | cons d rest => exact hescape d rest rfl rfl
      have hstays : (Scan.text depth).next c = .text depth := by
        rw [Scan.next, if_neg hquote, if_neg hslash]
      have hnext := next h
      rw [hstays] at hnext
      exact ih hnext hrest

/-- A character at the end starts no comment, and brackets may stand anywhere. -/
theorem concat (h : Compact s cs) : Compact s (cs ++ [']']) := by
  induction cs generalizing s with
  | nil =>
      cases s with
      | code depth => exact ⟨rfl, fun _ => rfl, trivial⟩
      | text depth => trivial
      | escape depth => trivial
  | cons c cs ih =>
      have hnext := ih (next h)
      cases s with
      | code depth =>
          refine ⟨?_, h.2.1, hnext⟩
          have hcomment := h.1
          cases cs with
          | nil =>
              by_cases hc : c = '/'
              · subst hc
                rfl
              · simp [startsComment, hc]
          | cons d cs =>
              by_cases hc : c = '/'
              · subst hc
                exact hcomment
              · simp [startsComment, hc]
      | text depth => exact hnext
      | escape depth => exact hnext

end Compact

/-! ### Text without meaning -/

/-- What text without meaning is made of, comments apart. -/
def fillers : List Char := [' ', '\t', '\r', '\n', '\\']

theorem not_mem_delimiters_of_filler {c : Char} (hc : c ∈ fillers) : c ∉ delimiters := by
  revert c
  decide

theorem filler_of_isInline {c : Char} (hc : isInline c = true) : c ∈ fillers := by
  have hcases : c = ' ' ∨ c = '\t' ∨ c = '\r' := by simpa [isInline, or_assoc] using hc
  rcases hcases with rfl | rfl | rfl <;> decide

theorem isSeparator_of_isInline {c : Char} (hc : isInline c = true) : isSeparator c = true := by
  have hcases : c = ' ' ∨ c = '\t' ∨ c = '\r' := by simpa [isInline, or_assoc] using hc
  rcases hcases with rfl | rfl | rfl <;> decide

/-- A piece at the start that is made of fillers, and for which what stands behind the character
after it does not matter. -/
def IsPiece (t : Transform) (flags : Flags) (w : List Char) (n : Nat) : Prop :=
  ∃ p v, w = p ++ v ∧ n = byteCount p ∧ (∀ c ∈ p, c ∈ fillers)
    ∧ ∀ y v', v = y :: v' → ∀ u, t (p ++ y :: u) flags = .elided n

theorem whitespace_piece {w : List Char} {flags : Flags} {n : Nat}
    (hn : whitespace w flags = .elided n) : IsPiece whitespace flags w n := by
  injection hn with hn
  have hinline : ∀ c ∈ w.takeWhile isInline, isInline c = true :=
    fun c hc => List.mem_takeWhile_imp hc
  refine ⟨_, _, List.takeWhile_append_dropWhile.symm, ?_, fun c hc => filler_of_isInline
    (hinline c hc), fun y v' hv u => ?_⟩
  · rw [byteCount_of_all_isInline hinline, hn]
  · have hy : isInline y = false := by
      have hhead := List.head?_dropWhile_not isInline w
      rw [hv] at hhead
      simpa using hhead
    rw [whitespace, takeWhile_fence hy, List.takeWhile_eq_self_iff.mpr hinline, hn]

theorem newline_piece {w : List Char} {flags : Flags} {n : Nat}
    (hn : newline ('\n' :: w) flags = .elided n) : IsPiece newline flags ('\n' :: w) n := by
  refine ⟨['\n'], w, rfl, ?_, fun c hc => ?_, fun y v' _ u => hn⟩
  · unfold newline at hn
    split at hn
    · cases hn
    · injection hn with hn
      exact hn.symm
  · rw [List.mem_singleton.mp hc]
    decide

/-- A backslash joins two lines, whatever the second one starts with. -/
theorem continuation_piece {w : List Char} {flags : Flags} {n : Nat}
    (hn : continuation ('\\' :: w) flags = .elided n) :
    IsPiece continuation flags ('\\' :: w) n := by
  rw [continuation_eq] at hn
  split at hn
  · rename_i hhead
    injection hn with hn
    obtain ⟨v, hv⟩ := List.head?_eq_some_iff.mp hhead
    have hw : w = w.takeWhile isInline ++ '\n' :: v := by
      rw [← hv, List.takeWhile_append_dropWhile]
    have hinline : ∀ c ∈ w.takeWhile isInline, isInline c = true :=
      fun c hc => List.mem_takeWhile_imp hc
    refine ⟨'\\' :: (w.takeWhile isInline ++ ['\n']), v, by simp [← hw], ?_, ?_,
      fun y v' _ u => ?_⟩
    · have hmarks : byteCount ['\n'] = 1 ∧ '\\'.utf8Size = 1 := by decide
      simp only [byteCount_cons, byteCount_append, hmarks, byteCount_of_all_isInline hinline]
      omega
    · intro c hc
      simp only [List.mem_cons, List.mem_append, List.not_mem_nil, or_false] at hc
      rcases hc with rfl | hc | rfl
      · decide
      · exact filler_of_isInline (hinline c hc)
      · decide
    · have hline : isInline '\n' = false := by decide
      have htake : (w.takeWhile isInline ++ '\n' :: (y :: u)).takeWhile isInline
          = w.takeWhile isInline := by
        rw [takeWhile_fence hline, List.takeWhile_eq_self_iff.mpr hinline]
      have hdrop : ((w.takeWhile isInline ++ '\n' :: (y :: u)).dropWhile isInline).head?
          = some '\n' := by
        rw [dropWhile_fence hline, List.dropWhile_eq_nil_iff.mpr hinline]
        rfl
      have happend : '\\' :: (w.takeWhile isInline ++ ['\n']) ++ y :: u
          = '\\' :: (w.takeWhile isInline ++ '\n' :: (y :: u)) := by simp
      rw [happend, continuation_eq, hdrop, if_pos rfl, htake, hn]
  · cases hn

/-- Whatever is passed and is no comment is such a piece. -/
theorem Transform.elided_piece {w : List Char} {flags : Flags} {n : Nat} {x : Char} {t : Transform}
    (ht : Grammar.standard.transform? x = some t) (hx : w.head? = some x)
    (hn : t w flags = .elided (n + 1)) (hcomment : startsComment w = false) :
    IsPiece t flags w (n + 1) := by
  obtain ⟨w, rfl⟩ := List.head?_eq_some_iff.mp hx
  rcases Grammar.transform?_eq_some ht with ⟨-, rfl⟩ | ⟨rfl, rfl⟩ | ⟨rfl, rfl⟩ | ⟨rfl, rfl⟩
  · exact whitespace_piece hn
  · exact newline_piece hn
  · exfalso
    rcases w with _ | ⟨b, w⟩
    · cases hn
    · have hmarks : b ≠ '/' ∧ b ≠ '*' := by simpa [startsComment] using hcomment
      simp [comment, hmarks.1, hmarks.2] at hn
  · exact continuation_piece hn

namespace Compact

variable {depth : Nat} {cs : List Char} {flags : Flags} {b : Bool} {c d : Cursor}

/-- What is passed between two cursors of a compact text is made of fillers. -/
theorem skips (h : Compact (.code depth) c.rest) (hskips : Grammar.standard.Skips flags b c d) :
    Compact (.code depth) d.rest ∧ ∃ p, c.rest = p ++ d.rest ∧ ∀ x ∈ p, x ∈ fillers := by
  induction hskips with
  | stop _ => exact ⟨h, [], rfl, List.forall_mem_nil _⟩
  | @pass c d t n _ ht hn _ ih =>
      obtain ⟨x, hx, htransform⟩ := Option.bind_eq_some_iff.mp ht
      obtain ⟨p, v, hw, hbytes, hp, -⟩ := elided_piece htransform hx hn h.no_comment
      have hv : (c.advance (n + 1)).rest = v := by rw [hbytes, Cursor.advance_append hw]
      have hpass := h
      rw [hw] at hpass
      have hmore := ih (hv ▸ hpass.pass fun x hx => not_mem_delimiters_of_filler (hp x hx))
      obtain ⟨hd, q, hq, hfillers⟩ := hmore
      refine ⟨hd, p ++ q, ?_, fun x hx => ?_⟩
      · rw [hw, ← hv, hq, List.append_assoc]
      · exact (List.mem_append.mp hx).elim (hp x) (hfillers x)

theorem isSeparator_of_peek? (h : Compact (.code 0) c.rest) {x : Char} (hx : c.peek? = some x) :
    isSeparator x = false := by
  obtain ⟨w, hw⟩ := Cursor.rest_of_peek? hx
  rw [hw] at h
  exact h.2.1 rfl

/-- Outside of brackets nothing without meaning is found. -/
theorem settled (h : Compact (.code 0) c.rest) (flags : Flags) :
    Grammar.standard.Settled flags c := by
  intro t ht
  obtain ⟨x, hx, htransform⟩ := Option.bind_eq_some_iff.mp ht
  have hseparator := h.isSeparator_of_peek? hx
  obtain ⟨w, hw⟩ := Cursor.rest_of_peek? hx
  rw [hw] at h ⊢
  rcases Grammar.transform?_eq_some htransform with ⟨hinline, -⟩ | ⟨rfl, -⟩ | ⟨rfl, rfl⟩
    | ⟨rfl, rfl⟩
  · rw [isSeparator_of_isInline hinline] at hseparator
    cases hseparator
  · cases hseparator
  · left
    rcases w with _ | ⟨a, w⟩
    · rfl
    · have hmarks : a ≠ '/' ∧ a ≠ '*' := by simpa [startsComment] using h.no_comment
      simp [comment, hmarks.1, hmarks.2]
  · left
    rw [continuation_eq, if_neg]
    intro hhead
    rcases w with _ | ⟨a, w⟩
    · cases hhead
    · have hnext := h.next
      rw [Scan.next_of_not_mem (by decide)] at hnext
      have ha : isSeparator a = false := hnext.2.1 rfl
      have hinline : isInline a = false := by
        rw [Bool.eq_false_iff]
        intro hinline
        rw [isSeparator_of_isInline hinline] at ha
        cases ha
      rw [List.dropWhile_cons_of_neg (by simp [hinline])] at hhead
      cases hhead
      cases ha

end Compact

end MatrixScript
