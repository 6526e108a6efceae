import MatrixScript.Proofs.Embedded.Lexical
import MatrixScript.Proofs.Reading.Trivia
import Mathlib.Data.List.TakeWhile

/-!
# Text without meaning in front of a closing parenthesis

A piece without meaning ends before the parenthesis, whatever stands behind that, with one
exception: a comment to the end of the line takes the parenthesis with it. Nothing is left to read
then, and a reading that still needs its parenthesis fails.
-/

namespace MatrixScript

open Transform

theorem byteCount_of_all_isInline {cs : List Char} (h : ∀ c ∈ cs, isInline c = true) :
    byteCount cs = cs.length := by
  induction cs with
  | nil => rfl
  | cons c cs ih =>
      have hc : c = ' ' ∨ c = '\t' ∨ c = '\r' := by
        simpa [isInline, or_assoc] using h c List.mem_cons_self
      have hsize : c.utf8Size = 1 := by rcases hc with rfl | rfl | rfl <;> rfl
      rw [byteCount_cons, hsize, ih fun d hd => h d (List.mem_cons_of_mem c hd), List.length_cons,
        Nat.add_comm]

theorem fence_split {p d w : List Char} (h : p ++ d = w ++ [')']) (hd : d ≠ []) :
    ∃ v, d = v ++ [')'] ∧ w = p ++ v := by
  obtain ⟨v, c, rfl⟩ := List.eq_nil_or_concat d |>.resolve_left hd
  rw [List.concat_eq_append, ← List.append_assoc] at h
  obtain ⟨rfl, hc⟩ := List.append_inj' h rfl
  cases hc
  exact ⟨v, List.concat_eq_append, rfl⟩

theorem drop_takeWhile_length {p : Char → Bool} (w : List Char) :
    w.drop (w.takeWhile p).length = w.dropWhile p := by
  induction w with
  | nil => rfl
  | cons a w ih => by_cases ha : p a <;> simp [ha, ih]

theorem takeWhile_line {w z : List Char} (h : '\n' ∈ w) :
    (w ++ z).takeWhile (· ≠ '\n') = w.takeWhile (· ≠ '\n') := by
  induction w with
  | nil => cases h
  | cons a w ih =>
      by_cases ha : a = '\n'
      · simp [ha]
      · have hw : '\n' ∈ w := (List.mem_cons.mp h).resolve_left (Ne.symm ha)
        simp only [List.cons_append, List.takeWhile_cons, ih hw]

namespace Transform

variable {w : List Char} {flags : Flags} {n : Nat}

/-- The first part of a text that a transform elides, whatever stands behind the parenthesis. -/
def ElidesBefore (t : Transform) (flags : Flags) (w : List Char) (n : Nat) : Prop :=
  ∃ p v, w = p ++ v ∧ n + 1 = byteCount p ∧ ∀ u, t (w ++ ')' :: u) flags = .elided (n + 1)

theorem whitespace_fence (hn : whitespace (w ++ [')']) flags = .elided (n + 1)) :
    whitespace.ElidesBefore flags w n := by
  have hinline : isInline ')' = false := by decide
  rw [whitespace, takeWhile_fence hinline] at hn
  injection hn with hn
  refine ⟨w.takeWhile isInline, w.dropWhile isInline, List.takeWhile_append_dropWhile.symm, ?_, ?_⟩
  · rw [byteCount_of_all_isInline fun c hc => List.mem_takeWhile_imp hc, hn]
  · intro u
    rw [whitespace, takeWhile_fence hinline, hn]

theorem newline_fence (hn : newline ('\n' :: w ++ [')']) flags = .elided (n + 1)) :
    newline.ElidesBefore flags ('\n' :: w) n := by
  refine ⟨['\n'], w, rfl, ?_, fun u => hn⟩
  unfold newline at hn
  split at hn
  · cases hn
  · injection hn with hn
    exact hn.symm

theorem lineComment_fence (hn : comment ('/' :: '/' :: w ++ [')']) flags = .elided (n + 1))
    (hline : '\n' ∈ w) : comment.ElidesBefore flags ('/' :: '/' :: w) n := by
  have htake (z : List Char) : ('/' :: '/' :: w ++ z).takeWhile (· ≠ '\n')
      = '/' :: '/' :: w.takeWhile (· ≠ '\n') := by
    have hmem : '\n' ∈ '/' :: '/' :: w := by simp [hline]
    rw [takeWhile_line hmem]
    rfl
  have helide (z : List Char) : comment ('/' :: '/' :: w ++ z) flags
      = .elided (byteCount ('/' :: '/' :: w.takeWhile (· ≠ '\n'))) := by
    rw [← htake z]
    rfl
  rw [helide] at hn
  injection hn with hn
  refine ⟨'/' :: '/' :: w.takeWhile (· ≠ '\n'), w.dropWhile (· ≠ '\n'), ?_, hn.symm, fun u => ?_⟩
  · simp
  · rw [helide, hn]

theorem blockComment_fence (hn : comment ('/' :: '*' :: w ++ [')']) flags = .elided (n + 1)) :
    comment.ElidesBefore flags ('/' :: '*' :: w) n := by
  have helide (z : List Char) : comment ('/' :: '*' :: w ++ z) flags
      = (commentBody? (w ++ z)).elim (.unterminated "block comment")
        fun body => .elided (byteCount body + 4) := by
    simp only [List.cons_append, comment]
    cases commentBody? (w ++ z) <;> rfl
  rw [helide] at hn
  cases hbody : commentBody? (w ++ [')']) with
  | none =>
      rw [hbody] at hn
      cases hn
  | some body =>
      rw [hbody] at hn
      injection hn with hn
      obtain ⟨v, hw, hall⟩ := commentBody?_eq_some hbody
      have hv : v ≠ [] := by
        rintro rfl
        have hlast := congrArg List.getLast? hw
        simp at hlast
      have hsplit : (body ++ ['*', '/']) ++ v = w ++ [')'] := by simp [hw]
      obtain ⟨v, rfl, rfl⟩ := fence_split hsplit hv
      refine ⟨'/' :: '*' :: (body ++ ['*', '/']), v, rfl, ?_, fun u => ?_⟩
      · have hmarks : byteCount ['*', '/'] = 2 ∧ '/'.utf8Size = 1 ∧ '*'.utf8Size = 1 := by decide
        simp only [byteCount_cons, byteCount_append, hmarks]
        omega
      · have hfound := hall (v ++ ')' :: u)
        rw [helide]
        simp only [List.append_assoc, List.cons_append, List.nil_append, hfound, ← hn,
          Option.elim_some]

theorem continuation_run (a : Char) (z : List Char) :
    continuation (a :: w ++ ')' :: z) flags
      = if (w.dropWhile isInline ++ ')' :: z).head? = some '\n'
        then .elided ((w.takeWhile isInline).length + 2) else .declined := by
  have hinline : isInline ')' = false := by decide
  have hdrop : (w ++ ')' :: z).drop (w.takeWhile isInline).length
      = w.dropWhile isInline ++ ')' :: z := by
    rw [List.drop_append_of_le_length (List.takeWhile_prefix _).length_le, drop_takeWhile_length]
  simp only [continuation, List.cons_append, List.drop_succ_cons, List.drop_zero,
    takeWhile_fence hinline, hdrop]

theorem continuation_fence
    (hn : continuation ('\\' :: w ++ [')']) flags = .elided (n + 1)) :
    continuation.ElidesBefore flags ('\\' :: w) n := by
  rw [continuation_run] at hn
  split at hn
  · rename_i hhead
    injection hn with hn
    cases hv : w.dropWhile isInline with
    | nil =>
        rw [hv] at hhead
        cases hhead
    | cons a v =>
        rw [hv] at hhead
        cases hhead
        have hw : w = w.takeWhile isInline ++ '\n' :: v := by
          rw [← hv, List.takeWhile_append_dropWhile]
        refine ⟨'\\' :: (w.takeWhile isInline ++ ['\n']), v, ?_, ?_, fun u => ?_⟩
        · simp [← hw]
        · have hmarks : byteCount ['\n'] = 1 ∧ '\\'.utf8Size = 1 := by decide
          simp only [byteCount_cons, byteCount_append, hmarks,
            byteCount_of_all_isInline fun c hc => List.mem_takeWhile_imp hc]
          omega
        · rw [continuation_run, hv, ← hn]
          rfl
  · cases hn

/-- A piece that is elided in front of a closing parenthesis is either a comment that takes the
parenthesis, or a first part of what stands before it. -/
theorem elided_fence {x : Char} {t : Transform} (ht : Grammar.standard.transform? x = some t)
    (hx : (w ++ [')']).head? = some x) (hn : t (w ++ [')']) flags = .elided (n + 1)) :
    (∃ cs, w ++ [')'] = '/' :: '/' :: cs ∧ '\n' ∉ cs) ∨ t.ElidesBefore flags w n := by
  cases w with
  | nil =>
      cases hx
      cases ht
  | cons a w =>
      cases hx
      rcases Grammar.transform?_eq_some ht with ⟨-, rfl⟩ | ⟨rfl, rfl⟩ | ⟨rfl, rfl⟩ | ⟨rfl, rfl⟩
      · exact .inr (whitespace_fence hn)
      · exact .inr (newline_fence hn)
      · cases w with
        | nil => cases hn
        | cons b w =>
            by_cases hline : b = '/'
            · subst hline
              by_cases hmem : '\n' ∈ w
              · exact .inr (lineComment_fence hn hmem)
              · exact .inl ⟨w ++ [')'], rfl, by simp [hmem]⟩
            · by_cases hblock : b = '*'
              · subst hblock
                exact .inr (blockComment_fence hn)
              · simp [comment, hline, hblock] at hn
      · exact .inr (continuation_fence hn)

/-- A transform that does not apply in front of a closing parenthesis does not apply there either
when more stands behind. -/
theorem stays_fence {x : Char} {t : Transform} (ht : Grammar.standard.transform? x = some t)
    (hx : (w ++ [')']).head? = some x)
    (h : t (w ++ [')']) flags = .declined ∨ t (w ++ [')']) flags = .elided 0) (u : List Char) :
    t (w ++ ')' :: u) flags = .declined ∨ t (w ++ ')' :: u) flags = .elided 0 := by
  cases w with
  | nil =>
      cases hx
      cases ht
  | cons a w =>
      cases hx
      rcases Grammar.transform?_eq_some ht with ⟨-, rfl⟩ | ⟨-, rfl⟩ | ⟨rfl, rfl⟩ | ⟨rfl, rfl⟩
      · have hinline : isInline ')' = false := by decide
        simp only [whitespace, takeWhile_fence hinline] at h ⊢
        exact h
      · exact h
      · cases w with
        | nil => exact .inl rfl
        | cons b w =>
            by_cases hline : b = '/'
            · subst hline
              have hsize : '/'.utf8Size = 1 := rfl
              simp [comment, hsize] at h
            · by_cases hblock : b = '*'
              · subst hblock
                simp only [comment, List.cons_append] at h
                cases hbody : commentBody? (w ++ [')']) <;> rw [hbody] at h <;> simp at h
              · exact .inl (by simp [comment, hline, hblock])
      · rw [continuation_run] at h ⊢
        cases hv : w.dropWhile isInline with
        | nil => exact .inl rfl
        | cons b v =>
            rw [hv] at h
            exact h

end Transform

end MatrixScript
