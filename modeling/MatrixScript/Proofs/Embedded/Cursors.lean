import MatrixScript.Proofs.Embedded.Trivia

/-!
# A text within a longer one

A text that ends with a closing parenthesis is read on its own and, at the same time, where it
stands within a longer text. Corresponding cursors differ by the bytes that stand before and the
text that stands behind. They stay in step as long as something is left to read: a comment to the
end of the line can reach beyond the parenthesis, and then nothing is left of the shorter text.
-/

namespace MatrixScript

/-- Nothing is left but text without meaning, whose end is a comment that takes all that closes. -/
inductive Swallowed : List Char → Prop where
  | comment {cs : List Char} : '\n' ∉ cs → Swallowed ('/' :: '/' :: cs)
  | elided {cs : List Char} {x : Char} {t : Transform} {n : Nat} : cs.head? = some x →
      Grammar.standard.transform? x = some t → t cs Mode.group.flags = .elided (n + 1) →
      Swallowed (dropBytes (n + 1) cs) → Swallowed cs

/-- Something is left that can be read. -/
def Alive (c : Cursor) : Prop := c.rest ≠ [] ∧ ¬Swallowed c.rest

/-- Passing no more bytes than a first part of a text has leaves what stands behind that part. -/
theorem dropBytes_split {w : List Char} {n : Nat} (hn : n ≤ byteCount w) :
    ∃ p q, w = p ++ q ∧ ∀ v, dropBytes n (w ++ v) = q ++ v := by
  induction w generalizing n with
  | nil =>
      obtain rfl := Nat.le_zero.mp hn
      exact ⟨[], [], rfl, fun v => by simp [dropBytes]⟩
  | cons a w ih =>
      cases n with
      | zero => exact ⟨[], a :: w, rfl, fun v => by simp [dropBytes]⟩
      | succ n =>
          rw [byteCount_cons] at hn
          have hrest : n + 1 - a.utf8Size ≤ byteCount w := by omega
          obtain ⟨p, q, rfl, hdrop⟩ := ih hrest
          refine ⟨a :: p, q, rfl, fun v => ?_⟩
          rw [List.cons_append, dropBytes, hdrop]

/-- Where a text stands within a longer one: its own bytes, the bytes before it, the nodes that are
there before it is read, and the text behind it. -/
structure Embedding where
  length : Nat
  bytes : Nat
  before : Forest
  tail : List Char

namespace Embedding

variable {E : Embedding} {c c' d : Cursor}

/-- Corresponding cursors in the text on its own and in the longer one. -/
structure Cursors (E : Embedding) (c c' : Cursor) : Prop where
  offset : c'.offset = c.offset + E.bytes
  rest : c'.rest = c.rest ++ E.tail
  fenced : c.rest = [] ∨ ∃ w, c.rest = w ++ [')']
  inside : c.offset + byteCount c.rest = E.length

namespace Cursors

/-- Both pass the same first part of the text. -/
theorem pass {p d : List Char} (h : E.Cursors c c') (hp : c.rest = p ++ d) :
    E.Cursors ⟨c.offset + byteCount p, d⟩ ⟨c'.offset + byteCount p, d ++ E.tail⟩ := by
  constructor
  · have := h.offset
    dsimp only
    omega
  · rfl
  · by_cases hd : d = []
    · exact .inl hd
    · rcases h.fenced with hnil | ⟨w, hw⟩
      · rw [hnil] at hp
        exact absurd (List.append_eq_nil_iff.mp hp.symm).2 hd
      · obtain ⟨v, rfl, -⟩ := fence_split (hp.symm.trans hw) hd
        exact .inr ⟨v, rfl⟩
  · have hinside := h.inside
    rw [hp, byteCount_append] at hinside
    dsimp only
    omega

theorem advance {p d : List Char} (h : E.Cursors c c') (hp : c.rest = p ++ d) :
    E.Cursors (c.advance (byteCount p)) (c'.advance (byteCount p)) := by
  have hp' : c'.rest = p ++ (d ++ E.tail) := by rw [h.rest, hp, List.append_assoc]
  rw [Cursor.advance_append hp, Cursor.advance_append hp']
  exact h.pass hp

/-- Both pass the same bytes, as long as these stand before the parenthesis. -/
theorem advance_le {w : List Char} {n : Nat} (h : E.Cursors c c') (hw : c.rest = w ++ [')'])
    (hn : n ≤ byteCount w) :
    E.Cursors (c.advance n) (c'.advance n) ∧ ∃ q, (c.advance n).rest = q ++ [')'] := by
  obtain ⟨p, q, rfl, hdrop⟩ := dropBytes_split hn
  have hw' : c'.rest = (p ++ q) ++ ([')'] ++ E.tail) := by rw [h.rest, hw, List.append_assoc]
  have hadvance : c.advance n = ⟨c.offset + byteCount p, q ++ [')']⟩ := by
    simp only [Cursor.advance, hw, hdrop, byteCount_append]
    congr 1
    omega
  have hadvance' : c'.advance n = ⟨c'.offset + byteCount p, q ++ ([')'] ++ E.tail)⟩ := by
    simp only [Cursor.advance, hw', hdrop, byteCount_append]
    congr 1
    omega
  have hpass := h.pass (hw.trans (List.append_assoc p q [')']))
  rw [hadvance, hadvance']
  rw [List.append_assoc] at hpass
  exact ⟨hpass, q, rfl⟩

theorem peek? {x : Char} (h : E.Cursors c c') (hx : c.peek? = some x) : c'.peek? = some x := by
  obtain ⟨d, hd⟩ := Cursor.rest_of_peek? hx
  rw [Cursor.peek?, h.rest, hd]
  rfl

theorem peek?_eq (h : E.Cursors c c') (halive : Alive c) : c'.peek? = c.peek? := by
  cases hrest : c.rest with
  | nil => exact absurd hrest halive.1
  | cons x d =>
      have hx : c.peek? = some x := by rw [Cursor.peek?, hrest, List.head?_cons]
      rw [hx, h.peek? hx]

theorem next {x : Char} (h : E.Cursors c c') (hx : c.peek? = some x) :
    E.Cursors c.next c'.next := by
  obtain ⟨d, hd⟩ := Cursor.rest_of_peek? hx
  have hd' : c'.rest = x :: (d ++ E.tail) := by rw [h.rest, hd, List.cons_append]
  rw [Cursor.next_cons hd, Cursor.next_cons hd']
  have hpass := h.pass (p := [x]) hd
  rwa [byteCount_cons, byteCount_nil, Nat.add_zero] at hpass

theorem fence (h : E.Cursors c c') (halive : Alive c) :
    ∃ w, c.rest = w ++ [')'] ∧ c'.rest = w ++ ')' :: E.tail := by
  obtain ⟨w, hw⟩ := h.fenced.resolve_left halive.1
  exact ⟨w, hw, by rw [h.rest, hw, List.append_assoc, List.singleton_append]⟩

theorem length_le (h : E.Cursors c c') : c.rest.length ≤ c'.rest.length := by
  rw [h.rest, List.length_append]
  exact Nat.le_add_right _ _

end Cursors

end Embedding

/-! ### What is left when text without meaning is passed -/

/-- A comment to the end of a text without newlines takes all of it. -/
theorem Transform.comment_line {cs : List Char} (hline : '\n' ∉ cs) (flags : Flags) :
    Transform.comment ('/' :: '/' :: cs) flags = .elided (byteCount ('/' :: '/' :: cs)) := by
  have hall : ('/' :: '/' :: cs).takeWhile (· ≠ '\n') = '/' :: '/' :: cs := by
    rw [List.takeWhile_eq_self_iff]
    intro a ha
    have hne : a ≠ '\n' := by
      rintro rfl
      simp at ha
      exact hline ha
    simpa using hne
  simp only [Transform.comment, hall]

/-- If nothing can be read, the first piece without meaning leads to where nothing can be read. -/
theorem Swallowed.next {cs : List Char} (h : Swallowed cs) (flags : Flags) {x : Char}
    {t : Transform} {n : Nat} (hx : cs.head? = some x)
    (ht : Grammar.standard.transform? x = some t) (hn : t cs flags = .elided (n + 1)) :
    dropBytes (n + 1) cs = [] ∨ Swallowed (dropBytes (n + 1) cs) := by
  cases h with
  | @comment cs hline =>
      cases hx
      have hcomment : some Transform.comment = some t := ht
      cases hcomment
      rw [Transform.comment_line hline] at hn
      injection hn with hn
      have hdrop := dropBytes_append ('/' :: '/' :: cs) []
      rw [List.append_nil, hn] at hdrop
      exact .inl hdrop
  | elided hx' ht' hn' hmore =>
      rw [hx] at hx'
      cases hx'
      rw [ht] at ht'
      cases ht'
      rw [Grammar.elided_group ht hn] at hn'
      cases hn'
      exact .inr hmore

theorem Swallowed.settled {c : Cursor} (h : Swallowed c.rest) {flags : Flags}
    (hsettled : Grammar.standard.Settled flags c) : c.peek? = some '\n' := by
  have hstays {x : Char} {t : Transform} {n : Nat} (hx : c.peek? = some x)
      (ht : Grammar.standard.transform? x = some t) : t c.rest flags ≠ .elided (n + 1) := by
    intro hn
    have hc : c.peek?.bind Grammar.standard.transform? = some t := by rw [hx, Option.bind_some, ht]
    rcases hsettled t hc with h | h <;> rw [hn] at h <;> cases h
  generalize hrest : c.rest = rest at h
  cases h with
  | @comment cs hline =>
      exfalso
      have hx : c.peek? = some '/' := by rw [Cursor.peek?, hrest, List.head?_cons]
      have ht : Grammar.standard.transform? '/' = some Transform.comment := rfl
      refine hstays (n := byteCount cs + 1) hx ht ?_
      have hsize : '/'.utf8Size = 1 := rfl
      rw [hrest, Transform.comment_line hline]
      simp only [byteCount_cons, hsize]
      congr 1
      omega
  | elided hx ht hn _ =>
      rw [← hrest] at hx hn
      rcases Grammar.elided_of_group flags ht hn with hflags | rfl
      · exact absurd hflags (hstays hx ht)
      · exact hx

namespace Grammar

variable {flags : Flags} {c d : Cursor} {b : Bool}

theorem Skips.alive (h : standard.Skips flags b c d) (hd : Alive d) : Alive c := by
  induction h with
  | stop _ => exact hd
  | @pass c d t n _ ht hn _ ih =>
      obtain ⟨hrest, hnot⟩ := ih hd
      obtain ⟨x, hx, ht⟩ := Option.bind_eq_some_iff.mp ht
      refine ⟨?_, ?_⟩
      · intro hnil
        rw [Cursor.peek?, hnil] at hx
        cases hx
      · intro hswallowed
        rcases hswallowed.next flags hx ht hn with hnil | hmore
        · exact hrest hnil
        · exact hnot hmore

theorem Settled.alive (h : standard.Settled flags c) {x : Char} (hx : c.peek? = some x)
    (hline : x ≠ '\n') : Alive c := by
  obtain ⟨d, hd⟩ := Cursor.rest_of_peek? hx
  refine ⟨by simp [hd], fun hswallowed => ?_⟩
  have hnewline := hswallowed.settled h
  rw [hx] at hnewline
  cases hnewline
  exact hline rfl

end Grammar

theorem dropBytes_newline (cs : List Char) : dropBytes 1 ('\n' :: cs) = cs := by
  have h := dropBytes_append ['\n'] cs
  exact h

theorem swallowed_newline {cs : List Char} (h : Swallowed cs) : Swallowed ('\n' :: cs) := by
  refine .elided (x := '\n') (n := 0) rfl rfl rfl ?_
  rw [Nat.zero_add, dropBytes_newline]
  exact h

theorem Alive.of_next {c : Cursor} (h : Alive c.next) (hc : c.peek? = some '\n') : Alive c := by
  obtain ⟨d, hd⟩ := Cursor.rest_of_peek? hc
  rw [Cursor.next_cons hd] at h
  refine ⟨by simp [hd], fun hswallowed => ?_⟩
  rw [hd] at hswallowed
  have hmore := hswallowed.next Mode.group.flags (n := 0) rfl rfl rfl
  rw [Nat.zero_add, dropBytes_newline] at hmore
  exact hmore.elim h.1 h.2

namespace Embedding

variable {E : Embedding} {c c' d : Cursor}

theorem Cursors.alive_next (h : E.Cursors c c') (halive : Alive c) (hc : c.peek? = some '\n') :
    Alive c.next := by
  obtain ⟨d, hd⟩ := Cursor.rest_of_peek? hc
  obtain ⟨w, hw, -⟩ := h.fence halive
  rw [Cursor.next_cons hd]
  refine ⟨?_, fun hswallowed => halive.2 ?_⟩
  · rintro rfl
    rw [hd] at hw
    cases w with
    | nil => cases hw
    | cons a w => simp at hw
  · rw [hd]
    exact swallowed_newline hswallowed

/-- Text without meaning is passed in step. -/
theorem Cursors.skips {flags : Flags} {b : Bool} (h : E.Cursors c c') (halive : Alive c)
    (hskips : Grammar.standard.Skips flags b c d) :
    Alive d ∧ ∃ d', Grammar.standard.Skips flags b c' d' ∧ E.Cursors d d' := by
  induction hskips generalizing c' with
  | @stop c hsettled =>
      refine ⟨halive, c', .stop fun t ht => ?_, h⟩
      obtain ⟨w, hw, hw'⟩ := h.fence halive
      rw [h.peek?_eq halive] at ht
      have hstays := hsettled t ht
      obtain ⟨x, hx, ht⟩ := Option.bind_eq_some_iff.mp ht
      rw [Cursor.peek?, hw] at hx
      rw [hw] at hstays
      rw [hw']
      exact Transform.stays_fence ht hx hstays E.tail
  | @pass c d t n _ ht hn _ ih =>
      obtain ⟨w, hw, hw'⟩ := h.fence halive
      have ht' := ht
      rw [← h.peek?_eq halive] at ht'
      obtain ⟨x, hx, ht⟩ := Option.bind_eq_some_iff.mp ht
      have hx' := hx
      have hn' := hn
      rw [Cursor.peek?, hw] at hx'
      rw [hw] at hn'
      rcases Transform.elided_fence ht hx' hn' with ⟨cs, hcs, hline⟩ | ⟨p, v, rfl, hp, helided⟩
      · rw [← hw] at hcs
        exact absurd (hcs ▸ Swallowed.comment hline) halive.2
      · rw [List.append_assoc] at hw
        have hnext := h.advance hw
        rw [← hp] at hnext
        have hrest : (c.advance (n + 1)).rest = v ++ [')'] := by
          rw [hp, Cursor.advance_append hw]
        have halive' : Alive (c.advance (n + 1)) := by
          refine ⟨by simp [hrest], fun hswallowed => halive.2 ?_⟩
          exact .elided hx ht (Grammar.elided_group ht hn) hswallowed
        obtain ⟨hd, d', hd', hcursors⟩ := ih hnext halive'
        refine ⟨hd, d', .pass ht' ?_ hd', hcursors⟩
        rw [hw']
        exact helided E.tail

end Embedding

end MatrixScript
