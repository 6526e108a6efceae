import MatrixScript.Proofs.Embedded.Cursors
import MatrixScript.Proofs.Layout.Positions

/-!
# Two ways to fill a gap

Two texts differ in one place: where the one has a blank, the other has a comment between its marks.
While both are read, their cursors stand in front of the gap, with the same text passed, or behind
it, with the same text ahead. Passing over text without meaning leaves them facing each other:
either in front of the same character of the text before the gap, or behind the gap.
-/

namespace MatrixScript

/-- The text before and after a gap, and the comment that may stand in it. -/
structure Gap where
  before : List Char
  comment : List Char
  after : List Char

/-- Text without quotes, slashes and backslashes. -/
def Unmarked (text : List Char) : Prop := ∀ x ∈ text, x ∉ ['"', '/', '\\']

instance (text : List Char) : Decidable (Unmarked text) :=
  inferInstanceAs (Decidable (∀ x ∈ text, x ∉ ['"', '/', '\\']))

namespace Gap

/-- The comment between its marks. -/
def mark (g : Gap) : List Char := '/' :: '*' :: (g.comment ++ ['*', '/'])

/-- The text with a blank in the gap. -/
def blanked (g : Gap) : List Char := g.before ++ ' ' :: g.after

/-- The text with a comment in the gap. -/
def commented (g : Gap) : List Char := g.before ++ g.mark ++ g.after

/-- A colon before the gap that a comma or a parenthesis ends after it. -/
def SelectsAll (g : Gap) : Prop :=
  (g.before.reverse.dropWhile isBlank).head? = some ':'
    ∧ ((g.after.dropWhile isBlank).head? = some ',' ∨ (g.after.dropWhile isBlank).head? = some ')')

/-- A sign right before the gap with a blank in front of it. -/
def Signed (g : Gap) : Prop :=
  ∃ passed blank sign, g.before = passed ++ [blank, sign] ∧ Transform.isInline blank = true
    ∧ (sign = '-' ∨ sign = '+')

/-- A gap in text in which nothing but the gap itself can be a comment, and where neither a lone
colon nor a sign in a matrix can reach into it. -/
structure Clear (g : Gap) : Prop where
  before : Unmarked g.before
  after : Unmarked g.after
  point : g.before.getLast? ≠ some '.'
  closed : ¬['*', '/'] <:+: g.comment
  colon : ¬g.SelectsAll
  sign : '[' ∈ g.before → ¬g.Signed

/-- Cursors at the same place of the two texts. -/
inductive Meets (g : Gap) : Cursor → Cursor → Prop where
  | before (passed ahead : List Char) : g.before = passed ++ ahead →
      Meets g ⟨byteCount passed, ahead ++ ' ' :: g.after⟩
        ⟨byteCount passed, ahead ++ g.mark ++ g.after⟩
  | after (passed ahead : List Char) : g.after = passed ++ ahead →
      Meets g ⟨byteCount g.before + 1 + byteCount passed, ahead⟩
        ⟨byteCount g.before + byteCount g.mark + byteCount passed, ahead⟩

/-- Cursors at the same place, which is not right in front of the gap. -/
inductive Faces (g : Gap) : Cursor → Cursor → Prop where
  | before (passed : List Char) (x : Char) (ahead : List Char) : g.before = passed ++ x :: ahead →
      Faces g ⟨byteCount passed, x :: ahead ++ ' ' :: g.after⟩
        ⟨byteCount passed, x :: ahead ++ g.mark ++ g.after⟩
  | after (passed ahead : List Char) : g.after = passed ++ ahead →
      Faces g ⟨byteCount g.before + 1 + byteCount passed, ahead⟩
        ⟨byteCount g.before + byteCount g.mark + byteCount passed, ahead⟩

variable {g : Gap} {c c' : Cursor} {mode : Mode}

theorem Faces.meets (h : g.Faces c c') : g.Meets c c' := by
  cases h with
  | before passed x ahead hbefore => exact .before passed (x :: ahead) hbefore
  | after passed ahead hafter => exact .after passed ahead hafter

/-- Right in front of the gap a blank comes next. -/
theorem Meets.faces (h : g.Meets c c') {x : Char} (hx : c.peek? = some x) (hblank : x ≠ ' ') :
    g.Faces c c' := by
  cases h with
  | before passed ahead hbefore =>
      cases ahead with
      | nil =>
          cases hx
          exact absurd rfl hblank
      | cons y ahead => exact .before passed y ahead hbefore
  | after passed ahead hafter => exact .after passed ahead hafter

theorem Faces.peek?_eq (h : g.Faces c c') : c'.peek? = c.peek? := by cases h <;> rfl

/-- Where the offset of the text with the blank is found in the text with the comment. -/
def move (g : Gap) (offset : Nat) : Nat :=
  if offset ≤ byteCount g.before then offset else offset + (byteCount g.mark - 1)

theorem two_le_mark (g : Gap) : 4 ≤ byteCount g.mark := by
  have hslash : '/'.utf8Size = 1 := rfl
  have hstar : '*'.utf8Size = 1 := rfl
  simp only [mark, byteCount_cons, byteCount_append, byteCount_nil, hslash, hstar]
  omega

theorem Meets.offset_eq (h : g.Meets c c') : c'.offset = g.move c.offset := by
  have hmark := two_le_mark g
  cases h with
  | before passed ahead hbefore =>
      rw [move, if_pos]
      rw [hbefore, byteCount_append]
      exact Nat.le_add_right _ _
  | after passed ahead hafter =>
      rw [move, if_neg (by simp only; omega)]
      simp only
      omega

theorem move_inj {m n : Nat} (h : g.move m = g.move n) : m = n := by
  unfold move at h
  split at h <;> split at h <;> omega

/-! ### How much is left -/

/-- What bounds the text left with the comment, if `n` bounds that with the blank. -/
def bound (g : Gap) (n : Nat) : Nat :=
  if g.after.length + 1 < n then n + (g.mark.length - 1) else n

theorem bound_lt {m n : Nat} (h : m < n) : g.bound m < g.bound n := by
  unfold bound
  split <;> split <;> omega

theorem le_bound (n : Nat) : n ≤ g.bound n := by
  unfold bound
  split <;> omega

theorem Meets.length_eq (h : g.Meets c c') :
    c'.rest.length + 1 = g.bound (c.rest.length + 1) := by
  have hmark : 1 ≤ g.mark.length := Nat.succ_le_succ (Nat.zero_le _)
  cases h with
  | before passed ahead hbefore =>
      simp only [bound, List.length_append, List.length_cons]
      rw [if_pos (by omega)]
      omega
  | after passed ahead hafter =>
      have hlength := congrArg List.length hafter
      rw [List.length_append] at hlength
      rw [bound, if_neg (by simp only; omega)]

/-! ### Moving on -/

/-- Both cursors pass the same bytes, unless these reach into the gap. -/
theorem Faces.advance (h : g.Faces c c') {n : Nat}
    (hn : ∀ w, c.rest = w ++ ' ' :: g.after → n ≤ byteCount w) :
    g.Meets (c.advance n) (c'.advance n) := by
  cases h with
  | before passed x ahead hbefore =>
      obtain ⟨p, q, hsplit, hdrop⟩ := dropBytes_split (hn (x :: ahead) rfl)
      have hadvance (offset : Nat) (v : List Char) :
          Cursor.advance ⟨offset, x :: ahead ++ v⟩ n = ⟨offset + byteCount p, q ++ v⟩ := by
        rw [Cursor.advance, hdrop, hsplit, List.append_assoc, byteCount_append, Nat.add_sub_cancel]
      have hmeets := Meets.before (passed ++ p) q (by rw [hbefore, hsplit, List.append_assoc])
      rw [byteCount_append, List.append_assoc] at hmeets
      rw [hadvance, List.append_assoc, hadvance]
      exact hmeets
  | after passed ahead hafter =>
      obtain ⟨p, hp⟩ := Cursor.exists_dropBytes n ahead
      have hbytes : byteCount ahead - byteCount (dropBytes n ahead) = byteCount p := by
        have hsum := congrArg byteCount hp
        rw [byteCount_append] at hsum
        omega
      have hmeets := Meets.after (passed ++ p) (dropBytes n ahead)
        (by rw [hafter, List.append_assoc, ← hp])
      rw [byteCount_append, ← Nat.add_assoc, ← Nat.add_assoc, ← hbytes] at hmeets
      exact hmeets

/-- Both cursors pass the same run of characters that the gap ends. -/
theorem Faces.takeWhile (h : g.Faces c c') {p : Char → Bool} (hblank : p ' ' = false)
    (hslash : p '/' = false) :
    (c'.takeWhile p).1 = (c.takeWhile p).1 ∧ g.Meets (c.takeWhile p).2 (c'.takeWhile p).2 := by
  cases h with
  | before passed x ahead hbefore =>
      have hmark : x :: ahead ++ g.mark ++ g.after
          = x :: ahead ++ '/' :: ('*' :: (g.comment ++ ['*', '/']) ++ g.after) := by simp [mark]
      have hsplit : (x :: ahead).takeWhile p ++ (x :: ahead).dropWhile p = x :: ahead :=
        List.takeWhile_append_dropWhile
      have hmeets := Meets.before (passed ++ (x :: ahead).takeWhile p) ((x :: ahead).dropWhile p)
        (by rw [hbefore, List.append_assoc, hsplit])
      rw [byteCount_append] at hmeets
      simp only [Cursor.takeWhile, hmark, takeWhile_fence hblank, takeWhile_fence hslash,
        dropWhile_fence hblank, dropWhile_fence hslash]
      refine ⟨trivial, ?_⟩
      simpa [mark] using hmeets
  | after passed ahead hafter =>
      have hsplit : ahead.takeWhile p ++ ahead.dropWhile p = ahead :=
        List.takeWhile_append_dropWhile
      have hmeets := Meets.after (passed ++ ahead.takeWhile p) (ahead.dropWhile p)
        (by rw [hafter, List.append_assoc, hsplit])
      rw [byteCount_append, ← Nat.add_assoc, ← Nat.add_assoc] at hmeets
      exact ⟨rfl, hmeets⟩

/-- A character that comes next in front of the gap stands in the text before it. -/
theorem Faces.mem_before (h : g.Faces c c') (hlt : g.after.length < c.rest.length) {x : Char}
    (hx : c.peek? = some x) : x ∈ g.before := by
  cases h with
  | before passed y ahead hbefore =>
      cases hx
      rw [hbefore]
      simp
  | after passed ahead hafter =>
      have hlength := congrArg List.length hafter
      rw [List.length_append] at hlength
      simp only at hlt
      omega

/-- No quote comes next. -/
theorem Faces.peek?_ne_quote (hg : g.Clear) (h : g.Faces c c') : c.peek? ≠ some '"' := by
  intro hx
  cases h with
  | before passed y ahead hbefore =>
      cases hx
      exact absurd (hg.before '"' (by rw [hbefore]; simp)) (by decide)
  | after passed ahead hafter =>
      obtain ⟨d, rfl⟩ : ∃ d, ahead = '"' :: d := List.head?_eq_some_iff.mp hx
      exact absurd (hg.after '"' (by rw [hafter]; simp)) (by decide)

theorem Faces.next (h : g.Faces c c') : g.Meets c.next c'.next := by
  cases h with
  | before passed x ahead hbefore =>
      have hmeets := Meets.before (passed ++ [x]) ahead (by rw [hbefore, List.append_assoc]; rfl)
      rw [byteCount_append, byteCount_cons, byteCount_nil, Nat.add_zero] at hmeets
      exact hmeets
  | after passed ahead hafter =>
      cases ahead with
      | nil => exact .after passed [] hafter
      | cons x ahead =>
          have hmeets := Meets.after (passed ++ [x]) ahead (by rw [hafter, List.append_assoc]; rfl)
          rw [byteCount_append, byteCount_cons, byteCount_nil, Nat.add_zero, ← Nat.add_assoc] at hmeets
          rw [← Nat.add_assoc (byteCount g.before + byteCount g.mark)] at hmeets
          exact hmeets

/-! ### Text without meaning -/

/-- What is passed in a mode where nothing is marked. -/
def isPassed (flags : Flags) (x : Char) : Bool :=
  Transform.isInline x || x == '\n' && !flags.newlineSignificant

end Gap

namespace Grammar

open Transform

variable {c d : Cursor} {flags : Flags} {t e : List Char} {b : Bool}

theorem settled_of_not_isPassed {x : Char} (hc : c.rest = x :: e) (hslash : x ≠ '/')
    (hback : x ≠ '\\') (hx : Gap.isPassed flags x = false) : standard.Settled flags c := by
  rw [Gap.isPassed, Bool.or_eq_false_iff] at hx
  intro t ht
  rw [Cursor.peek?, hc, List.head?_cons, Option.bind_some] at ht
  rcases transform?_eq_some ht with ⟨hinline, -⟩ | ⟨rfl, rfl⟩ | ⟨rfl, -⟩ | ⟨rfl, -⟩
  · rw [hx.1] at hinline
    cases hinline
  · have hnewline : flags.newlineSignificant = true := by simpa using hx.2
    exact .inl (if_pos hnewline)
  · exact absurd rfl hslash
  · exact absurd rfl hback

/-- Blanks and newlines are passed piece by piece until something else follows. -/
theorem skips_passed (ht : ∀ x ∈ t, Gap.isPassed flags x = true)
    (hend : ∀ x ∈ e.head?, isInline x = false) (offset : Nat)
    (h : standard.Skips flags b ⟨offset + byteCount t, e⟩ d) :
    standard.Skips flags (!t.isEmpty || b) ⟨offset, t ++ e⟩ d := by
  induction hn : t.length using Nat.strongRecOn generalizing t offset with
  | ind n ih =>
  subst hn
  cases t with
  | nil => exact h
  | cons x t =>
      -- a run of blanks is passed at once, a newline on its own
      have hpiece (p left : List Char) (hsplit : x :: t = p ++ left) (hp : p ≠ [])
          (htransform : ∃ f, standard.transform? x = some f
            ∧ f (x :: t ++ e) flags = .elided (byteCount p)) :
          standard.Skips flags true ⟨offset, x :: t ++ e⟩ d := by
        obtain ⟨f, hf, helided⟩ := htransform
        have hpos : byteCount p ≠ 0 := by
          have hlength := length_le_byteCount p
          have := List.length_pos_iff.mpr hp
          omega
        have hshorter : left.length < (x :: t).length := by
          have hlength := congrArg List.length hsplit
          have := List.length_pos_iff.mpr hp
          rw [List.length_append] at hlength
          omega
        have hleft : ∀ y ∈ left, Gap.isPassed flags y = true := fun y hy =>
          ht y (hsplit ▸ List.mem_append_right p hy)
        rw [hsplit, byteCount_append, ← Nat.add_assoc] at h
        have hmore := ih left.length hshorter hleft _ h rfl
        have hadvance : Cursor.advance ⟨offset, x :: t ++ e⟩ (byteCount p)
            = ⟨offset + byteCount p, left ++ e⟩ :=
          Cursor.advance_append (by rw [hsplit, List.append_assoc])
        rw [← hadvance] at hmore
        obtain ⟨n, hn⟩ := Nat.exists_eq_succ_of_ne_zero hpos
        rw [hn] at helided hmore
        exact .pass hf helided hmore
      have hx := ht x List.mem_cons_self
      by_cases hinline : isInline x = true
      · refine hpiece ((x :: t).takeWhile isInline) ((x :: t).dropWhile isInline)
          List.takeWhile_append_dropWhile.symm ?_ ⟨_, transform?_of_isInline hinline, ?_⟩
        · rw [List.takeWhile_cons_of_pos hinline]
          exact List.cons_ne_nil _ _
        · have hrun : (x :: t ++ e).takeWhile isInline = (x :: t).takeWhile isInline := by
            cases e with
            | nil => rw [List.append_nil]
            | cons y e => exact takeWhile_fence (hend y rfl)
          rw [whitespace, hrun, byteCount_of_all_isInline fun y hy => List.mem_takeWhile_imp hy]
      · have hline : x = '\n' ∧ flags.newlineSignificant = false := by
          simpa [Gap.isPassed, hinline] using hx
        obtain ⟨rfl, hflag⟩ := hline
        exact hpiece ['\n'] t rfl (List.cons_ne_nil _ _) ⟨newline, rfl, if_neg (by simp [hflag])⟩

/-- What is passed ends where something stands that means something. -/
theorem skips_stop (ht : ∀ x ∈ t, Gap.isPassed flags x = true) (offset : Nat) {x : Char}
    (hslash : x ≠ '/') (hback : x ≠ '\\') (hx : Gap.isPassed flags x = false) :
    standard.Skips flags (!t.isEmpty) ⟨offset, t ++ x :: e⟩ ⟨offset + byteCount t, x :: e⟩ := by
  have hinline : ∀ y ∈ (x :: e).head?, isInline y = false := by
    intro y hy
    cases hy
    exact (Bool.or_eq_false_iff.mp hx).1
  have hskips := skips_passed ht hinline offset
    (.stop (settled_of_not_isPassed rfl hslash hback hx))
  rwa [Bool.or_false] at hskips

theorem head?_dropWhile_isPassed {x : Char} (h : t.dropWhile (Gap.isPassed flags) = x :: e) :
    Gap.isPassed flags x = false := by
  have hnot := List.head?_dropWhile_not (Gap.isPassed flags) t
  rwa [h, List.head?_cons] at hnot

/-- Where nothing is marked, exactly blanks and such newlines are passed that end nothing. -/
theorem skips_unmarked (h : Unmarked t) (flags : Flags) (offset : Nat) :
    standard.Skips flags (!(t.takeWhile (Gap.isPassed flags)).isEmpty) ⟨offset, t⟩
      ⟨offset + byteCount (t.takeWhile (Gap.isPassed flags)),
        t.dropWhile (Gap.isPassed flags)⟩ := by
  have hrun : ∀ x ∈ t.takeWhile (Gap.isPassed flags), Gap.isPassed flags x = true :=
    fun x hx => List.mem_takeWhile_imp hx
  have hsplit : t.takeWhile (Gap.isPassed flags) ++ t.dropWhile (Gap.isPassed flags) = t :=
    List.takeWhile_append_dropWhile
  cases hdrop : t.dropWhile (Gap.isPassed flags) with
  | nil =>
      have hskips := skips_passed (e := []) hrun (by simp) offset
        (.stop (settled_of_rest_eq_nil rfl))
      rw [← hdrop, hsplit, hdrop, Bool.or_false] at hskips
      exact hskips
  | cons x e =>
      have hmem : x ∈ t :=
        (List.dropWhile_suffix (Gap.isPassed flags)).subset (hdrop ▸ List.mem_cons_self)
      have hmark := h x hmem
      simp only [List.mem_cons, List.not_mem_nil, or_false, not_or] at hmark
      have hskips := skips_stop (e := e) hrun offset hmark.2.1 hmark.2.2
        (head?_dropWhile_isPassed hdrop)
      rw [← hdrop, hsplit, hdrop] at hskips
      exact hskips

end Grammar

namespace Transform

theorem commentBody?_append {cs u : List Char} (h : ¬['*', '/'] <:+: cs) :
    commentBody? (cs ++ '*' :: '/' :: u) = some cs := by
  induction cs with
  | nil => rfl
  | cons c cs ih =>
      have hrest : ¬['*', '/'] <:+: cs := fun hinfix => h (List.infix_cons hinfix)
      rw [List.cons_append, commentBody?, ih hrest, Option.map_some]
      intro v hc hv
      cases cs with
      | nil => cases hv
      | cons d cs =>
          cases hv
          exact h ⟨[], cs, by rw [hc]; rfl⟩

end Transform

namespace Gap

open Grammar

variable {g : Gap} {c c' : Cursor}

theorem skips_mark (hclosed : ¬['*', '/'] <:+: g.comment) (hafter : Unmarked g.after)
    (flags : Flags) (offset : Nat) :
    standard.Skips flags true ⟨offset, g.mark ++ g.after⟩
      ⟨offset + byteCount g.mark + byteCount (g.after.takeWhile (isPassed flags)),
        g.after.dropWhile (isPassed flags)⟩ := by
  have hbody := Transform.commentBody?_append (u := g.after) hclosed
  have hslash : '/'.utf8Size = 1 := rfl
  have hstar : '*'.utf8Size = 1 := rfl
  have hbytes : byteCount g.mark = byteCount g.comment + 3 + 1 := by
    simp only [mark, byteCount_cons, byteCount_append, byteCount_nil, hslash, hstar]
    omega
  have hcomment : Transform.comment (g.mark ++ g.after) flags
      = .elided (byteCount g.comment + 3 + 1) := by
    have hmark : g.mark ++ g.after = '/' :: '*' :: (g.comment ++ '*' :: '/' :: g.after) := by
      simp [mark]
    rw [hmark]
    simp only [Transform.comment, hbody]
  have hadvance : Cursor.advance ⟨offset, g.mark ++ g.after⟩ (byteCount g.comment + 3 + 1)
      = ⟨offset + byteCount g.mark, g.after⟩ := by
    rw [← hbytes]
    exact Cursor.advance_append rfl
  have hmore := skips_unmarked hafter flags (offset + byteCount g.mark)
  rw [← hadvance] at hmore
  exact .pass (t := Transform.comment) rfl hcomment hmore

/-- What faces the gap from behind has at most the text behind it ahead. -/
theorem length_dropWhile_after {passed ahead : List Char} (hafter : g.after = passed ++ ahead)
    (flags : Flags) (x y : Char) : ahead.dropWhile (isPassed flags) ≠ x :: y :: g.after := by
  intro hdrop
  have hlength := (List.dropWhile_suffix (isPassed flags) (l := ahead)).length_le
  have hahead := congrArg List.length hafter
  rw [hdrop] at hlength
  simp only [List.length_cons, List.length_append] at hlength hahead
  omega

theorem faces_after {passed ahead : List Char} (hafter : g.after = passed ++ ahead)
    (flags : Flags) :
    g.Faces ⟨byteCount g.before + 1 + byteCount passed + byteCount (ahead.takeWhile (isPassed flags)),
        ahead.dropWhile (isPassed flags)⟩
      ⟨byteCount g.before + byteCount g.mark + byteCount passed
          + byteCount (ahead.takeWhile (isPassed flags)),
        ahead.dropWhile (isPassed flags)⟩ := by
  have hsplit : g.after = (passed ++ ahead.takeWhile (isPassed flags))
      ++ ahead.dropWhile (isPassed flags) := by
    rw [List.append_assoc, List.takeWhile_append_dropWhile, hafter]
  have hfaces := Faces.after _ _ hsplit
  rw [byteCount_append, ← Nat.add_assoc, ← Nat.add_assoc] at hfaces
  exact hfaces

/-- Where nothing but blanks is left before the gap, it is passed in both texts. -/
theorem Clear.skips_across (hg : g.Clear) (flags : Flags) {passed ahead : List Char}
    (hbefore : g.before = passed ++ ahead) (hrun : ∀ x ∈ ahead, isPassed flags x = true) :
    ∃ d d', standard.Skips flags true ⟨byteCount passed, ahead ++ ' ' :: g.after⟩ d
      ∧ standard.Skips flags true ⟨byteCount passed, ahead ++ g.mark ++ g.after⟩ d'
      ∧ g.Faces d d' ∧ d.rest = g.after.dropWhile (isPassed flags) := by
  have hblank : ∀ x ∈ ahead ++ [' '], isPassed flags x = true := by
    intro x hx
    rcases List.mem_append.mp hx with hx | hx
    · exact hrun x hx
    · rw [List.mem_singleton.mp hx]
      rfl
  have htext : Unmarked (ahead ++ [' '] ++ g.after) := by
    intro x hx
    rcases List.mem_append.mp hx with hx | hx
    · rcases List.mem_append.mp hx with hx | hx
      · exact hg.before x (hbefore ▸ List.mem_append_right passed hx)
      · rw [List.mem_singleton.mp hx]
        decide
    · exact hg.after x hx
  have hbytes : byteCount g.before = byteCount passed + byteCount ahead := by
    rw [hbefore, byteCount_append]
  have hone : byteCount [' '] = 1 := rfl
  have hfirst := skips_unmarked htext flags (byteCount passed)
  have hsecond := skips_passed hrun (e := g.mark ++ g.after) (by simp [mark, Transform.isInline])
    (byteCount passed) (skips_mark hg.closed hg.after flags _)
  have hafter : g.after = [] ++ g.after := rfl
  have hfaces := faces_after hafter flags
  rw [List.takeWhile_append_of_pos hblank, List.dropWhile_append_of_pos hblank] at hfirst
  have hsome : (!(ahead ++ [' '] ++ g.after.takeWhile (isPassed flags)).isEmpty) = true := by simp
  rw [hsome, List.append_assoc ahead, byteCount_append, byteCount_append, hone] at hfirst
  rw [Bool.or_true, ← List.append_assoc] at hsecond
  rw [byteCount_nil, Nat.add_zero, Nat.add_zero, hbytes] at hfaces
  refine ⟨_, _, hfirst, hsecond, ?_, rfl⟩
  rw [← Nat.add_assoc, ← Nat.add_assoc]
  exact hfaces

/-- The same is passed in both texts, and the cursors face each other then. A sign right before the
gap that is reached across a blank makes the gap signed. -/
theorem Clear.skips (hg : g.Clear) (flags : Flags) (h : g.Meets c c') :
    ∃ b d d', standard.Skips flags b c d ∧ standard.Skips flags b c' d' ∧ g.Faces d d'
      ∧ (b = true → flags.newlineSignificant = true →
        ∀ x, d.rest = x :: ' ' :: g.after → x = '-' ∨ x = '+' → g.Signed) := by
  cases h with
  | after passed ahead hafter =>
      have hunmarked : Unmarked ahead := fun x hx =>
        hg.after x (hafter ▸ List.mem_append_right passed hx)
      exact ⟨_, _, _, skips_unmarked hunmarked flags _, skips_unmarked hunmarked flags _,
        faces_after hafter flags,
        fun _ _ x hx => absurd hx (length_dropWhile_after hafter flags x ' ')⟩
  | before passed ahead hbefore =>
      have hrun : ∀ x ∈ ahead.takeWhile (isPassed flags), isPassed flags x = true :=
        fun x hx => List.mem_takeWhile_imp hx
      have hsplit : ahead.takeWhile (isPassed flags) ++ ahead.dropWhile (isPassed flags) = ahead :=
        List.takeWhile_append_dropWhile
      cases hdrop : ahead.dropWhile (isPassed flags) with
      | nil =>
          rw [hdrop, List.append_nil] at hsplit
          rw [hsplit] at hrun
          obtain ⟨d, d', hfirst, hsecond, hfaces, hrest⟩ := hg.skips_across flags hbefore hrun
          have hafter : g.after = [] ++ g.after := rfl
          exact ⟨true, d, d', hfirst, hsecond, hfaces, fun _ _ x hx =>
            absurd (hrest.symm.trans hx) (length_dropWhile_after hafter flags x ' ')⟩
      | cons x left =>
          have hmem : x ∈ g.before := by
            rw [hbefore, ← hsplit, hdrop]
            simp
          have hmark := hg.before x hmem
          simp only [List.mem_cons, List.not_mem_nil, or_false, not_or] at hmark
          have hskips (u : List Char) := skips_stop (e := left ++ u) hrun
            (byteCount passed) hmark.2.1 hmark.2.2 (head?_dropWhile_isPassed hdrop)
          have hrest (u : List Char) :
              ahead.takeWhile (isPassed flags) ++ x :: (left ++ u) = ahead ++ u := by
            rw [← List.cons_append, ← hdrop, ← List.append_assoc, hsplit]
          have hbefore' : g.before = (passed ++ ahead.takeWhile (isPassed flags)) ++ x :: left := by
            rw [List.append_assoc, ← hdrop, hsplit, hbefore]
          have hfaces := Faces.before _ x left hbefore'
          have hblank := hskips (' ' :: g.after)
          have hcomment := hskips (g.mark ++ g.after)
          rw [hrest] at hblank hcomment
          rw [← List.append_assoc, ← List.append_assoc] at hcomment
          rw [byteCount_append] at hfaces
          refine ⟨_, _, _, hblank, hcomment, hfaces, fun hb hline y hy hsign => ?_⟩
          have hnone : left = [] := by
            have hlength := congrArg List.length hy
            simp only [List.length_cons, List.length_append] at hlength
            exact List.eq_nil_of_length_eq_zero (by omega)
          subst hnone
          cases hy
          obtain ⟨run, blank, hlast⟩ := List.eq_nil_or_concat (ahead.takeWhile (isPassed flags))
            |>.resolve_left (by simpa using hb)
          rw [List.concat_eq_append] at hlast
          refine ⟨passed ++ run, blank, x, ?_, ?_, hsign⟩
          · rw [hbefore', hlast]
            simp
          · have hpassed := hrun blank (by rw [hlast]; simp)
            simpa [isPassed, hline] using hpassed

end Gap

end MatrixScript
