import MatrixScript.Proofs.Layout.Positions
import MatrixScript.Proofs.Progress.Trails

/-!
# Steps that make progress

Reading with a record gives what reading gives. A run is followed from a reader and its record: it
ends with a reader behind the place where it started, or with an error, and the error is never that
no progress was made. A loop has a round for each character that is left, and each round passes one.
-/

namespace MatrixScript

open Reading

/-! ### Records -/

/-- The record is that of this reader, and what the reader may understand between two operands is a
multiplication. -/
structure Kept (r : Reader) (trail : Trail) : Prop where
  offers : ∀ p ∈ r.premise, p.1 = ['*']
  position : trail.position = r.cursor
  here : r.cursor ∈ trail.recent
  sound : trail.Sound

/-- The reader has passed something since it stood at a place. -/
structure Past (c : Cursor) (r : Reader) (trail : Trail) : Prop extends Kept r trail where
  reaches : c.Reaches r.cursor
  shorter : r.cursor.rest.length < c.rest.length

section

variable {c : Cursor} {r q : Reader} {trail trail₁ : Trail}

theorem Kept.moved_of (h : Kept r trail) (hpremise : q.premise = r.premise)
    (hplace : r.cursor.Reaches q.cursor ∨ q.cursor ∈ trail.recent) :
    Kept q (.moved q.cursor :: trail) where
  offers := hpremise ▸ h.offers
  position := rfl
  here := List.mem_cons_self
  sound := h.sound.moved (h.position ▸ hplace)

theorem Kept.back (h : Kept r trail) (hpremise : q.premise = r.premise)
    (hback : q.cursor ∈ trail.recent) : Kept q (.moved q.cursor :: trail) :=
  h.moved_of hpremise (.inr hback)

theorem Kept.moved (h : Kept r trail) (hreaches : r.cursor.Reaches q.cursor)
    (hpremise : q.premise = r.premise) : Kept q (.moved q.cursor :: trail) :=
  h.moved_of hpremise (.inl hreaches)

theorem Kept.past (h : Kept r trail) (hreaches : r.cursor.Reaches q.cursor)
    (hpremise : q.premise = r.premise)
    (hshorter : q.cursor.rest.length < r.cursor.rest.length) :
    Past r.cursor q (.moved q.cursor :: trail) :=
  ⟨h.moved hreaches hpremise, hreaches, hshorter⟩

theorem Kept.past_next (h : Kept r trail) {x : Char} (hx : r.cursor.peek? = some x) :
    Past r.cursor (r.movedTo r.cursor.next) (.moved r.cursor.next :: trail) := by
  have hlength := Cursor.next_length hx
  exact h.past (q := r.movedTo r.cursor.next) r.cursor.reaches_next rfl
    (by rw [Reader.movedTo_cursor]; omega)

/-- The last operand has ended here. -/
theorem Kept.ended (h : Kept r trail) (hcursor : q.cursor = r.cursor)
    (hoffers : ∀ p ∈ q.premise, p.1 = ['*']) : Kept q (.ended :: trail) where
  offers := hoffers
  position := hcursor ▸ h.position
  here := List.mem_singleton.mpr (hcursor ▸ h.position.symm)
  sound := h.sound.ended

theorem Past.ended (h : Past c r trail) (hcursor : q.cursor = r.cursor)
    (hoffers : ∀ p ∈ q.premise, p.1 = ['*']) : Past c q (.ended :: trail) :=
  ⟨h.toKept.ended hcursor hoffers, hcursor ▸ h.reaches, hcursor ▸ h.shorter⟩

theorem Past.read (h : Past c r trail) : Past c r (.read c :: trail) where
  offers := h.offers
  position := h.position
  here := h.here
  sound := h.sound.read (h.position ▸ h.reaches) (h.position ▸ h.reaches.offset_lt h.shorter)
  reaches := h.reaches
  shorter := h.shorter

theorem Past.since {d : Cursor} (h : Past d r trail) (hd : c.Reaches d) : Past c r trail :=
  ⟨h.toKept, hd.trans h.reaches, Nat.lt_of_lt_of_le h.shorter hd.length_le⟩

theorem Past.trans (h : Past c r trail) (h' : Past r.cursor q trail₁) : Past c q trail₁ :=
  ⟨h'.toKept, h.reaches.trans h'.reaches, Nat.lt_trans h'.shorter h.shorter⟩

end

/-- What stays true of a reader and its record when the reader moves on. -/
structure Onward (P : Reader → Trail → Prop) : Prop where
  kept {r : Reader} {trail : Trail} : P r trail → Kept r trail
  moved {r q : Reader} {trail : Trail} : P r trail → r.cursor.Reaches q.cursor →
    q.premise = r.premise → P q (.moved q.cursor :: trail)

namespace Onward

variable {P : Reader → Trail → Prop}

theorem rfl_kept : Onward Kept := ⟨id, Kept.moved⟩

theorem past (c : Cursor) : Onward (Past c) where
  kept h := h.toKept
  moved h hreaches hpremise :=
    ⟨h.toKept.moved hreaches hpremise, h.reaches.trans hreaches,
      Nat.lt_of_le_of_lt hreaches.length_le h.shorter⟩

/-- A place stays one of those reached since the last operand ended. -/
theorem recent (hP : Onward P) (place : Cursor) :
    Onward fun r trail => P r trail ∧ place ∈ trail.recent where
  kept h := hP.kept h.1
  moved h hreaches hpremise := ⟨hP.moved h.1 hreaches hpremise, List.mem_cons_of_mem _ h.2⟩

theorem beyond (hP : Onward P) (c : Cursor) :
    Onward fun r trail => P r trail ∧ c.Reaches r.cursor where
  kept h := hP.kept h.1
  moved h hreaches hpremise := ⟨hP.moved h.1 hreaches hpremise, h.2.trans hreaches⟩

/-- No more characters are left than were. -/
theorem below (hP : Onward P) (n : Nat) :
    Onward fun r trail => P r trail ∧ r.cursor.rest.length < n where
  kept h := hP.kept h.1
  moved h hreaches hpremise :=
    ⟨hP.moved h.1 hreaches hpremise, Nat.lt_of_le_of_lt hreaches.length_le h.2⟩

end Onward

/-- A step that does not go back. If it fails, this is not because nothing was passed. -/
def Forward {α : Type} (f : Reading α) : Prop :=
  ∀ r, match f r with
    | .ok (_, r₁) => r.cursor.Reaches r₁.cursor ∧ r₁.premise = r.premise
    | .error e => e.fault ≠ .stalled

namespace Forward

variable {α β : Type} {f : Reading α} {g : α → Reading β}

theorem of_run {step : Reader → α × Reader} (hf : ∀ r, f r = .ok (step r))
    (hstep : ∀ r, r.cursor.Reaches (step r).2.cursor ∧ (step r).2.premise = r.premise) :
    Forward f := by
  intro r
  rw [hf]
  exact hstep r

theorem fail {fault : ParseFault} (h : fault ≠ .stalled) (span : Span) :
    Forward (fail fault span : Reading α) := fun _ => h

theorem pure (a : α) : Forward (pure a) := .of_run (fun _ => rfl) fun _ => ⟨.refl _, rfl⟩

theorem bind (hf : Forward f) (hg : ∀ a, Forward (g a)) : Forward (f >>= g) := by
  intro r
  have hfr := hf r
  change match f r >>= fun p => g p.1 p.2 with | .ok (_, r₁) => _ | .error e => _
  cases hrun : f r with
  | error e =>
      rw [hrun] at hfr
      exact hfr
  | ok p =>
      rw [hrun] at hfr
      have hgr := hg p.1 p.2
      change match g p.1 p.2 with | .ok (_, r₁) => _ | .error e => _
      cases hrun' : g p.1 p.2 with
      | error e =>
          rw [hrun'] at hgr
          exact hgr
      | ok q =>
          rw [hrun'] at hgr
          exact ⟨hfr.1.trans hgr.1, hgr.2.trans hfr.2⟩

theorem within {construct : Construct} (h : Forward f) : Forward (within construct f) := by
  intro r
  have hfr := h r
  rw [within_run]
  cases hrun : f r <;> rw [hrun] at hfr <;> exact hfr

theorem get : Forward get := .of_run (fun _ => rfl) fun _ => ⟨.refl _, rfl⟩

theorem cursor : Forward cursor := .of_run (fun _ => rfl) fun _ => ⟨.refl _, rfl⟩

theorem peek? : Forward peek? := .of_run (fun _ => rfl) fun _ => ⟨.refl _, rfl⟩

theorem spanOf (id : NodeId) : Forward (spanOf id) :=
  .of_run (fun _ => rfl) fun _ => ⟨.refl _, rfl⟩

theorem next : Forward next := .of_run (fun _ => rfl) fun r => ⟨r.cursor.reaches_next, rfl⟩

theorem advance (n : Nat) : Forward (advance n) :=
  .of_run (fun _ => rfl) fun r => ⟨r.cursor.reaches_advance n, rfl⟩

theorem alloc (kind : NodeKind NodeId) (span : Span) : Forward (alloc kind span) :=
  .of_run (fun _ => rfl) fun _ => ⟨.refl _, rfl⟩

theorem allocFrom (kind : NodeKind NodeId) (start : Nat) : Forward (allocFrom kind start) :=
  cursor.bind fun _ => alloc kind _

theorem eat (x : Char) : Forward (eat x) := by
  intro r
  by_cases hx : r.cursor.peek? = some x
  · rw [eat_eq_ok_iff.mpr (.inl ⟨hx, rfl, rfl⟩)]
    exact ⟨r.cursor.reaches_next, rfl⟩
  · rw [eat_eq_ok_iff.mpr (.inr ⟨hx, rfl, rfl⟩)]
    exact ⟨.refl _, rfl⟩

theorem statementEnd (close : Option Char) : Forward (Surroundings.statementEnd close) := by
  refine cursor.bind fun c => ?_
  split
  · exact pure _
  · exact next.bind fun _ => pure _
  · exact next.bind fun _ => pure _
  · refine get.bind fun r => ?_
    split
    · exact pure _
    · exact within (fail (by nofun) _)

end Forward

theorem Grammar.elide_forward (g : Grammar) (flags : Flags) (fuel : Nat) (elided : Bool)
    (c : Cursor) : match g.elide flags fuel elided c with
      | .ok (_, d) => c.Reaches d
      | .error e => e.fault ≠ .stalled := by
  induction fuel generalizing elided c with
  | zero => exact .refl c
  | succ fuel ih =>
      rw [elide]
      cases c.peek?.bind g.transform? with
      | none => exact .refl c
      | some t =>
          dsimp only
          cases t c.rest flags with
          | declined => exact .refl c
          | unterminated what =>
              intro hstalled
              cases hstalled
          | elided n =>
              cases n with
              | zero => exact .refl c
              | succ n =>
                  have hrest := ih true (c.advance (n + 1))
                  dsimp only
                  cases helide : g.elide flags fuel true (c.advance (n + 1)) with
                  | ok p =>
                      rw [helide] at hrest
                      exact (c.reaches_advance (n + 1)).trans hrest
                  | error e =>
                      rw [helide] at hrest
                      exact hrest

theorem Grammar.skip_forward (g : Grammar) (mode : Mode) : Forward (g.skip mode) := by
  intro r
  have h := g.elide_forward mode.flags r.cursor.rest.length false r.cursor
  unfold skip
  rw [step_eq, cursor_bind]
  cases helide : g.elide mode.flags r.cursor.rest.length false r.cursor with
  | ok p =>
      rw [helide] at h
      exact ⟨h, rfl⟩
  | error e =>
      rw [helide] at h
      exact h

/-! ### Following a run -/

namespace Tracked

variable {α β : Type} {r r₁ : Reader} {trail trail₁ : Trail} {t : Tracked α}

theorem step_run (f : Reading α) :
    (MonadReading.step f : Tracked α) r trail = match f r with
      | .ok (a, r₁) => (.ok (a, r₁), .moved r₁.cursor :: trail)
      | .error e => (.error e, trail) := rfl

theorem whole_run (t : Tracked α) : MonadReading.whole t r trail = match t r trail with
    | (.ok (a, r₁), trail₁) => (.ok (a, r₁), .read r.cursor :: trail₁)
    | (.error e, trail₁) => (.error e, trail₁) := rfl

theorem within_run (construct : Construct) (t : Tracked α) : within construct t r trail
    = ((t r trail).1.mapError (·.within construct), (t r trail).2) := rfl

theorem bind_ok {a : α} (h : t r trail = (.ok (a, r₁), trail₁)) (u : α → Tracked β) :
    (t >>= u) r trail = u a r₁ trail₁ := by
  simp only [bind, StateT.bind, ExceptT.bind, ExceptT.mk, h]
  rfl

theorem bind_error {e : ParseError} (h : t r trail = (.error e, trail₁)) (u : α → Tracked β) :
    (t >>= u) r trail = (.error e, trail₁) := by
  simp only [bind, StateT.bind, ExceptT.bind, ExceptT.mk, h]
  rfl

end Tracked

/-- From this reader and this record, the recorded run gives what the run gives. -/
def Watch {α : Type} (r : Reader) (trail : Trail) (f : Reading α) (t : Tracked α)
    (Q : α → Reader → Trail → Prop) : Prop :=
  (t r trail).1 = f r ∧
    match t r trail with
    | (.ok (a, r₁), trail₁) => Q a r₁ trail₁
    | (.error e, trail₁) => e.fault ≠ .stalled ∧ trail₁.Sound

namespace Watch

variable {α β : Type} {r r₁ : Reader} {trail : Trail} {f : Reading α} {t : Tracked α}
  {g : α → Reading β} {u : α → Tracked β} {Q Q' : α → Reader → Trail → Prop}
  {P : β → Reader → Trail → Prop}

theorem imp (h : Watch r trail f t Q) (himp : ∀ a r₁ trail₁, Q a r₁ trail₁ → Q' a r₁ trail₁) :
    Watch r trail f t Q' := by
  obtain ⟨hsame, hends⟩ := h
  refine ⟨hsame, ?_⟩
  rcases ht : t r trail with ⟨⟨e⟩ | ⟨a, r₁⟩, trail₁⟩ <;> rw [ht] at hends
  · exact hends
  · exact himp _ _ _ hends

/-- What is recorded is sound, whether the run ends with a reader or with an error. -/
theorem sound (h : Watch r trail f t Q) (hQ : ∀ {a r₁ trail₁}, Q a r₁ trail₁ → trail₁.Sound) :
    (t r trail).2.Sound ∧ match f r with
      | .ok (a, r₁) => ∃ trail₁, Q a r₁ trail₁
      | .error e => e.fault ≠ .stalled := by
  obtain ⟨hsame, hends⟩ := h
  rw [← hsame]
  rcases ht : t r trail with ⟨⟨e⟩ | ⟨a, r₁⟩, trail₁⟩ <;> rw [ht] at hends
  · exact ⟨hends.2, hends.1⟩
  · exact ⟨hQ hends, trail₁, hends⟩

theorem bind (hf : Watch r trail f t Q)
    (hg : ∀ a r₁ trail₁, Q a r₁ trail₁ → Watch r₁ trail₁ (g a) (u a) P) :
    Watch r trail (f >>= g) (t >>= u) P := by
  obtain ⟨hsame, hends⟩ := hf
  have hrun : (f >>= g) r = (f r >>= fun p => g p.1 p.2) := rfl
  unfold Watch
  rw [hrun, ← hsame]
  rcases ht : t r trail with ⟨⟨e⟩ | ⟨a, r₁⟩, trail₁⟩ <;> rw [ht] at hends
  · rw [Tracked.bind_error ht]
    exact ⟨rfl, hends⟩
  · rw [Tracked.bind_ok ht]
    exact hg a r₁ trail₁ hends

theorem within {construct : Construct} (h : Watch r trail f t Q) :
    Watch r trail (within construct f) (within construct t) Q := by
  obtain ⟨hsame, hends⟩ := h
  unfold Watch
  rw [within_run, Tracked.within_run, ← hsame]
  rcases ht : t r trail with ⟨⟨e⟩ | ⟨a, r₁⟩, trail₁⟩ <;> rw [ht] at hends <;> exact ⟨rfl, hends⟩

theorem whole (h : Watch r trail f t fun _ => Past r.cursor) :
    Watch r trail (MonadReading.whole f) (MonadReading.whole t) fun _ => Past r.cursor := by
  obtain ⟨hsame, hends⟩ := h
  unfold Watch
  rw [whole_eq, Tracked.whole_run, ← hsame]
  rcases ht : t r trail with ⟨⟨e⟩ | ⟨a, r₁⟩, trail₁⟩ <;> rw [ht] at hends
  · exact ⟨rfl, hends⟩
  · exact ⟨rfl, hends.read⟩

/-- A step with a known result, and what is done behind it. -/
theorem step_bind {a : α} {q : Reader} (hrun : f r = .ok (a, q))
    (h : Watch q (.moved q.cursor :: trail) (g a) (u a) P) :
    Watch r trail (f >>= g) (MonadReading.step f >>= u) P := by
  have hstep : (MonadReading.step f : Tracked α) r trail
      = (.ok (a, q), .moved q.cursor :: trail) := by
    rw [Tracked.step_run, hrun]
  unfold Watch
  rw [bind_ok hrun, Tracked.bind_ok hstep]
  exact h

/-- Where an operand ends, and what is done behind it. -/
theorem ends_bind {f : Reader → Reader} {g : Unit → Reading β} {u : Unit → Tracked β}
    (h : Watch (f r) (.ended :: trail) (g ()) (u ()) P) :
    Watch r trail (MonadReading.ends f >>= g) (MonadReading.ends f >>= u) P := h

theorem get_bind {g : Reader → Reading β} {u : Reader → Tracked β}
    (h : Watch r trail (g r) (u r) P) : Watch r trail (get >>= g) (get >>= u) P := h

theorem of_error {e : ParseError} (hrun : f r = .error e) (he : e.fault ≠ .stalled)
    (h : trail.Sound) : Watch r trail f (MonadReading.step f) Q := by
  unfold Watch
  rw [Tracked.step_run, hrun]
  exact ⟨rfl, he, h⟩

end Watch

/-- The recorded run gives what the run gives, and keeps what is said of the reader. -/
def Shadows {α : Type} (P : Reader → Trail → Prop) (f : Reading α) (t : Tracked α) : Prop :=
  ∀ r trail, P r trail → Watch r trail f t fun _ => P

namespace Shadows

variable {α β : Type} {P : Reader → Trail → Prop} {f : Reading α} {t : Tracked α}
  {g : α → Reading β} {u : α → Tracked β}

theorem bind (hf : Shadows P f t) (hg : ∀ a, Shadows P (g a) (u a)) :
    Shadows P (f >>= g) (t >>= u) :=
  fun r trail h => (hf r trail h).bind fun a => hg a

theorem within {construct : Construct} (h : Shadows P f t) :
    Shadows P (within construct f) (within construct t) :=
  fun r trail hr => (h r trail hr).within

theorem pure (a : α) : Shadows P (pure a) (pure a) := fun _ _ h => ⟨rfl, h⟩

theorem step (hP : Onward P) (hf : Forward f) : Shadows P f (MonadReading.step f) := by
  intro r trail h
  have hfr := hf r
  unfold Watch
  rw [Tracked.step_run]
  cases hrun : f r with
  | error e =>
      rw [hrun] at hfr
      exact ⟨rfl, hfr, (hP.kept h).sound⟩
  | ok p =>
      rw [hrun] at hfr
      exact ⟨rfl, hP.moved h hfr.1 hfr.2⟩

end Shadows

end MatrixScript
