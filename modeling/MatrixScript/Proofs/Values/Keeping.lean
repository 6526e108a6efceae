/-!
# What computations give and keep

A computation may fail, and one on a state changes that state whether it fails or not. What is
proved of it is that its value, if there is one, has some property, and that the state keeps an
invariant in either case. Both follow along the steps that a computation is put together from.
-/

namespace MatrixScript

/-- Whatever a computation gives has the property. -/
def Yields {ε α : Type} (x : Except ε α) (P : α → Prop) : Prop := ∀ a, x = .ok a → P a

section Yields

variable {ε α β : Type} {P : α → Prop} {Q : β → Prop} {x : Except ε α} {a : α}

theorem yields_ok (h : P a) : Yields (.ok a : Except ε α) P := by
  rintro _ ⟨⟩
  exact h

theorem yields_error (e : ε) : Yields (.error e) P := nofun

theorem Yields.imp {P' : α → Prop} (h : Yields x P) (himp : ∀ a, P a → P' a) : Yields x P' :=
  fun a ha => himp a (h a ha)

theorem Yields.and {P' : α → Prop} (h : Yields x P) (h' : Yields x P') :
    Yields x fun a => P a ∧ P' a :=
  fun a ha => ⟨h a ha, h' a ha⟩

theorem Yields.bind {f : α → Except ε β} (hx : Yields x P) (hf : ∀ a, P a → Yields (f a) Q) :
    Yields (x >>= f) Q := by
  intro b hb
  cases x with
  | error e => cases hb
  | ok a => exact hf a (hx a rfl) b hb

theorem yields_bind {f : α → Except ε β} (hf : ∀ a, Yields (f a) Q) : Yields (x >>= f) Q :=
  Yields.bind (P := fun _ => True) (fun _ _ => trivial) fun a _ => hf a

theorem bind_ok_iff {f : α → Except ε β} {b : β} :
    x >>= f = .ok b ↔ ∃ a, x = .ok a ∧ f a = .ok b := by
  cases x with
  | error e =>
      constructor
      · intro h
        cases h
      · rintro ⟨a, h, -⟩
        cases h
  | ok a =>
      constructor
      · exact fun h => ⟨a, rfl, h⟩
      · rintro ⟨a, ⟨⟩, h⟩
        exact h

theorem bind_error_iff {f : α → Except ε β} {e : ε} :
    x >>= f = .error e ↔ x = .error e ∨ ∃ a, x = .ok a ∧ f a = .error e := by
  cases x with
  | error e' =>
      constructor
      · intro h
        cases h
        exact .inl rfl
      · rintro (⟨⟨⟩⟩ | ⟨a, h, -⟩)
        · rfl
        · cases h
  | ok a =>
      constructor
      · exact fun h => .inr ⟨a, rfl, h⟩
      · rintro (h | ⟨a, ⟨⟩, h⟩)
        · cases h
        · exact h

theorem Yields.map {f : α → β} (hx : Yields x P) (hf : ∀ a, P a → Q (f a)) :
    Yields (f <$> x) Q := by
  intro b hb
  cases x with
  | error e => cases hb
  | ok a =>
      cases hb
      exact hf a (hx a rfl)

theorem Yields.mapError {ε' : Type} (h : Yields x P) (f : ε → ε') : Yields (x.mapError f) P := by
  cases x with
  | error e => exact yields_error (f e)
  | ok a => exact yields_ok (h a rfl)

theorem yields_mapM {xs : List α} {f : α → Except ε β} (h : ∀ a ∈ xs, Yields (f a) Q) :
    Yields (xs.mapM f) fun ys => ys.length = xs.length ∧ ∀ b ∈ ys, Q b := by
  induction xs with
  | nil => exact yields_ok ⟨rfl, nofun⟩
  | cons a xs ih =>
      rw [List.mapM_cons]
      refine (h a List.mem_cons_self).bind fun b hb => ?_
      refine (ih fun a' ha' => h a' (List.mem_cons_of_mem a ha')).bind fun ys hys => yields_ok ?_
      exact ⟨congrArg (· + 1) hys.1, List.forall_mem_cons.mpr ⟨hb, hys.2⟩⟩

theorem yields_foldlM {xs : List β} {f : α → β → Except ε α} (ha : P a)
    (h : ∀ a, P a → ∀ b ∈ xs, Yields (f a b) P) : Yields (xs.foldlM f a) P := by
  induction xs generalizing a with
  | nil => exact yields_ok ha
  | cons b xs ih =>
      rw [List.foldlM_cons]
      exact (h a ha b List.mem_cons_self).bind fun a' ha' =>
        ih ha' fun a'' ha'' b' hb' => h a'' ha'' b' (List.mem_cons_of_mem b hb')

end Yields

/-! ### Computations on a state -/

section Runs

variable {σ ε α β : Type} {x : ExceptT ε (StateM σ) α} {f : α → ExceptT ε (StateM σ) β} {s s' : σ}

theorem run_bind_of_ok {a : α} (h : x.run.run s = (.ok a, s')) :
    (x >>= f).run.run s = (f a).run.run s' := by
  rw [ExceptT.run_bind, StateT.run_bind, h]
  rfl

theorem run_bind_of_error {e : ε} (h : x.run.run s = (.error e, s')) :
    (x >>= f).run.run s = (.error e, s') := by
  rw [ExceptT.run_bind, StateT.run_bind, h]
  rfl

theorem exists_of_run_bind {b : β} (h : (x >>= f).run.run s = (.ok b, s')) :
    ∃ a s₁, x.run.run s = (.ok a, s₁) ∧ (f a).run.run s₁ = (.ok b, s') := by
  cases hx : x.run.run s with
  | mk r s₁ =>
      cases r with
      | error e =>
          rw [run_bind_of_error hx] at h
          cases h
      | ok a =>
          rw [run_bind_of_ok hx] at h
          exact ⟨a, s₁, rfl, h⟩

/-- The state that an action leaves behind unless it fails. -/
theorem run_seqRight_get_eq_ok_iff {y : ExceptT ε (StateM σ) Unit} :
    ((y *> get).run.run s).1 = .ok s' ↔ y.run.run s = (.ok (), s') := by
  rw [seqRight_eq_bind]
  cases hy : y.run.run s with
  | mk r after =>
      cases r with
      | error e =>
          rw [run_bind_of_error hy]
          exact iff_of_false nofun nofun
      | ok u =>
          rw [run_bind_of_ok hy]
          exact ⟨fun h => congrArg (Prod.mk _) (Except.ok.inj h), fun h => congrArg _ (Prod.mk.inj h).2⟩

/-- An action that may be refused before it does anything. -/
theorem refusal_eq_ok_iff {c : Prop} [Decidable c] {e : ε} {done : Except ε α × σ} {a : α} :
    (if c then (.error e, s) else done) = (.ok a, s') ↔ ¬c ∧ done = (.ok a, s') := by
  by_cases hc : c
  · rw [if_pos hc]
    exact iff_of_false nofun fun h => h.1 hc
  · rw [if_neg hc]
    exact (and_iff_right hc).symm

end Runs

/-- On a state with the invariant, the computation leaves one with the invariant, and whatever it
gives has the property. -/
def Keeps {σ ε α : Type} (I : σ → Prop) (x : ExceptT ε (StateM σ) α) (P : α → Prop) : Prop :=
  ∀ s, I s → I (x.run.run s).2 ∧ Yields (x.run.run s).1 P

section Keeps

variable {σ ε α β : Type} {I : σ → Prop} {P : α → Prop} {Q : β → Prop}
  {x : ExceptT ε (StateM σ) α} {a : α}

theorem keeps_pure (h : P a) : Keeps I (pure a : ExceptT ε (StateM σ) α) P :=
  fun _ hs => ⟨hs, yields_ok h⟩

theorem keeps_throw (e : ε) : Keeps I (throw e : ExceptT ε (StateM σ) α) P :=
  fun _ hs => ⟨hs, yields_error e⟩

theorem keeps_liftM {y : Except ε α} (h : Yields y P) :
    Keeps I (liftM y : ExceptT ε (StateM σ) α) P := by
  intro s hs
  cases y with
  | error e => exact ⟨hs, yields_error e⟩
  | ok a => exact ⟨hs, yields_ok (h a rfl)⟩

theorem Keeps.and {I' : σ → Prop} {P' : α → Prop} (h : Keeps I x P) (h' : Keeps I' x P') :
    Keeps (fun s => I s ∧ I' s) x fun a => P a ∧ P' a := by
  intro s hs
  obtain ⟨hleft, hgives⟩ := h s hs.1
  obtain ⟨hleft', hgives'⟩ := h' s hs.2
  exact ⟨⟨hleft, hleft'⟩, hgives.and hgives'⟩

theorem keeps_get : Keeps I (get : ExceptT ε (StateM σ) σ) I := fun _ hs => ⟨hs, yields_ok hs⟩

theorem keeps_set {s : σ} (h : I s) :
    Keeps I (set s : ExceptT ε (StateM σ) PUnit) fun _ => True :=
  fun _ _ => ⟨h, yields_ok trivial⟩

theorem Keeps.bind {f : α → ExceptT ε (StateM σ) β} (hx : Keeps I x P)
    (hf : ∀ a, P a → Keeps I (f a) Q) : Keeps I (x >>= f) Q := by
  intro s hs
  obtain ⟨hstate, hgives⟩ := hx s hs
  rw [ExceptT.run_bind, StateT.run_bind]
  cases hrun : x.run.run s with
  | mk r t =>
      rw [hrun] at hstate hgives
      cases r with
      | error e => exact ⟨hstate, yields_error e⟩
      | ok a => exact hf a (hgives a rfl) t hstate

end Keeps

end MatrixScript
