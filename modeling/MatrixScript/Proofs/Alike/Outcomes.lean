import Mathlib.Data.List.Forall2
import MatrixScript.Evaluation.Machine

/-!
# Two computations side by side

Two computations on states that are related end in states that are related, whether they fail or
not, and either both give something, which is related again, or both fail, with related reasons.
This follows along the steps that they are put together from.
-/

namespace MatrixScript

/-- Both give something or both fail. -/
inductive Concur {ε ε' α β : Type} (S : ε → ε' → Prop) (P : α → β → Prop) :
    Except ε α → Except ε' β → Prop where
  | ok {a : α} {b : β} (h : P a b) : Concur S P (.ok a) (.ok b)
  | error {e : ε} {e' : ε'} (h : S e e') : Concur S P (.error e) (.error e')

namespace Concur

variable {ε ε' α β : Type} {S S' : ε → ε' → Prop} {P P' : α → β → Prop} {x : Except ε α}
  {y : Except ε' β}

theorem imp (h : Concur S P x y) (hS : ∀ e e', S e e' → S' e e') (hP : ∀ a b, P a b → P' a b) :
    Concur S' P' x y := by
  cases h with
  | ok h => exact .ok (hP _ _ h)
  | error h => exact .error (hS _ _ h)

theorem mapError {δ δ' : Type} {T : δ → δ' → Prop} {f : ε → δ} {f' : ε' → δ'}
    (h : Concur S P x y) (hf : ∀ e e', S e e' → T (f e) (f' e')) :
    Concur T P (x.mapError f) (y.mapError f') := by
  cases h with
  | ok h => exact .ok h
  | error h => exact .error (hf _ _ h)

end Concur

theorem Concur.bind {ε ε' α α' β β' : Type} {S : ε → ε' → Prop} {P : α → α' → Prop}
    {Q : β → β' → Prop} {x : Except ε α} {y : Except ε' α'} {f : α → Except ε β}
    {g : α' → Except ε' β'} (h : Concur S P x y) (hf : ∀ a b, P a b → Concur S Q (f a) (g b)) :
    Concur S Q (x >>= f) (y >>= g) := by
  cases h with
  | ok h => exact hf _ _ h
  | error h => exact .error h

/-- From related states both computations lead to related states, and their outcomes are related. -/
def Paired {σ τ ε ε' α β : Type} (I : σ → τ → Prop) (S : ε → ε' → Prop) (P : α → β → Prop)
    (x : ExceptT ε (StateM σ) α) (y : ExceptT ε' (StateM τ) β) : Prop :=
  ∀ s t, I s t → I (x.run.run s).2 (y.run.run t).2 ∧ Concur S P (x.run.run s).1 (y.run.run t).1

section Paired

variable {σ τ ε ε' α α' β β' : Type} {I : σ → τ → Prop} {S : ε → ε' → Prop} {P P' : α → α' → Prop}
  {Q : β → β' → Prop} {x : ExceptT ε (StateM σ) α} {y : ExceptT ε' (StateM τ) α'} {a : α} {a' : α'}

theorem paired_pure (h : P a a') : Paired I S P (pure a) (pure a') :=
  fun _ _ hs => ⟨hs, .ok h⟩

theorem paired_throw {e : ε} {e' : ε'} (h : S e e') :
    Paired I S P (throw e : ExceptT ε (StateM σ) α) (throw e' : ExceptT ε' (StateM τ) α') :=
  fun _ _ hs => ⟨hs, .error h⟩

theorem paired_get : Paired I S I (get : ExceptT ε (StateM σ) σ) (get : ExceptT ε' (StateM τ) τ) :=
  fun _ _ hs => ⟨hs, .ok hs⟩

theorem paired_modify {f : σ → σ} {g : τ → τ} (h : ∀ s t, I s t → I (f s) (g t)) :
    Paired I S (fun _ _ => True) (modify f : ExceptT ε (StateM σ) PUnit)
      (modify g : ExceptT ε' (StateM τ) PUnit) :=
  fun s t hs => ⟨h s t hs, .ok trivial⟩

theorem paired_set {s : σ} {t : τ} (h : I s t) :
    Paired I S (fun _ _ => True) (set s : ExceptT ε (StateM σ) PUnit)
      (set t : ExceptT ε' (StateM τ) PUnit) :=
  fun _ _ _ => ⟨h, .ok trivial⟩

theorem paired_liftM {x : Except ε α} {y : Except ε' α'} (h : Concur S P x y) :
    Paired I S P (liftM x : ExceptT ε (StateM σ) α) (liftM y : ExceptT ε' (StateM τ) α') := by
  intro s t hs
  cases h with
  | ok h => exact ⟨hs, .ok h⟩
  | error h => exact ⟨hs, .error h⟩

theorem Paired.imp (h : Paired I S P x y) (hP : ∀ a b, P a b → P' a b) : Paired I S P' x y :=
  fun s t hs => ⟨(h s t hs).1, (h s t hs).2.imp (fun _ _ h => h) hP⟩

theorem Paired.bind {f : α → ExceptT ε (StateM σ) β} {g : α' → ExceptT ε' (StateM τ) β'}
    (h : Paired I S P x y) (hf : ∀ a a', P a a' → Paired I S Q (f a) (g a')) :
    Paired I S Q (x >>= f) (y >>= g) := by
  intro s t hs
  obtain ⟨hstates, houtcome⟩ := h s t hs
  rw [ExceptT.run_bind, StateT.run_bind, ExceptT.run_bind, StateT.run_bind]
  cases hx : x.run.run s with
  | mk r s' =>
      cases hy : y.run.run t with
      | mk r' t' =>
          rw [hx, hy] at hstates houtcome
          cases houtcome with
          | ok h => exact hf _ _ h s' t' hstates
          | error h => exact ⟨hstates, .error h⟩

theorem paired_mapM {γ γ' : Type} {R : γ → γ' → Prop} {f : γ → ExceptT ε (StateM σ) β}
    {g : γ' → ExceptT ε' (StateM τ) β'} {xs : List γ} {ys : List γ'} (h : List.Forall₂ R xs ys)
    (hf : ∀ c c', R c c' → Paired I S Q (f c) (g c')) :
    Paired I S (List.Forall₂ Q) (xs.mapM f) (ys.mapM g) := by
  induction h with
  | nil => exact paired_pure .nil
  | cons hc _ ih =>
      rw [List.mapM_cons, List.mapM_cons]
      refine (hf _ _ hc).bind fun b b' hb => ih.bind fun bs bs' hbs => ?_
      exact paired_pure (.cons hb hbs)

theorem paired_foldlM {γ γ' : Type} {R : γ → γ' → Prop} {f : α → γ → ExceptT ε (StateM σ) α}
    {g : α' → γ' → ExceptT ε' (StateM τ) α'} {xs : List γ} {ys : List γ'}
    (h : List.Forall₂ R xs ys)
    (hf : ∀ a a', P a a' → ∀ c c', R c c' → Paired I S P (f a c) (g a' c')) (ha : P a a') :
    Paired I S P (xs.foldlM f a) (ys.foldlM g a') := by
  induction h generalizing a a' with
  | nil => exact paired_pure ha
  | cons hc _ ih =>
      rw [List.foldlM_cons, List.foldlM_cons]
      exact (hf a a' ha _ _ hc).bind fun b b' hb => ih hb

end Paired

end MatrixScript
