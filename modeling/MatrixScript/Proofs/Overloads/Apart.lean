import MatrixScript.Proofs.Overloads
import MatrixScript.Proofs.Registration

/-!
# Calls that are never ambiguous

Two overloads tie where they match the same arguments with the same rank. A call of a function is
never ambiguous if no two of its overloads ever tie. Mostly this can be told from their signatures:
windows of different widths rank apart; different numbers of fixed slots never match the same
arguments; and of two single slots for different kinds, no argument fits both as it is, and none has
to be converted for both.
-/

namespace MatrixScript

namespace Signature

/-- No call matches both with the same rank. -/
def Apart (s t : Signature) : Prop := ∀ args rank, s.Ranks args rank → ¬t.Ranks args rank

/-- The width that calls rank by. Without a variadic slot it is zero. -/
def window (s : Signature) : Nat := s.variadic?.elim 0 Variadic.window

/-- The kind of the only slot, if there is just one and it is fixed. -/
def single? : Signature → Option Kind
  | ⟨[.fixed (.only k)]⟩ => some k
  | _ => none

/-- What can be seen of two signatures to tell that they are apart. -/
def Separated (s t : Signature) : Prop :=
  s.window ≠ t.window
    ∨ s.variadic? = none ∧ t.variadic? = none ∧ s.params.length ≠ t.params.length
    ∨ s.single?.isSome ∧ t.single?.isSome ∧ s.single? ≠ t.single?

instance (s t : Signature) : Decidable (s.Separated t) :=
  inferInstanceAs (Decidable (_ ∨ _))

variable {s t : Signature} {args : List Value} {rank : Score}

theorem Apart.symm (h : s.Apart t) : t.Apart s := fun args rank ht hs => h args rank hs ht

/-! ### What a rank tells -/

theorem Ranks.window_eq (hform : Form s.params) (h : s.Ranks args rank) :
    rank.window = s.window := by
  obtain ⟨rest, hrest⟩ := h
  exact (window_iff hform).mpr ⟨hrest.window, hrest.narrow⟩

theorem Ranks.length_eq (hform : Form s.params) (hnone : s.variadic? = none)
    (h : s.Ranks args rank) : args.length = s.params.length := by
  obtain ⟨rest, hrest⟩ := h
  obtain ⟨params⟩ := s
  cases hform with
  | fixed kinds =>
      calc args.length
          = (kinds.map Param.fixed).countP (·.variadic?.isNone) + rest := hrest.fits.leaves.count
        _ = (kinds.map Param.fixed).length := by
          rw [hrest.fits.leaves.none (variadic_notMem_fixed kinds), countP_fixed, List.length_map,
            Nat.add_zero]
  | around front v back => cases (variadic?_around front v back).symm.trans hnone

/-- A single fixed slot matches one argument, which fits as it is or is converted. -/
theorem Ranks.single {k : Kind} (h : Ranks (.ofKinds [k]) args rank) :
    ∃ v, args = [v] ∧ (v.kind = k ∧ rank.coerced = false
      ∨ v.converts k = true ∧ rank.coerced = true) := by
  obtain ⟨rest, hrest⟩ := h
  have hfits := hrest.fits.fits
  have hcoerced := hrest.coerced
  change List.Forall₂ _ [(⟨.only k, false⟩ : Slot)] args at hfits
  change _ ↔ ∃ slot v, (slot, v) ∈ List.zip [(⟨.only k, false⟩ : Slot)] args ∧ _ at hcoerced
  obtain ⟨v, _, hv, hnil, rfl⟩ := List.forall₂_cons_left_iff.mp hfits
  obtain rfl := List.forall₂_nil_left_iff.mp hnil
  have hconverted : rank.coerced = true ↔ (ParamKind.only k).fit v = .coerced := by
    simpa using hcoerced
  refine ⟨v, rfl, ?_⟩
  unfold ParamKind.fit at hv hconverted
  by_cases hkind : v.kind = k
  · apply Or.inl
    simpa [hkind] using hconverted
  · by_cases hconverts : v.converts k = true
    · apply Or.inr
      simpa [hkind, hconverts] using hconverted
    · simp [hkind, hconverts] at hv

/-- A value is converted to at most one kind. -/
theorem kind_of_converts {v : Value} {k : Kind} (h : v.converts k = true) :
    k = if v.kind = .matrix then .scalar else .matrix := by
  unfold Value.converts at h
  split at h <;> first | rfl | cases h

/-! ### Telling signatures apart -/

theorem apart_ofKinds {k l : Kind} (h : k ≠ l) : Apart (.ofKinds [k]) (.ofKinds [l]) := by
  intro args rank hk hl
  obtain ⟨v, hv, hfit⟩ := hk.single
  obtain ⟨w, hw, hother⟩ := hl.single
  obtain rfl : v = w := List.head_eq_of_cons_eq (hv.symm.trans hw)
  apply h
  cases hrank : rank.coerced with
  | false =>
      rw [hrank] at hfit hother
      simp only [Bool.false_eq_true, and_true, and_false, or_false] at hfit hother
      rw [← hfit, hother]
  | true =>
      rw [hrank] at hfit hother
      simp only [Bool.true_eq_false, and_true, and_false, false_or] at hfit hother
      rw [kind_of_converts hfit, kind_of_converts hother]

theorem eq_ofKinds_of_single? {k : Kind} (h : s.single? = some k) : s = .ofKinds [k] := by
  unfold single? at h
  split at h
  · cases h
    rfl
  · cases h

theorem Separated.apart (h : s.Separated t) (hs : Form s.params) (ht : Form t.params) :
    s.Apart t := by
  rcases h with hwindow | ⟨hnone, hnone', hlength⟩ | ⟨hsome, hsome', hkind⟩
  · intro args rank hranks hother
    apply hwindow
    rw [← hranks.window_eq hs, hother.window_eq ht]
  · intro args rank hranks hother
    apply hlength
    rw [← hranks.length_eq hs hnone, hother.length_eq ht hnone']
  · obtain ⟨k, hk⟩ := Option.isSome_iff_exists.mp hsome
    obtain ⟨l, hl⟩ := Option.isSome_iff_exists.mp hsome'
    rw [eq_ofKinds_of_single? hk, eq_ofKinds_of_single? hl]
    apply apart_ofKinds
    rintro rfl
    exact hkind (hk.trans hl.symm)

end Signature

/-! ### Overloads of one function -/

namespace Overload

variable {name : String} {overloads : List Overload}

/-- Where no two overloads ever tie, one of them ranks lowest or none matches. -/
theorem select_of_pairwise_apart (hvalid : ∀ o ∈ overloads, o.signature.validate name = .ok ())
    (hapart : overloads.Pairwise fun o p => o.signature.Apart p.signature) (args : List Value) :
    (∃ o others rank, Lowest overloads args [o] others rank ∧ select name overloads args = .ok o)
      ∨ (∀ o ∈ overloads, ∀ rest, ¬o.signature.Matches args rest)
        ∧ select name overloads args = .error (.noMatchingOverload name (args.map Value.kind)) := by
  have hselects : Selects name overloads args (select name overloads args) := selects_select hvalid
  generalize select name overloads args = outcome at hselects
  cases hselects with
  | none hnone => exact Or.inr ⟨hnone, rfl⟩
  | one hlowest => exact Or.inl ⟨_, _, _, hlowest, rfl⟩
  | @several found others rank hlowest hseveral =>
      have hparts : (found ++ others).Pairwise fun o p => o.signature.Apart p.signature :=
        hapart.perm hlowest.parts.symm fun h => h.symm
      have hfound := (List.pairwise_append.mp hparts).1
      match found, hfound, hseveral, hlowest.lowest with
      | o :: p :: _, hfound, _, hranks =>
          have hfirst := List.rel_of_pairwise_cons hfound List.mem_cons_self
          have hp := hranks p (List.mem_cons_of_mem o List.mem_cons_self)
          exact absurd hp (hfirst args rank (hranks o List.mem_cons_self))

end Overload

/-! ### The standard library -/

namespace Library

open Overload

theorem standard_separated : ∀ f ∈ standard.functions,
    f.2.Pairwise fun o p => o.signature.Separated p.signature := by
  decide +kernel

theorem pairwise_apart_standard (name : String) :
    (standard.overloads name).Pairwise fun o p => o.signature.Apart p.signature := by
  have hseparated :
      (standard.overloads name).Pairwise fun o p => o.signature.Separated p.signature := by
    unfold overloads
    cases hfound : standard.functions.find? (·.1 == name) with
    | none => exact List.Pairwise.nil
    | some f => exact standard_separated f (List.mem_of_find?_eq_some hfound)
  refine hseparated.imp_of_mem fun {o p} ho hp h => ?_
  have hform {o : Overload} (ho : o ∈ standard.overloads name) : Signature.Form o.signature.params :=
    Signature.form_of_validate
      ((Signature.validate_eq_ok_iff name).mpr (coherent_standard.valid name o ho))
  exact h.apart (hform ho) (hform hp)

/-- No call of a standard function is ambiguous: with whatever arguments, just one overload ranks
lowest and is selected, or there is none that matches. -/
theorem select_standard (name : String) (args : List Value) :
    (∃ o others rank, Lowest (standard.overloads name) args [o] others rank
        ∧ select name (standard.overloads name) args = .ok o)
      ∨ (∀ o ∈ standard.overloads name, ∀ rest, ¬o.signature.Matches args rest)
        ∧ select name (standard.overloads name) args
          = .error (.noMatchingOverload name (args.map Value.kind)) := by
  apply select_of_pairwise_apart _ (pairwise_apart_standard name)
  intro o ho
  exact (Signature.validate_eq_ok_iff name).mpr (coherent_standard.valid name o ho)

end Library

end MatrixScript
