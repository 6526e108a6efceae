import MatrixScript.Proofs.Alike.Kindred
import MatrixScript.Proofs.Extraction.Counterparts

/-!
# The same expression in two places

What an expression gives depends on its tree alone. Where the same tree stands at two nodes, of one
forest or of two, one node of a third forest mirrors both, and so the two evaluations are each
kindred to that of this node. They give values that look the same, and if one of them leaves the
variables as they are, so does the other.
-/

namespace MatrixScript

/-- Functions that are shown in the same way. -/
def ShownSame (f f' : Callable) : Prop := f.text = f'.text

theorem shownAlike_shownSame : ShownAlike ShownSame := fun _ _ h => h

section Meeting

variable {F G H : Callable → Callable → Prop}

theorem forall₂_meet {α : Type} {P Q R : α → α → Prop} {xs xs' xs₀ : List α}
    (h : List.Forall₂ P xs xs₀) (h' : List.Forall₂ Q xs' xs₀)
    (hmeet : ∀ x x' x₀, P x x₀ → Q x' x₀ → R x x') : List.Forall₂ R xs xs' := by
  induction h generalizing xs' with
  | nil =>
      cases h'
      exact .nil
  | cons hx _ ih =>
      cases h' with
      | cons hx' hrest => exact .cons (hmeet _ _ _ hx hx') (ih hrest)

variable (hmeet : ∀ f f' f₀, F f f₀ → G f' f₀ → H f f')
include hmeet

/-- Two values that are alike to the same one. -/
theorem Value.Alike.meet {v v' v₀ : Value} (h : v.Alike F v₀) (h' : v'.Alike G v₀) :
    v.Alike H v' := by
  cases h with
  | function hf =>
      cases h' with
      | function hf' => exact .function (hmeet _ _ _ hf hf')
  | plot title hs =>
      cases h' with
      | plot title hs' =>
          refine .plot title (forall₂_meet hs hs' fun s s' s₀ hs hs' => ?_)
          cases hs with
          | points x y =>
              cases hs'
              exact .points x y
          | curve hf start stop =>
              cases hs' with
              | curve hf' => exact .curve (hmeet _ _ _ hf hf') start stop
  | _ =>
      cases h'
      exact .of_isPlain ⟨nofun, nofun⟩

theorem IndexArg.Alike.meet {a a' a₀ : IndexArg} (h : a.Alike F a₀) (h' : a'.Alike G a₀) :
    a.Alike H a' := by
  cases h with
  | all =>
      cases h'
      exact .all
  | value hv =>
      cases h' with
      | value hv' => exact .value (hv.meet hmeet hv')

end Meeting

theorem Callable.Kin.shownSame {N N' : Nat → Nat → Prop} {f f' f₀ : Callable}
    (h : Callable.Kin N f f₀) (h' : Callable.Kin N' f' f₀) : ShownSame f f' := by
  have htext {N : Nat → Nat → Prop} {f f₀ : Callable} (h : Callable.Kin N f f₀) :
      f.text = f₀.text := by
    cases h with
    | same => rfl
    | twins hcode _ => rw [Callable.text, Callable.text, hcode.params]
  exact (htext h).trans (htext h').symm

/-! ### Evaluations that go on in the same way -/

namespace Evaluation

variable {α β γ : Type}

/-- If the first evaluation leaves the variables as they are, so does the second one, and where the
first one gives something, the second one gives something related to it. -/
def Follows (Q : α → β → Prop) (x : Evaluation α) (x' : Evaluation β) : Prop :=
  ∀ w, x.Keeps w → x'.Keeps w ∧ ∀ m a left, m.view = w → x.run.run m = (.ok a, left) →
    Completes w x' fun b => Q a b

theorem Completes.imp {w : View} {x : Evaluation α} {Q Q' : α → Prop} (h : Completes w x Q)
    (hQ : ∀ a, Q a → Q' a) : Completes w x Q' := by
  intro m hm
  obtain ⟨a, left, hrun, hkept, ha⟩ := h m hm
  exact ⟨a, left, hrun, hkept, hQ a ha⟩

/-- Two evaluations that are kindred to the same one. -/
theorem follows_of_kindred {library : Library} {P : (Callable → Callable → Prop) → α → α → Prop}
    {Q : α → α → Prop} {x x' x₀ : Evaluation α} (h : Kindred library P x x₀)
    (h' : Kindred library P x' x₀)
    (hQ : ∀ a a' a₀, P (Callable.Kin fun _ _ => True) a a₀ →
      P (Callable.Kin fun _ _ => True) a' a₀ → Q a a') :
    Follows Q x x' := by
  intro w hx
  have hx₀ := h.keeps hx
  refine ⟨h'.keeps_left hx₀, fun m a left hm hrun => ?_⟩
  obtain ⟨a₀, left₀, hrun₀, -, ha⟩ := h.completes hx hm hrun m hm
  exact (h'.completes_left hx₀ hm hrun₀).imp fun a' ha' => hQ a a' a₀ ha ha'

end Evaluation

theorem Forest.Mirrors.of_call {f c : Forest} {g : NodeId → NodeId} {D : NodeId → Prop}
    {K : String → Prop} {R : Span → Span → Prop} (h : f.Mirrors c g D K R) {id : NodeId}
    (hid : D id) {callee : NodeId} {ids : List NodeId}
    (hkind : f.kind? id = some (.call callee ids)) :
    c.kind? (g id) = some (.call (g callee) (ids.map g)) ∧ ∀ i ∈ ids, D i := by
  obtain ⟨node, hnode, hcall⟩ := Option.map_eq_some_iff.mp hkind
  have hguided := h.guided id node hid hnode
  rw [hcall] at hguided
  have hnodes := h.node id hid
  rw [hnode] at hnodes
  generalize hnode' : c.get? (g id) = found at hnodes
  cases hnodes with
  | some hsame =>
      refine ⟨?_, fun i hi => hguided.required (List.mem_cons_of_mem _ (List.mem_map_of_mem hi))⟩
      rw [kind?, hnode', Option.map_some, hsame.1, hcall, NodeKind.map_call]

namespace Setting

open Evaluation

variable {s : Setting} {f : Forest} {id id' : NodeId} {t : Tree}

section Spelled

variable (hlibrary : s.library.Blind) (hs : s.forest.WellLinked) (hf : f.WellLinked)
  (ht : t ≠ .absent) (h : s.forest.Spells id t) (h' : f.Spells id' t)
include hlibrary hs hf ht h h'

theorem follows_evaluate (fuel : Nat) :
    Follows (Value.Alike ShownSame) (evaluate fuel s.untimed id)
      (evaluate fuel { s.untimed with forest := f } id') := by
  let other : Setting := { s with forest := f }
  obtain ⟨c, g, g', D, D', hmirrors, hid, hmirrors', hid', hsame⟩ := h.exists_mirrors hs hf h' ht
  have hleft := kindred_evaluate hlibrary hmirrors fuel hid
  have hright := kindred_evaluate (s := other) hlibrary hmirrors' fuel hid'
  rw [hsame] at hright
  exact follows_of_kindred hleft hright fun _ _ _ hv hv' =>
    hv.meet (fun _ _ _ hf hf' => hf.shownSame hf') hv'

/-- The arguments of a call in its two places. -/
theorem follows_indexArguments {callee callee' : NodeId} {ids ids' : List NodeId}
    (hkind : s.forest.kind? id = some (.call callee ids))
    (hkind' : f.kind? id' = some (.call callee' ids')) (target : Value) (fuel : Nat) :
    Follows (List.Forall₂ (IndexArg.Alike ShownSame))
      (s.untimed.indexArguments (evaluate fuel) target ids)
      (Setting.indexArguments { s.untimed with forest := f } (evaluate fuel) target ids') := by
  let other : Setting := { s with forest := f }
  obtain ⟨c, g, g', D, D', hmirrors, hid, hmirrors', hid', hsame⟩ := h.exists_mirrors hs hf h' ht
  obtain ⟨hcall, hids⟩ := hmirrors.of_call hid hkind
  obtain ⟨hcall', hids'⟩ := hmirrors'.of_call hid' hkind'
  rw [hsame, hcall, Option.some.injEq, NodeKind.call.injEq] at hcall'
  have hleft := kindred_indexArguments hlibrary hmirrors fuel target hids
  have hright := kindred_indexArguments (s := other) hlibrary hmirrors' fuel target hids'
  rw [← hcall'.2] at hright
  exact follows_of_kindred hleft hright fun _ _ _ hargs hargs' =>
    forall₂_meet hargs hargs' fun _ _ _ harg harg' =>
      harg.meet (fun _ _ _ hf hf' => hf.shownSame hf') harg'

end Spelled

end Setting

end MatrixScript
