import MatrixScript.Proofs.Embedded.Sequences
import MatrixScript.Proofs.Reading.Operators

/-!
# Operators in two readings

Operators build their nodes alike in both readings. Assignments and lambdas look at the nodes on
their left, which are of the same kinds.
-/

namespace MatrixScript

open Reading

namespace Numbered

variable {n : Nat}

theorem below_unary {op : UnaryOp} {a : NodeId} (ha : Below n a) :
    Below n (NodeKind.unary op a) := by
  intro id hid
  rw [List.mem_singleton.mp hid]
  exact ha a (List.mem_singleton.mpr rfl)

theorem below_pair {k : NodeKind NodeId} {a b : NodeId} (hk : k.children = [a, b])
    (ha : Below n a) (hb : Below n b) : Below n k := by
  intro id hid
  change id ∈ k.children at hid
  rw [hk] at hid
  rcases List.mem_cons.mp hid with rfl | hid
  · exact ha _ (List.mem_singleton.mpr rfl)
  · exact hb id hid

theorem below_call {g : NodeId} {args : List NodeId} (hg : Below n g) (hargs : Below n args) :
    Below n (NodeKind.call g args) := by
  intro id hid
  change id ∈ NodeKind.children (.call g args) at hid
  simp only [NodeKind.children, NodeKind.slots, List.map_cons, List.map_map, List.mem_cons,
    List.mem_map, Function.comp_apply, exists_eq_right] at hid
  rcases hid with rfl | hid
  · exact hg _ (List.mem_singleton.mpr rfl)
  · exact hargs id (List.mem_flatMap.mpr ⟨id, hid, List.mem_singleton.mpr rfl⟩)

end Numbered

namespace Forest

variable {n : Nat} {f f' : Forest}

/-- The kinds of nodes are found under shifted numbers. -/
def Shifted (n : Nat) (f f' : Forest) : Prop :=
  ∀ id, f'.kind? (id.shift n) = (f.kind? id).map (·.map (NodeId.shift n))

namespace Shifted

theorem nameOf?_eq (h : f.Shifted n f') (id : NodeId) :
    Operator.nameOf? f' (id.shift n) = Operator.nameOf? f id := by
  unfold Operator.nameOf?
  rw [h id]
  cases f.kind? id with
  | none => rfl
  | some k => cases k <;> simp [NodeKind.map, NodeKind.mapM]

theorem isName_eq (h : f.Shifted n f') (id : NodeId) :
    Operator.isName f' (id.shift n) = Operator.isName f id := by
  unfold Operator.isName
  rw [h id]
  cases f.kind? id with
  | none => rfl
  | some k => cases k <;> simp [NodeKind.map, NodeKind.mapM]

theorem isTarget_eq (h : f.Shifted n f') (compound : Bool) (k : NodeKind NodeId) :
    Operator.isTarget f' compound (k.map (NodeId.shift n)) = Operator.isTarget f compound k := by
  cases k with
  | call callee args =>
      rw [NodeKind.map_call]
      exact h.isName_eq callee
  | matrix rows =>
      have hname : Operator.isName f' ∘ NodeId.shift n = Operator.isName f := funext h.isName_eq
      rcases rows with _ | ⟨row, _ | ⟨second, rows⟩⟩
      · simp [Operator.isTarget]
      · simp [Operator.isTarget, hname]
      · simp [Operator.isTarget]
  | tuple items => simp [Operator.isTarget]
  | block statements => simp [Operator.isTarget]
  | _ => rfl

theorem parameters?_eq (h : f.Shifted n f') (k : NodeKind NodeId) :
    Operator.parameters? f' (k.map (NodeId.shift n)) = Operator.parameters? f k := by
  cases k with
  | call callee args => simp [Operator.parameters?]
  | matrix rows => simp [Operator.parameters?]
  | tuple items =>
      simp only [NodeKind.map_tuple, Operator.parameters?]
      induction items with
      | nil => rfl
      | cons id items ih =>
          rw [List.map_cons, List.mapM_cons, List.mapM_cons, h.nameOf?_eq, ih]
  | block statements => simp [Operator.parameters?]
  | _ => rfl

end Shifted

end Forest

namespace Embedding

variable {E : Embedding} {s s' : Surroundings} {n : Nat} {f f' : Forest}

theorem Forests.shifted (h : E.Forests f f') (hfits : E.Fits f) :
    f.Shifted E.before.size f' := h.kind? hfits

namespace Around

open Grammar

variable {left : NodeId} {span span' : Span}

theorem assignment_tracks (h : E.Around s s') {symbol : List Char} {op : Option BinaryOp}
    (hleft : Numbered.Below n left) :
    E.Tracks n Alive (applyFixity s (Operator.assignment symbol op) left span)
      (applyFixity s' (Operator.assignment symbol op) (left.shift E.before.size) span') := by
  constructor
  · intro r r₁ kind hf
    obtain ⟨right, target, hright, -⟩ := applyFixity_assignment_eq_ok_iff.mp hf
    exact (h.expression n _ _).grows hright
  · intro r r₁ kind hf halive
    obtain ⟨right, target, hright, -⟩ := applyFixity_assignment_eq_ok_iff.mp hf
    exact (h.expression n _ _).steady hright halive
  · intro r r' r₁ kind hr hn hf halive hfits
    obtain ⟨right, target, hright, htarget, hlegal, rfl⟩ := applyFixity_assignment_eq_ok_iff.mp hf
    have hgrows := (h.expression n _ _).grows hright
    obtain ⟨hbelow, r₁', hright', hr₁⟩ :=
      (h.expression n _ _).follows hr hn hright halive hfits
    rw [← h.mode] at hright'
    refine ⟨Numbered.below_pair rfl (hleft.mono (Nat.le_trans hn hgrows)) hbelow, r₁',
      applyFixity_assignment_eq_ok_iff.mpr
        ⟨_, target.map (NodeId.shift E.before.size), hright', ?_, ?_, rfl⟩, hr₁⟩
    · rw [hr₁.forest.kind? hfits, htarget, Option.map_some]
    · rw [(hr₁.forest.shifted hfits).isTarget_eq, hlegal]

theorem lambda_tracks (h : E.Around s s') :
    E.Tracks n Alive (applyFixity s Operator.lambda left span)
      (applyFixity s' Operator.lambda (left.shift E.before.size) span') := by
  constructor
  · intro r r₁ kind hf
    obtain ⟨body, head, params, hbody, -⟩ := applyFixity_lambda_eq_ok_iff.mp hf
    exact (h.expression n _ _).grows hbody
  · intro r r₁ kind hf halive
    obtain ⟨body, head, params, hbody, -⟩ := applyFixity_lambda_eq_ok_iff.mp hf
    exact (h.expression n _ _).steady hbody halive
  · intro r r' r₁ kind hr hn hf halive hfits
    obtain ⟨body, head, params, hbody, hhead, hparams, rfl⟩ := applyFixity_lambda_eq_ok_iff.mp hf
    obtain ⟨hbelow, r₁', hbody', hr₁⟩ := (h.expression n _ _).follows hr hn hbody halive hfits
    rw [← h.mode] at hbody'
    refine ⟨hbelow, r₁', applyFixity_lambda_eq_ok_iff.mpr
      ⟨_, head.map (NodeId.shift E.before.size), params, hbody', ?_, ?_, rfl⟩, hr₁⟩
    · rw [hr₁.forest.kind? hfits, hhead, Option.map_some]
    · rw [(hr₁.forest.shifted hfits).parameters?_eq, hparams]

/-- Every operator of the language builds its node alike in both readings. -/
theorem applyFixity_tracks (h : E.Around s s') {op : Operator}
    (hop : op ∈ standard.operators) (hleft : Numbered.Below n left) :
    E.Tracks n Alive (applyFixity s op left span)
      (applyFixity s' op (left.shift E.before.size) span') := by
  have hmode := h.mode
  rcases Operator.standard_cases hop with ⟨symbol, o, rfl⟩ | rfl | rfl | rfl
    | ⟨symbol, p, a, o, rfl⟩ | ⟨symbol, p, o, rfl⟩
  · exact h.assignment_tracks hleft
  · exact h.lambda_tracks
  · simp only [applyFixity, Operator.range, hmode]
    refine (h.expression n _ _).bind fun m right hm hright => ?_
    exact (TracksInPlace.pure (Numbered.below_pair rfl (hleft.mono hm) hright)).tracks
  · simp only [applyFixity, Operator.call]
    refine (h.delimited_tracks (by decide) _ _ _ _ _).weaken.bind fun m args hm hargs => ?_
    have hcall : Numbered.shift E.before.size (NodeKind.call left args)
        = .call (left.shift E.before.size) (Numbered.shift E.before.size args) :=
      NodeKind.map_call _ _ _
    rw [← hcall]
    exact (TracksInPlace.pure (Numbered.below_call (hleft.mono hm) hargs)).tracks
  · simp only [applyFixity, Operator.binary, hmode]
    refine (h.expression n _ _).bind fun m right hm hright => ?_
    exact (TracksInPlace.pure (Numbered.below_pair rfl (hleft.mono hm) hright)).tracks
  · exact (TracksInPlace.pure (Numbered.below_unary hleft)).tracks

end Around

end Embedding

end MatrixScript
