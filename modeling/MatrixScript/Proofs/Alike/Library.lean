import MatrixScript.Library.Standard
import MatrixScript.Proofs.Alike.Outcomes
import MatrixScript.Proofs.Alike.Values
import MatrixScript.Proofs.Values.Libraries

/-!
# Library functions side by side

Arguments that are alike select the same overload and are handed to it alike. What an overload reads
from them is the same but for functions, and these it only passes on.
-/

namespace MatrixScript

variable {F : Callable → Callable → Prop} {I : Environment → Environment → Prop}

structure Arguments.Alike (F : Callable → Callable → Prop) (a a' : Arguments) : Prop where
  fixed : List.Forall₂ (Value.Alike F) a.fixed a'.fixed
  rest : List.Forall₂ (Value.Alike F) a.rest a'.rest

/-! ### Choosing an overload -/

section Signatures

variable {args args' : List Value} {v v' : Value}

theorem Value.Alike.fit_eq (h : v.Alike F v') (k : ParamKind) : k.fit v' = k.fit v := by
  cases k with
  | any => rfl
  | only k => rw [ParamKind.fit, ParamKind.fit, h.kind_eq, h.converts_eq]

theorem Value.Alike.coerce (h : v.Alike F v') (k : ParamKind) :
    (k.coerce v).Alike F (k.coerce v') := by
  cases k with
  | any => exact h
  | only k => exact h.converted k

theorem Signature.score?_eq (s : Signature) (h : List.Forall₂ (Value.Alike F) args args') :
    s.score? args' = s.score? args := by
  have hfits (slots : List Slot) :
      slots.zipWith (fun slot v => (slot, slot.kind.fit v)) args'
        = slots.zipWith (fun slot v => (slot, slot.kind.fit v)) args := by
    induction h generalizing slots with
    | nil => rfl
    | cons hv _ ih =>
        cases slots with
        | nil => rfl
        | cons slot slots => rw [List.zipWith_cons_cons, List.zipWith_cons_cons, hv.fit_eq, ih]
  unfold score?
  rw [← h.length_eq]
  simp only [hfits]

theorem Signature.bind_alike (s : Signature) (h : List.Forall₂ (Value.Alike F) args args') :
    (s.bind args).Alike F (s.bind args') := by
  have hbound (slots : List Slot) :
      List.Forall₂ (fun b b' : Bool × Value => b'.1 = b.1 ∧ b.2.Alike F b'.2)
        (slots.zipWith (fun slot v => (slot.isVariadic, slot.kind.coerce v)) args)
        (slots.zipWith (fun slot v => (slot.isVariadic, slot.kind.coerce v)) args') := by
    induction h generalizing slots with
    | nil =>
        rw [List.zipWith_nil_right]
        exact .nil
    | cons hv _ ih =>
        cases slots with
        | nil => exact .nil
        | cons slot slots => exact .cons ⟨rfl, hv.coerce slot.kind⟩ (ih slots)
  have hpicked (keep : Bool → Bool) {bs bs' : List (Bool × Value)}
      (h : List.Forall₂ (fun b b' : Bool × Value => b'.1 = b.1 ∧ b.2.Alike F b'.2) bs bs') :
      List.Forall₂ (Value.Alike F) ((bs.filter fun b => keep b.1).map (·.2))
        ((bs'.filter fun b => keep b.1).map (·.2)) := by
    refine List.rel_map (fun _ _ hb => hb.2) (List.rel_filter (fun b b' hb => ?_) h)
    beta_reduce
    rw [hb.1]
  unfold bind
  rw [← h.length_eq]
  exact ⟨hpicked (!·) (hbound _), hpicked id (hbound _)⟩

theorem Overload.select_eq (name : String) (overloads : List Overload)
    (h : List.Forall₂ (Value.Alike F) args args') :
    select name overloads args' = select name overloads args := by
  have hkinds : args'.map Value.kind = args.map Value.kind := by
    induction h with
    | nil => rfl
    | cons hv _ ih => rw [List.map_cons, List.map_cons, hv.kind_eq, ih]
  have hmeet : meet args' = meet args := by
    funext best o
    rw [meet, meet, o.signature.score?_eq h]
  unfold select
  rw [hmeet, hkinds]

end Signatures

/-! ### Reading arguments -/

namespace Arguments.Alike

variable {args args' : Arguments}

theorem get?_rel (h : args.Alike F args') (k : Nat) :
    Option.Rel (Value.Alike F) (args.get? k) (args'.get? k) := by
  have hat {vs vs' : List Value} (h : List.Forall₂ (Value.Alike F) vs vs') (k : Nat) :
      Option.Rel (Value.Alike F) vs[k]? vs'[k]? := by
    induction h generalizing k with
    | nil => exact .none
    | cons hv _ ih =>
        cases k with
        | zero => exact .some hv
        | succ k => exact ih k
  exact hat h.fixed k

/-- What sees no functions reads the same. -/
theorem read_eq (h : args.Alike F args') {α : Type} {f : Value → Option α}
    (hf : ∀ v v', v.Alike F v' → f v' = f v) (expected : String) (k : Nat) :
    args'.read expected f k = args.read expected f k := by
  have hget := h.get?_rel k
  unfold read
  generalize args.get? k = x, args'.get? k = x' at hget
  cases hget with
  | none => rfl
  | some hv =>
      simp only [Option.bind_some, hf _ _ hv, wrongKind, Option.elim_some, hv.kind_eq]

theorem scalar_eq (h : args.Alike F args') (k : Nat) : args'.scalar k = args.scalar k :=
  h.read_eq (fun _ _ hv => hv.scalar?_eq) _ k

theorem real_eq (h : args.Alike F args') (k : Nat) : args'.real k = args.real k :=
  h.read_eq (fun _ _ hv => by rw [Value.real?, Value.real?, hv.scalar?_eq]) _ k

theorem count_eq (h : args.Alike F args') (k : Nat) : args'.count k = args.count k :=
  h.read_eq (fun _ _ hv => by
    rw [Value.count?, Value.count?, Value.real?, Value.real?, hv.scalar?_eq])
    _ k

theorem matrix_eq (h : args.Alike F args') (k : Nat) : args'.matrix k = args.matrix k :=
  h.read_eq (fun _ _ hv => by cases hv <;> rfl) _ k

theorem text_eq (h : args.Alike F args') (k : Nat) : args'.text k = args.text k :=
  h.read_eq (fun _ _ hv => hv.text?_eq) _ k

theorem set_eq (h : args.Alike F args') (k : Nat) : args'.set k = args.set k :=
  h.read_eq (fun _ _ hv => by cases hv <;> rfl) _ k

theorem filterMap_rest_eq (h : args.Alike F args') {α : Type} {f : Value → Option α}
    (hf : ∀ v v', v.Alike F v' → f v' = f v) : args'.rest.filterMap f = args.rest.filterMap f := by
  have hrest {vs vs' : List Value} (h : List.Forall₂ (Value.Alike F) vs vs') :
      vs'.filterMap f = vs.filterMap f := by
    induction h with
    | nil => rfl
    | cons hv _ ih => rw [List.filterMap_cons, List.filterMap_cons, hf _ _ hv, ih]
  exact hrest h.rest

end Arguments.Alike

/-! ### Functions -/

/-- Arguments that are alike give values that are, and leave the variables so. -/
def Native.Respects (I : Environment → Environment → Prop) (F : Callable → Callable → Prop)
    (f : Native) : Prop :=
  ∀ name args args', args.Alike F args' →
    Paired I Eq (Value.Alike F) (f name args) (f name args')

/-- A function that sees no functions in its arguments, and gives none. -/
structure Plain (f : Arguments → Result Value) : Prop where
  same : ∀ (F : Callable → Callable → Prop) args args', args.Alike F args' → f args' = f args
  gives : ∀ args, Yields (f args) Value.IsPlain

theorem Native.Respects.ofResult {f : Arguments → Result Value}
    (h : ∀ args args', args.Alike F args' → Concur Eq (Value.Alike F) (f args) (f args')) :
    Native.Respects I F (.ofResult f) :=
  fun _ args args' hargs _ _ he => ⟨he, h args args' hargs⟩

theorem concur_same {x : Result Value} (h : Yields x fun v => v.Alike F v) :
    Concur Eq (Value.Alike F) x x := by
  cases x with
  | ok v => exact .ok (h v rfl)
  | error fault => exact .error rfl

theorem Native.Respects.of_plain {f : Arguments → Result Value} (h : Plain f) :
    Native.Respects I F (.ofResult f) :=
  .ofResult fun args args' hargs => by
    rw [h.same F args args' hargs]
    exact concur_same ((h.gives args).imp fun _ hv => .of_isPlain hv)

def Overload.Respects (I : Environment → Environment → Prop) (F : Callable → Callable → Prop)
    (o : Overload) : Prop :=
  Native.Respects I F o.run

def RespectingTable (I : Environment → Environment → Prop) (F : Callable → Callable → Prop)
    (table : List (String × List Overload)) : Prop :=
  ∀ f ∈ table, ∀ o ∈ f.2, o.Respects I F

theorem Library.call_agrees {l : Library} (h : RespectingTable I F l.functions) (name : String)
    {args args' : List Value} (hargs : List.Forall₂ (Value.Alike F) args args') :
    Paired I Eq (Value.Alike F) (l.call name args) (l.call name args') := by
  have hoverloads : ∀ o ∈ l.overloads name, o.Respects I F := by
    intro o ho
    unfold overloads at ho
    cases hfound : l.functions.find? (·.1 == name) with
    | none =>
        rw [hfound] at ho
        cases ho
    | some f =>
        rw [hfound] at ho
        exact h f (List.mem_of_find?_eq_some hfound) o ho
  unfold call
  split
  · exact paired_throw rfl
  · rw [Overload.select_eq name (l.overloads name) hargs]
    split
    · exact paired_throw rfl
    · rename_i o hselect
      exact hoverloads o (Overload.select_mem hselect) name _ _ (o.signature.bind_alike hargs)

end MatrixScript
