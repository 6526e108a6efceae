import MatrixScript.Evaluation.Evaluator
import MatrixScript.Proofs.Alike.Bodies
import MatrixScript.Proofs.Alike.Values

/-!
# Machines side by side

A likeness says which functions and which variables are taken to be alike. It is a lawful one if
looking up, binding, calling and closing over what is alike gives what is alike. Two machines with
variables that are alike then take the steps of evaluation together, at nodes that stand for one
another.
-/

namespace MatrixScript

open Evaluation

/-- How two runs correspond. What is known of the variables changes with the calls that are under
way, which is what a world describes. -/
structure Likeness where
  World : Type
  library : Library
  deadline : Option Deadline
  callables : Callable → Callable → Prop
  environments : World → Environment → Environment → Prop
  /-- The names that may be looked up. -/
  Knows : World → String → Prop
  /-- The spans in bodies of functions. -/
  spans : Span → Span → Prop
  /-- The serial numbers that the next lambdas get. -/
  numbers : Nat → Nat → Prop := fun n n' => n' = n

/-- The same failure up to its span, or the same end without an error. -/
inductive Stop.Alike (R : Span → Span → Prop) : Stop → Stop → Prop where
  | failed {fault : Fault} {notes : List String} {span span' : Option Span}
      (h : Option.Rel R span span') :
      Alike R (.failed ⟨fault, span, notes⟩) (.failed ⟨fault, span', notes⟩)
  | missingNode (id : NodeId) : Alike R (.missingNode id) (.missingNode id)
  | outOfFuel : Alike R .outOfFuel .outOfFuel

theorem Stop.Alike.eq {stop stop' : Stop} (h : stop.Alike Eq stop') : stop' = stop := by
  cases h with
  | failed hspan =>
      cases hspan with
      | none => rfl
      | some hspan => rw [hspan]
  | missingNode id => rfl
  | outOfFuel => rfl

namespace Likeness

variable (L : Likeness)

structure Machines (w : L.World) (m m' : Machine) : Prop where
  environments : L.environments w m.environment m'.environment
  /-- The time is checked only if there is a limit. -/
  checks : L.deadline = none ∨ m'.checks = m.checks
  nextSerial : L.numbers m.nextSerial m'.nextSerial
  extents : m'.extents = m.extents

/-- Two evaluations that take machines that are alike to such machines, with outcomes that are
alike. -/
abbrev Agrees {α : Type} (w : L.World) (R : Span → Span → Prop) (P : α → α → Prop)
    (x x' : Evaluation α) : Prop :=
  Paired (L.Machines w) (Stop.Alike R) P x x'

/-- What a likeness has to respect. -/
structure Lawful : Prop where
  shown : ShownAlike L.callables
  kinds : ∀ f f', L.callables f f' → (∃ name, f = .named name ∧ f' = .named name)
    ∨ ∃ code captures code' captures', f = .lambda code captures ∧ f' = .lambda code' captures'
      ∧ code'.params = code.params
  named : ∀ name, L.callables (.named name) (.named name)
  constants : ∀ name v, L.library.constant? name = some v → v.Alike L.callables v
  lookup : ∀ w e e', L.environments w e e' → ∀ name, L.Knows w name →
    Option.Rel (Value.Alike L.callables) (e.lookup name) (e'.lookup name)
  define : ∀ w e e', L.environments w e e' → ∀ name v v', v.Alike L.callables v' →
    L.environments w (e.define name v) (e'.define name v')
  call : ∀ w name args args', List.Forall₂ (Value.Alike L.callables) args args' →
    Paired (L.environments w) Eq (Value.Alike L.callables) (L.library.call name args)
      (L.library.call name args')
  /-- In a call the bodies stand for one another, and behind it all is as before. -/
  enter : ∀ w e e', L.environments w e e' → ∀ code captures code' captures',
    L.callables (.lambda code captures) (.lambda code' captures') →
    ∀ args args', List.Forall₂ (Value.Alike L.callables) args args' →
      args.length = code.params.length →
      ∃ (inside : L.World) (g : NodeId → NodeId) (D : NodeId → Prop),
        L.environments inside
          (e.push.defineAll (captures.map (fun c => (c.name, c.value)) ++ code.params.zip args))
          (e'.push.defineAll (captures'.map (fun c => (c.name, c.value)) ++ code'.params.zip args'))
        ∧ (∀ x x', L.environments inside x x' → L.environments w x.pop x'.pop)
        ∧ code.forest.Mirrors code'.forest g D (L.Knows inside) L.spans ∧ D code.root
        ∧ code'.root = g code.root
  fresh : ∀ n n', L.numbers n n' → L.numbers (n + 1) (n' + 1)
  close : ∀ w e e', L.environments w e e' → ∀ params root forest forest' n n', L.numbers n n' →
    forest.Alike (L.Knows w) L.spans forest' →
    L.callables
      (.lambda ⟨params, root, forest, some n⟩ (e.capture (Setting.namesIn forest params)))
      (.lambda ⟨params, root, forest', some n'⟩ (e'.capture (Setting.namesIn forest' params)))

/-- The same setting but for the nodes, which stand for one another. -/
structure Settings (w : L.World) (g : NodeId → NodeId) (D : NodeId → Prop) (R : Span → Span → Prop)
    (s s' : Setting) : Prop where
  forest : s.forest.Mirrors s'.forest g D (L.Knows w) R
  spans : ∀ t t', R t t' → L.spans t t'
  library : s.library = L.library
  deadline : s.deadline = L.deadline
  same : s' = { s with forest := s'.forest }

/-- Nodes that stand for one another evaluate alike. -/
def Evaluates (eval eval' : Evaluator) : Prop :=
  ∀ w g D R s s' id, L.Settings w g D R s s' → D id →
    L.Agrees w R (Value.Alike L.callables) (eval s id) (eval' s' (g id))

end Likeness

variable {L : Likeness} {w : L.World} {g : NodeId → NodeId} {D : NodeId → Prop}
  {R : Span → Span → Prop} {s s' : Setting} {α : Type} {P : α → α → Prop}

namespace Evaluation

theorem agrees_fail (fault : Fault) : L.Agrees w R P (fail fault) (fail fault) :=
  paired_throw (.failed .none)

/-- The same operation on both sides. -/
theorem agrees_ofResult {x x' : Result α} (hsame : x' = x) (h : Yields x fun a => P a a) :
    L.Agrees w R P (ofResult x) (ofResult x') := by
  cases hsame
  cases x with
  | ok a => exact paired_pure (h a rfl)
  | error fault => exact agrees_fail fault

theorem agrees_orFail {x x' : Option α} (h : Option.Rel P x x') (fault : Fault) :
    L.Agrees w R P (orFail x fault) (orFail x' fault) := by
  cases h with
  | none => exact agrees_fail fault
  | some h => exact paired_pure h

theorem agrees_native {x x' : ExceptT Fault (StateM Environment) α}
    (h : Paired (L.environments w) Eq P x x') : L.Agrees w R P (native x) (native x') := by
  intro m m' hm
  obtain ⟨henvironments, houtcome⟩ := h m.environment m'.environment hm.environments
  refine ⟨⟨henvironments, hm.checks, hm.nextSerial, hm.extents⟩,
    houtcome.mapError fun fault fault' hsame => ?_⟩
  cases hsame
  exact .failed .none

theorem agrees_freshSerial (hL : L.Lawful) :
    L.Agrees w R L.numbers freshSerial freshSerial :=
  fun _ _ hm =>
    ⟨⟨hm.environments, hm.checks, hL.fresh _ _ hm.nextSerial, hm.extents⟩, .ok hm.nextSerial⟩

theorem agrees_locatedAt {x x' : Evaluation α} (h : L.Agrees w R P x x') {span span' : Span}
    (hspan : R span span') : L.Agrees w R P (x.locatedAt span) (x'.locatedAt span') := by
  intro m m' hm
  obtain ⟨hmachines, houtcome⟩ := h m m' hm
  refine ⟨hmachines, houtcome.mapError fun stop stop' hstop => ?_⟩
  cases hstop with
  | failed hspans =>
      cases hspans with
      | none => exact .failed (.some hspan)
      | some hspans => exact .failed (.some hspans)
  | missingNode id => exact .missingNode id
  | outOfFuel => exact .outOfFuel

/-- An extent that is put on top of the others is taken back from them. -/
theorem agrees_withExtent {x x' : Evaluation α} (h : L.Agrees w R P x x') {extent extent' : Option Nat}
    (hextent : extent' = extent) : L.Agrees w R P (x.withExtent extent) (x'.withExtent extent') := by
  intro m m' hm
  have hinner : L.Machines w { m with extents := extent :: m.extents }
      { m' with extents := extent' :: m'.extents } :=
    ⟨hm.environments, hm.checks, hm.nextSerial, by rw [hextent, hm.extents]⟩
  obtain ⟨hleft, houtcome⟩ := h _ _ hinner
  exact ⟨⟨hleft.environments, hleft.checks, hleft.nextSerial, congrArg List.tail hleft.extents⟩,
    houtcome⟩

/-- The machine that the body of a call starts out with. -/
abbrev opened (m : Machine) (bindings : List (String × Value)) : Machine :=
  { m with environment := m.environment.push.defineAll bindings, extents := [] }

/-- An error leaves a call without its span, so how the spans correspond inside does not matter. -/
theorem concur_inScope {R' : Span → Span → Prop} {m m' : Machine}
    {bindings bindings' : List (String × Value)} {x x' : Evaluation α}
    (h : Concur (Stop.Alike R') P (x.run.run (opened m bindings)).1
      (x'.run.run (opened m' bindings')).1) :
    Concur (Stop.Alike R) P ((inScope bindings x).run.run m).1
      ((inScope bindings' x').run.run m').1 := by
  refine h.mapError fun stop stop' hstop => ?_
  cases hstop with
  | failed _ => exact .failed .none
  | missingNode id => exact .missingNode id
  | outOfFuel => exact .outOfFuel

theorem agrees_inScope {bindings bindings' : List (String × Value)} {x x' : Evaluation α}
    (h : ∀ e e', L.environments w e e' → ∃ (inside : L.World) (R' : Span → Span → Prop),
      L.environments inside (e.push.defineAll bindings) (e'.push.defineAll bindings')
      ∧ (∀ e e', L.environments inside e e' → L.environments w e.pop e'.pop)
      ∧ L.Agrees inside R' P x x') :
    L.Agrees w R P (inScope bindings x) (inScope bindings' x') := by
  intro m m' hm
  obtain ⟨inside, R', hopen, hclose, hbody⟩ := h _ _ hm.environments
  have hinside : L.Machines inside (opened m bindings) (opened m' bindings') :=
    ⟨hopen, hm.checks, hm.nextSerial, rfl⟩
  obtain ⟨hleft, houtcome⟩ := hbody _ _ hinside
  exact ⟨⟨hclose _ _ hleft.environments, hleft.checks, hleft.nextSerial, hm.extents⟩,
    concur_inScope houtcome⟩

end Evaluation

namespace Evaluation

theorem agrees_lastIndex : L.Agrees w R (Value.Alike L.callables) lastIndex lastIndex := by
  refine paired_get.bind fun m m' hm => ?_
  rw [hm.extents]
  split
  · exact paired_pure (.scalar _)
  · exact agrees_fail _
  · exact agrees_fail _

end Evaluation

namespace Likeness.Lawful

variable (hL : L.Lawful)
include hL

theorem visible? {name : String} (hname : L.Knows w name) :
    L.Agrees w R (Option.Rel (Value.Alike L.callables)) (Evaluation.visible? name)
      (Evaluation.visible? name) :=
  paired_get.bind fun _ _ hm => paired_pure (hL.lookup w _ _ hm.environments name hname)

theorem define_agrees (name : String) {v v' : Value} (hv : v.Alike L.callables v') :
    L.Agrees w R (fun _ _ => True) (Evaluation.define name v) (Evaluation.define name v') :=
  paired_modify fun _ _ hm =>
    ⟨hL.define w _ _ hm.environments name v v' hv, hm.checks, hm.nextSerial, hm.extents⟩

theorem defineAll {e e' : Environment} (he : L.environments w e e')
    {bindings : List (String × Value)} (h : ∀ b ∈ bindings, b.2.IsPlain) :
    L.environments w (e.defineAll bindings) (e'.defineAll bindings) := by
  induction bindings generalizing e e' with
  | nil => exact he
  | cons b bindings ih =>
      obtain ⟨hb, hrest⟩ := List.forall_mem_cons.mp h
      exact ih (hL.define w e e' he b.1 b.2 b.2 (.of_isPlain hb)) hrest

theorem value? {name : String} {v : Value} (hv : L.library.value? name = some v) :
    v.Alike L.callables v := by
  rcases Option.or_eq_some_iff.mp hv with hconstant | ⟨-, hfunction⟩
  · exact hL.constants name v hconstant
  · split at hfunction
    · obtain rfl := Option.some.inj hfunction
      exact .function (hL.named name)
    · cases hfunction

end Likeness.Lawful

namespace Likeness.Settings

variable (hs : L.Settings w g D R s s')
include hs

theorem library' : s'.library = L.library := by rw [hs.same, hs.library]

theorem check : L.Agrees w R (fun _ _ => True) s.check s'.check := by
  have hcheck : s'.check = s.check := by
    rw [hs.same]
    rfl
  rw [hcheck]
  unfold Setting.check
  split
  · exact paired_pure trivial
  · rename_i hdeadline
    refine Paired.bind (P := Eq) (fun m m' hm => ?_) fun n _ hn => ?_
    · have hchecks : m'.checks = m.checks := hm.checks.resolve_left fun hnone => by
        rw [hs.deadline, hnone] at hdeadline
        cases hdeadline
      exact ⟨⟨hm.environments, .inr (congrArg (· + 1) hchecks), hm.nextSerial, hm.extents⟩,
        .ok hchecks.symm⟩
    · subst hn
      split
      · exact agrees_fail _
      · exact paired_pure trivial

theorem node {id : NodeId} (hid : D id) :
    L.Agrees w R
      (fun n n' => s.forest.get? id = some n ∧ n'.kind = n.kind.map g ∧ R n.span n'.span)
      (s.node id) (s'.node (g id)) := by
  have hnodes := hs.forest.node id hid
  unfold Setting.node
  generalize s'.forest.get? (g id) = found at hnodes
  cases hnode : s.forest.get? id with
  | none =>
      rw [hnode] at hnodes
      cases hnodes
      rw [hs.forest.missing id hid hnode]
      exact paired_throw (.missingNode id)
  | some node =>
      rw [hnode] at hnodes
      cases hnodes with
      | some h => exact paired_pure ⟨rfl, h⟩

/-- What is known of a node that is looked at: its counterpart, where its children lead, and that
its name is one that may be looked up. -/
theorem kind {id : NodeId} (hid : D id) :
    L.Agrees w R
      (fun k k' => k' = k.map g ∧ k.Guided g D ∧ ∀ name, k = .name name → L.Knows w name)
      (s.kind id) (s'.kind (g id)) := by
  refine (hs.node hid).bind fun n n' ⟨hnode, hkind, _⟩ => paired_pure ⟨hkind, ?_, ?_⟩
  · exact hs.forest.guided id n hid hnode
  · exact hs.forest.known id n hid hnode

theorem lookup (hL : L.Lawful) {name : String} (hname : L.Knows w name) :
    L.Agrees w R (Value.Alike L.callables) (s.lookup name) (s'.lookup name) := by
  unfold Setting.lookup
  rw [hs.library, hs.library']
  refine (hL.visible? hname).bind fun x x' hx => agrees_orFail ?_ _
  cases hx with
  | some hv => exact .some hv
  | none =>
      rw [Option.none_or]
      cases hvalue : L.library.value? name with
      | none => exact .none
      | some v => exact .some (hL.value? hvalue)

end Likeness.Settings

end MatrixScript
