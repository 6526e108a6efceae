import MatrixScript.Evaluation.Evaluator
import MatrixScript.Proofs.Alike.Values
import MatrixScript.Proofs.Values.Keeping

/-!
# Contracts of evaluation

Much of what is proved of evaluation has the same form. The variables have an invariant before a
step and after it, whether the step succeeds or not; the values that go around are good ones; an
error is one of those that may come from there. And where a second run goes on beside the first one,
deeper in its calls or under observation, it takes the same steps, unless the first one is cut off.

A contract says what all this means, and it is lawful if the single steps respect it. Then the whole
evaluation fulfils it, which is proved once for all contracts.
-/

namespace MatrixScript

open Evaluation

/-- Operations on values that have the property give values that have it. The matrices that a
literal is joined from have it, too. -/
structure Value.Closed (p : Value → Prop) : Prop where
  scalar : ∀ z, p (.scalar z)
  text : ∀ t, p (.text t)
  empty : p .emptyMatrix
  ofMatrix : ∀ m, p (.matrix m) → p (.ofMatrix m)
  matrix? : ∀ v, p v → ∀ m, v.matrix? = some m → p (.matrix m)
  beside : ∀ m, p (.matrix m) → ∀ n, p (.matrix n) →
    Yields (m.beside n) fun joined => p (.matrix joined)
  above : ∀ m, p (.matrix m) → ∀ n, p (.matrix n) →
    Yields (m.above n) fun joined => p (.matrix joined)
  unary : ∀ op v, p v → Yields (unary op v) p
  binary : ∀ op v, p v → ∀ w, p w → Yields (binary op v w) p
  range : ∀ start stop, Yields (makeRange start stop) p
  index : ∀ target, p target → ∀ args, (∀ arg ∈ args, ∀ v, arg = .value v → p v) →
    Yields (target.index args) p
  assignIndex : ∀ target, p target → ∀ args v, Yields (target.assignIndex args v) p

theorem Value.Closed.and {p q : Value → Prop} (hp : Closed p) (hq : Closed q) :
    Closed fun v => p v ∧ q v where
  scalar z := ⟨hp.scalar z, hq.scalar z⟩
  text t := ⟨hp.text t, hq.text t⟩
  empty := ⟨hp.empty, hq.empty⟩
  ofMatrix m hm := ⟨hp.ofMatrix m hm.1, hq.ofMatrix m hm.2⟩
  matrix? v hv m hm := ⟨hp.matrix? v hv.1 m hm, hq.matrix? v hv.2 m hm⟩
  beside m hm n hn := (hp.beside m hm.1 n hn.1).and (hq.beside m hm.2 n hn.2)
  above m hm n hn := (hp.above m hm.1 n hn.1).and (hq.above m hm.2 n hn.2)
  unary op v hv := (hp.unary op v hv.1).and (hq.unary op v hv.2)
  binary op v hv w hw := (hp.binary op v hv.1 w hw.1).and (hq.binary op v hv.2 w hw.2)
  range start stop := (hp.range start stop).and (hq.range start stop)
  index target htarget args hargs :=
    (hp.index target htarget.1 args fun arg harg v hv => (hargs arg harg v hv).1).and
      (hq.index target htarget.2 args fun arg harg v hv => (hargs arg harg v hv).2)
  assignIndex target htarget args v :=
    (hp.assignIndex target htarget.1 args v).and (hq.assignIndex target htarget.2 args v)

/-- What operations on values give has no functions in it. -/
theorem Value.closed_of_plain {p : Value → Prop} (h : ∀ v, v.IsPlain → p v) : Closed p where
  scalar _ := h _ ⟨nofun, nofun⟩
  text _ := h _ ⟨nofun, nofun⟩
  empty := h _ ⟨nofun, nofun⟩
  ofMatrix m _ := h _ (isPlain_ofMatrix m)
  matrix? _ _ _ _ := h _ ⟨nofun, nofun⟩
  beside _ _ _ _ _ _ := h _ ⟨nofun, nofun⟩
  above _ _ _ _ _ _ := h _ ⟨nofun, nofun⟩
  unary op v _ := (unary_isPlain op v).imp h
  binary op v _ w _ := (binary_isPlain op v w).imp h
  range start stop := (makeRange_isPlain start stop).imp h
  index target _ args _ := (index_isPlain target args).imp h
  assignIndex target _ args v := (assignIndex_isPlain target args v).imp h

/-- Where a contract does not say more, everything is allowed, and the second run is like the first
one to its end. -/
structure Contract where
  library : Library
  /-- How deep the first run is in its calls, and the second one. -/
  Depths : Depth → Depth → Prop := fun d d' => d' = d
  /-- The nodes that may be evaluated. -/
  Runs : Forest → NodeId → Prop := fun _ _ => True
  Good : Value → Prop := fun _ => True
  Invariant : Depth → Environment → Prop := fun _ _ => True
  /-- The errors that can come from the nodes of a forest. -/
  Fails : Forest → EvalError → Prop := fun _ _ => True
  /-- Whether evaluation may come to a link that leads nowhere. -/
  Misses : Prop := True
  /-- The faults behind which the second run need not be like the first one. -/
  Cut : Fault → Prop := fun _ => False

abbrev Setting.withDepth (s : Setting) (depth : Depth) : Setting := { s with depth }

namespace Contract

variable {α β γ : Type} (C : Contract)

/-- The children that are evaluated if they are there may be evaluated. -/
def RunsBelow (f : Forest) (k : NodeKind NodeId) : Prop :=
  ∀ slot ∈ k.slots, (slot.2 = true → slot.1.isPresent = true) → C.Runs f slot.1

/-- Where values come from. -/
structure ValueLaws : Prop where
  closed : Value.Closed C.Good
  named : ∀ name, C.Good (.function (.named name))
  constant : ∀ name v, C.library.constant? name = some v → C.Good v
  captured : ∀ code captures, C.Good (.function (.lambda code captures)) →
    ∀ c ∈ captures, C.Good c.value
  lookup : ∀ d e, C.Invariant d e → ∀ name v, e.lookup name = some v → C.Good v
  /-- The function that the lambda expression at a node makes. -/
  close : ∀ d e, C.Invariant d e → ∀ f id node, C.Runs f id → f.get? id = some node →
    ∀ params body, node.kind = .lambda params body →
      ∀ root forest, f.extract body = .ok (root, forest) → ∀ names serial,
        C.Good (.function (.lambda ⟨params, root, forest, serial⟩ (e.capture names)))

/-- Where evaluation gets to. -/
structure NodeLaws : Prop where
  body : ∀ code captures, C.Good (.function (.lambda code captures)) → C.Runs code.forest code.root
  below : ∀ f id, C.Runs f id → ∀ node, f.get? id = some node → C.RunsBelow f node.kind
  missing : ∀ f id, C.Runs f id → f.get? id = none → C.Misses
  uncopied : ∀ f id, C.Runs f id → ∀ i, f.extract id = .error i → C.Misses

/-- How the two runs start a call. -/
structure DepthLaws : Prop where
  enter : ∀ d d', C.Depths d d' → ∀ inner, d.enter? = some inner →
    ∃ inner', d'.enter? = some inner' ∧ C.Depths inner inner'
  limit : ∀ d d', C.Depths d d' → d.enter? = none → d' = d ∨ C.Cut (.recursionLimit d.limit)

/-- What changes the variables. -/
structure InvariantLaws : Prop where
  define : ∀ d e, C.Invariant d e → ∀ name v, C.Good v → C.Invariant d (e.define name v)
  call : ∀ d name args, (∀ v ∈ args, C.Good v) →
    Keeps (C.Invariant d) (C.library.call name args) C.Good
  push : ∀ d inner, d.enter? = some inner → ∀ e, C.Invariant d e → C.Invariant inner e.push
  pop : ∀ d inner, d.enter? = some inner → ∀ e, C.Invariant d e →
    ∀ left, C.Invariant inner left → C.Invariant d left.pop

/-- What becomes of an error on its way out. -/
structure FailureLaws : Prop where
  fault : ∀ f fault, C.Fails f (.ofFault fault)
  locatedAt : ∀ f e, C.Fails f e → ∀ id node, f.get? id = some node →
    C.Fails f (e.locatedAt node.span)
  unlocated : ∀ f e, C.Fails f e → ∀ g, C.Fails g { e with span := none }

/-- What the single steps have to respect. -/
structure Lawful : Prop extends C.ValueLaws, C.NodeLaws, C.DepthLaws, C.InvariantLaws,
  C.FailureLaws

variable {C}

theorem valueLaws_of_forall (h : ∀ v, C.Good v) : C.ValueLaws :=
  ⟨Value.closed_of_plain fun v _ => h v, fun _ => h _, fun _ v _ => h v, fun _ _ _ c _ => h c.value,
    fun _ _ _ _ v _ => h v, fun _ _ _ _ _ _ _ _ _ _ _ _ _ _ _ _ => h _⟩

theorem nodeLaws_of_forall (h : ∀ f id, C.Runs f id) (hmisses : C.Misses) : C.NodeLaws :=
  ⟨fun code _ _ => h code.forest code.root, fun f _ _ _ _ slot _ _ => h f slot.1,
    fun _ _ _ _ => hmisses, fun _ _ _ _ _ => hmisses⟩

theorem depthLaws_of_eq (h : ∀ d d', C.Depths d d' ↔ d' = d) : C.DepthLaws where
  enter d d' hd inner hinner := by
    obtain rfl := (h d d').mp hd
    exact ⟨inner, hinner, (h inner inner).mpr rfl⟩
  limit d d' hd _ := .inl ((h d d').mp hd)

theorem invariantLaws_of_forall (h : ∀ d e, C.Invariant d e) (hgood : ∀ v, C.Good v) :
    C.InvariantLaws :=
  ⟨fun d _ _ _ _ _ => h d _, fun d _ _ _ _ _ => ⟨h d _, fun v _ => hgood v⟩,
    fun _ inner _ _ _ => h inner _, fun d _ _ _ _ _ _ => h d _⟩

theorem failureLaws_of_forall (h : ∀ f e, C.Fails f e) : C.FailureLaws :=
  ⟨fun f _ => h f _, fun f _ _ _ _ _ => h f _, fun _ _ _ g => h g _⟩

variable (C)

/-- An outcome that the contract allows. -/
def Ends (f : Forest) (P : α → Prop) : Except Stop α → Prop
  | .ok a => P a
  | .error (.failed e) => C.Fails f e
  | .error (.missingNode _) => C.Misses
  | .error .outOfFuel => True

/-- What is left behind an evaluation: the variables have the invariant, and `end` stands for what
it stood for, whatever the contract is. -/
structure Leaves (d : Depth) (m left : Machine) : Prop where
  invariant : C.Invariant d left.environment
  extents : left.extents = m.extents

/-- Started with the invariant, the first evaluation is cut off, or the second one goes the same way
and what happens is within the contract. -/
def Fulfils (s : Setting) (P : α → Prop) (x x' : Evaluation α) : Prop :=
  ∀ m, C.Invariant s.depth m.environment →
    (∃ e, (x.run.run m).1 = .error (.failed e) ∧ C.Cut e.fault)
      ∨ (x'.run.run m = x.run.run m ∧ C.Leaves s.depth m (x.run.run m).2
        ∧ C.Ends s.forest P (x.run.run m).1)

/-- The setting is one for the first run, and at the other depth one for the second run. -/
structure Settings (s : Setting) (depth : Depth) : Prop where
  library : s.library = C.library
  depths : C.Depths s.depth depth

def Evaluates (eval eval' : Evaluator) : Prop :=
  ∀ s d id, C.Settings s d → C.Runs s.forest id →
    C.Fulfils s C.Good (eval s id) (eval' (s.withDepth d) id)

end Contract

variable {α β γ : Type} {C : Contract} {s : Setting} {d : Depth} {P : α → Prop} {R : β → Prop}
  {x x' : Evaluation α} {a : α}

/-! ### Putting evaluations together -/

namespace Contract

/-- Nothing happens to the variables, and the outcome is one that the contract allows. -/
theorem fulfils_const {r : Except Stop α} (h : C.Ends s.forest P r) :
    C.Fulfils s P (ExceptT.mk (pure r)) (ExceptT.mk (pure r)) :=
  fun _ hm => .inr ⟨rfl, ⟨hm, rfl⟩, h⟩

theorem fulfils_pure (h : P a) : C.Fulfils s P (pure a) (pure a) :=
  fulfils_const (r := .ok a) h

theorem fulfils_outOfFuel : C.Fulfils s P (throw .outOfFuel) (throw .outOfFuel) :=
  fulfils_const (r := .error .outOfFuel) trivial

/-- Where nothing may cut a run off. -/
theorem Fulfils.uncut (h : C.Fulfils s P x x') (hcut : ∀ fault, ¬ C.Cut fault) {m : Machine}
    (hm : C.Invariant s.depth m.environment) :
    x'.run.run m = x.run.run m ∧ C.Leaves s.depth m (x.run.run m).2
      ∧ C.Ends s.forest P (x.run.run m).1 :=
  (h m hm).resolve_left fun ⟨e, _, he⟩ => hcut e.fault he

theorem Fulfils.bind {f f' : α → Evaluation β} (h : C.Fulfils s P x x')
    (hf : ∀ a, P a → C.Fulfils s R (f a) (f' a)) : C.Fulfils s R (x >>= f) (x' >>= f') := by
  intro m hm
  rw [ExceptT.run_bind, StateT.run_bind, ExceptT.run_bind, StateT.run_bind]
  have hx := h m hm
  cases hrun : x.run.run m with
  | mk r left =>
      rw [hrun] at hx
      rcases hx with ⟨e, hfailed, hcut⟩ | ⟨hsame, hleft, hends⟩
      · obtain rfl : r = .error (.failed e) := hfailed
        exact .inl ⟨e, rfl, hcut⟩
      · rw [hsame]
        cases r with
        | ok a =>
            refine (hf a hends left hleft.invariant).imp id fun ⟨hsame', hleft', hends'⟩ => ?_
            exact ⟨hsame', ⟨hleft'.invariant, hleft'.extents.trans hleft.extents⟩, hends'⟩
        | error stop =>
            refine .inr ⟨rfl, hleft, ?_⟩
            cases stop <;> exact hends

theorem fulfils_mapM {xs : List γ} {f f' : γ → Evaluation β}
    (h : ∀ c ∈ xs, C.Fulfils s R (f c) (f' c)) :
    C.Fulfils s (fun ys => ∀ b ∈ ys, R b) (xs.mapM f) (xs.mapM f') := by
  induction xs with
  | nil => exact fulfils_pure nofun
  | cons c xs ih =>
      obtain ⟨hc, hxs⟩ := List.forall_mem_cons.mp h
      rw [List.mapM_cons, List.mapM_cons]
      refine hc.bind fun b hb => (ih hxs).bind fun ys hys => fulfils_pure ?_
      exact List.forall_mem_cons.mpr ⟨hb, hys⟩

theorem fulfils_foldlM {xs : List γ} {f f' : α → γ → Evaluation α} (ha : P a)
    (h : ∀ a, P a → ∀ c ∈ xs, C.Fulfils s P (f a c) (f' a c)) :
    C.Fulfils s P (xs.foldlM f a) (xs.foldlM f' a) := by
  induction xs generalizing a with
  | nil => exact fulfils_pure ha
  | cons c xs ih =>
      rw [List.foldlM_cons, List.foldlM_cons]
      refine (h a ha c List.mem_cons_self).bind fun b hb => ih hb fun a ha c hc => ?_
      exact h a ha c (List.mem_cons_of_mem _ hc)

/-- An extent that is put on top of the others is taken back from them. -/
theorem Fulfils.withExtent (h : C.Fulfils s P x x') (extent : Option Nat) :
    C.Fulfils s P (Evaluation.withExtent extent x) (Evaluation.withExtent extent x') := by
  intro m hm
  let inner : Machine := { m with extents := extent :: m.extents }
  refine (h inner hm).imp id fun ⟨hsame, hleft, hends⟩ => ⟨?_, ⟨hleft.invariant, ?_⟩, hends⟩
  · change ((x'.run.run inner).1, { (x'.run.run inner).2 with
      extents := (x'.run.run inner).2.extents.tail }) = _
    rw [hsame]
    rfl
  · change (x.run.run inner).2.extents.tail = m.extents
    rw [hleft.extents]
    rfl

end Contract

/-! ### Steps of the machine -/

namespace Contract.Lawful

variable (hC : C.Lawful)
include hC

theorem fail (fault : Fault) : C.Fulfils s P (Evaluation.fail fault) (Evaluation.fail fault) :=
  fulfils_const (r := .error (.failed (.ofFault fault))) (hC.fault s.forest fault)

theorem ofResult {y : Result α} (h : Yields y P) :
    C.Fulfils s P (Evaluation.ofResult y) (Evaluation.ofResult y) := by
  cases y with
  | error fault => exact hC.fail fault
  | ok a => exact fulfils_pure (h a rfl)

theorem orFail {y : Option α} (h : ∀ a, y = some a → P a) (fault : Fault) :
    C.Fulfils s P (Evaluation.orFail y fault) (Evaluation.orFail y fault) := by
  cases y with
  | none => exact hC.fail fault
  | some a => exact fulfils_pure (h a rfl)

theorem visible? (name : String) :
    C.Fulfils s (fun x => ∀ v, x = some v → C.Good v) (Evaluation.visible? name)
      (Evaluation.visible? name) :=
  fun m hm => .inr ⟨rfl, ⟨hm, rfl⟩, fun v hv => hC.lookup s.depth m.environment hm name v hv⟩

theorem invariant_defineAll {e : Environment} (he : C.Invariant d e)
    {bindings : List (String × Value)} (h : ∀ b ∈ bindings, C.Good b.2) :
    C.Invariant d (e.defineAll bindings) := by
  induction bindings generalizing e with
  | nil => exact he
  | cons b bindings ih =>
      obtain ⟨hb, hrest⟩ := List.forall_mem_cons.mp h
      exact ih (hC.define d e he b.1 b.2 hb) hrest

theorem defineAll {bindings : List (String × Value)} (h : ∀ b ∈ bindings, C.Good b.2) :
    C.Fulfils s (fun _ => True) (modifyEnvironment (·.defineAll bindings))
      (modifyEnvironment (·.defineAll bindings)) :=
  fun _ hm => .inr ⟨rfl, ⟨hC.invariant_defineAll hm h, rfl⟩, trivial⟩

theorem define_fulfils (name : String) {v : Value} (hv : C.Good v) :
    C.Fulfils s (fun _ => True) (Evaluation.define name v) (Evaluation.define name v) :=
  fun m hm => .inr ⟨rfl, ⟨hC.define s.depth m.environment hm name v hv, rfl⟩, trivial⟩

theorem native (hs : C.Settings s d) (name : String) {args : List Value}
    (hargs : ∀ v ∈ args, C.Good v) :
    C.Fulfils s C.Good (Evaluation.native (s.library.call name args))
      (Evaluation.native (s.library.call name args)) := by
  intro m hm
  have hcall := hC.call s.depth name args hargs m.environment hm
  rw [← hs.library] at hcall
  obtain ⟨hleft, hgives⟩ := hcall
  refine .inr ⟨rfl, ⟨hleft, rfl⟩, ?_⟩
  change C.Ends s.forest C.Good (((s.library.call name args).run.run m.environment).1.mapError _)
  generalize ((s.library.call name args).run.run m.environment).1 = r at hgives
  cases r with
  | ok v => exact hgives v rfl
  | error fault => exact hC.fault s.forest fault

/-- An error is placed at the node that is evaluated. -/
theorem located (h : C.Fulfils s P x x') {id : NodeId} {node : Node}
    (hnode : s.forest.get? id = some node) :
    C.Fulfils s P (x.locatedAt node.span) (x'.locatedAt node.span) := by
  intro m hm
  rcases h m hm with ⟨e, hfailed, hcut⟩ | ⟨hsame, hleft, hends⟩
  · refine .inl ⟨e.locatedAt node.span, ?_, hcut⟩
    change (x.run.run m).1.mapError _ = _
    rw [hfailed]
    rfl
  · refine .inr ⟨?_, hleft, ?_⟩
    · change ((x'.run.run m).1.mapError _, (x'.run.run m).2) = _
      rw [hsame]
      rfl
    · change C.Ends s.forest P ((x.run.run m).1.mapError _)
      generalize (x.run.run m).1 = r at hends
      cases r with
      | ok a => exact hends
      | error stop =>
          cases stop with
          | failed e => exact hC.locatedAt s.forest e hends id node hnode
          | missingNode id => exact hends
          | outOfFuel => exact hends

/-- The body of a call runs one level deeper, and an error leaves it without its span. -/
theorem inScope {inner : Setting} (hinner : s.depth.enter? = some inner.depth)
    {bindings : List (String × Value)} (hbindings : ∀ b ∈ bindings, C.Good b.2)
    (h : C.Fulfils inner P x x') :
    C.Fulfils s P (Evaluation.inScope bindings x) (Evaluation.inScope bindings x') := by
  intro m hm
  let opened : Machine :=
    { m with environment := m.environment.push.defineAll bindings, extents := [] }
  have hopened : C.Invariant inner.depth opened.environment :=
    hC.invariant_defineAll (hC.push _ _ hinner _ hm) hbindings
  rcases h opened hopened with ⟨e, hfailed, hcut⟩ | ⟨hsame, hleft, hends⟩
  · refine .inl ⟨{ e with span := none }, ?_, hcut⟩
    change (x.run.run opened).1.mapError _ = _
    rw [hfailed]
    rfl
  · refine .inr ⟨?_, ⟨hC.pop _ _ hinner _ hm _ hleft.invariant, rfl⟩, ?_⟩
    · change ((x'.run.run opened).1.mapError _, { (x'.run.run opened).2 with
        environment := (x'.run.run opened).2.environment.pop, extents := m.extents }) = _
      rw [hsame]
      rfl
    · change C.Ends s.forest P ((x.run.run opened).1.mapError _)
      generalize (x.run.run opened).1 = r at hends
      cases r with
      | ok a => exact hends
      | error stop =>
          cases stop with
          | failed e => exact hC.unlocated inner.forest e hends s.forest
          | missingNode id => exact hends
          | outOfFuel => exact hends

/-! ### Steps in a setting -/

theorem check : C.Fulfils s (fun _ => True) s.check (s.withDepth d).check := by
  change C.Fulfils s (fun _ => True) s.check s.check
  unfold Setting.check
  split
  · exact fulfils_pure trivial
  · refine Fulfils.bind (P := fun _ => True)
      (fun _ hm => .inr ⟨rfl, ⟨hm, rfl⟩, trivial⟩) fun n _ => ?_
    split
    · exact hC.fail _
    · exact fulfils_pure trivial

theorem node {id : NodeId} (hid : C.Runs s.forest id) :
    C.Fulfils s (fun node => s.forest.get? id = some node) (s.node id)
      ((s.withDepth d).node id) := by
  change C.Fulfils s _ (s.node id) (s.node id)
  unfold Setting.node
  cases hnode : s.forest.get? id with
  | some node => exact fulfils_pure rfl
  | none => exact fulfils_const (r := .error (.missingNode id)) (hC.missing s.forest id hid hnode)

theorem kind {id : NodeId} (hid : C.Runs s.forest id) :
    C.Fulfils s (C.RunsBelow s.forest) (s.kind id) ((s.withDepth d).kind id) :=
  (hC.node (d := d) hid).bind fun node hnode => fulfils_pure (hC.below s.forest id hid node hnode)

theorem value? (hs : C.Settings s d) {name : String} {v : Value}
    (hv : s.library.value? name = some v) : C.Good v := by
  rw [hs.library] at hv
  rcases Option.or_eq_some_iff.mp hv with hconstant | ⟨-, hfunction⟩
  · exact hC.constant name v hconstant
  · split at hfunction
    · obtain rfl := Option.some.inj hfunction
      exact hC.named name
    · cases hfunction

theorem lookup_fulfils (hs : C.Settings s d) (name : String) :
    C.Fulfils s C.Good (s.lookup name) ((s.withDepth d).lookup name) := by
  refine (hC.visible? name).bind fun x hx => hC.orFail (fun v hv => ?_) _
  rcases Option.or_eq_some_iff.mp hv with hvisible | ⟨-, hlibrary⟩
  · exact hx v hvisible
  · exact hC.value? hs hlibrary

theorem lastIndex : C.Fulfils s C.Good Evaluation.lastIndex Evaluation.lastIndex := by
  refine Fulfils.bind (P := fun _ => True)
    (fun _ hm => .inr ⟨rfl, ⟨hm, rfl⟩, trivial⟩) fun m _ => ?_
  split
  · exact fulfils_pure (hC.closed.scalar _)
  · exact hC.fail _
  · exact hC.fail _

end Contract.Lawful

end MatrixScript
