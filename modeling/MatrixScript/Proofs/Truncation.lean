import MatrixScript.Evaluation.Evaluator

/-!
# Fuel and time only cut runs off

A run ends early when its fuel is used up or its time is over. Otherwise it goes as it would with
more fuel and without a limit of time: it has the same outcome, and it leaves the same variables and
the same next number. How many checks of the time it has made is another matter, since without a
limit nobody counts them.
-/

namespace MatrixScript

open Evaluation

/-- The setting without a limit of time. -/
def Setting.untimed (s : Setting) : Setting := { s with deadline := none }

/-- The ends of a run for lack of fuel or of time. -/
def Stop.IsCut : Stop → Prop
  | .outOfFuel => True
  | .failed e => ∃ milliseconds, e.fault = .budgetExceeded milliseconds
  | .missingNode _ => False

namespace Evaluation

variable {α β γ : Type}

/-- Whether a run was cut off. -/
def CutOff (r : Except Stop α) : Prop := ∃ stop, r = .error stop ∧ stop.IsCut

/-- The first evaluation is cut off, or it goes the same way as the second one, however many checks
of the time that one has made. -/
def Truncates (x y : Evaluation α) : Prop :=
  ∀ m checks, CutOff (x.run.run m).1 ∨ ∃ checks', y.run.run { m with checks } =
    ((x.run.run m).1, { (x.run.run m).2 with checks := checks' })

variable {x y : Evaluation α}

/-- Steps that do not check the time. -/
theorem truncates_of_blind (h : ∀ m checks, x.run.run { m with checks } =
    ((x.run.run m).1, { (x.run.run m).2 with checks })) : Truncates x x :=
  fun m checks => .inr ⟨checks, h m checks⟩

theorem truncates_pure (a : α) : Truncates (pure a) (pure a) := truncates_of_blind fun _ _ => rfl

theorem truncates_throw (stop : Stop) :
    Truncates (throw stop : Evaluation α) (throw stop : Evaluation α) :=
  truncates_of_blind fun _ _ => rfl

theorem truncates_outOfFuel (y : Evaluation α) : Truncates (throw .outOfFuel) y :=
  fun _ _ => .inl ⟨.outOfFuel, rfl, trivial⟩

theorem truncates_fail (fault : Fault) :
    Truncates (fail fault : Evaluation α) (fail fault : Evaluation α) :=
  truncates_throw _

theorem truncates_ofResult (r : Result α) : Truncates (ofResult r) (ofResult r) := by
  cases r with
  | ok a => exact truncates_pure a
  | error fault => exact truncates_fail fault

theorem truncates_orFail (a : Option α) (fault : Fault) :
    Truncates (orFail a fault) (orFail a fault) :=
  truncates_ofResult _

theorem truncates_native (r : ExceptT Fault (StateM Environment) α) :
    Truncates (native r) (native r) :=
  truncates_of_blind fun _ _ => rfl

theorem truncates_visible? (name : String) : Truncates (visible? name) (visible? name) :=
  truncates_of_blind fun _ _ => rfl

theorem truncates_modifyEnvironment (f : Environment → Environment) :
    Truncates (modifyEnvironment f) (modifyEnvironment f) :=
  truncates_of_blind fun _ _ => rfl

theorem Truncates.bind {f g : α → Evaluation β} (h : Truncates x y)
    (hf : ∀ a, Truncates (f a) (g a)) : Truncates (x >>= f) (y >>= g) := by
  intro m checks
  rw [ExceptT.run_bind, StateT.run_bind, ExceptT.run_bind, StateT.run_bind]
  have hx := h m checks
  cases hrun : x.run.run m with
  | mk r left =>
      rw [hrun] at hx
      cases r with
      | error stop =>
          rcases hx with ⟨_, ⟨⟩, hcut⟩ | ⟨checks', hsame⟩
          · exact .inl ⟨stop, rfl, hcut⟩
          · rw [hsame]
            exact .inr ⟨checks', rfl⟩
      | ok a =>
          obtain ⟨checks', hsame⟩ := hx.resolve_left nofun
          rw [hsame]
          exact hf a left checks'

/-- A check is counted, and what comes of it may depend on the count. -/
theorem truncates_counted {f : Nat → Evaluation α} (h : ∀ n, Truncates (f n) y) :
    Truncates (modifyGet (fun m => (m.checks, { m with checks := m.checks + 1 })) >>= f) y :=
  fun m checks => h m.checks { m with checks := m.checks + 1 } checks

theorem truncates_mapM {xs : List γ} {f g : γ → Evaluation β}
    (h : ∀ c, Truncates (f c) (g c)) : Truncates (xs.mapM f) (xs.mapM g) := by
  induction xs with
  | nil => exact truncates_pure []
  | cons c xs ih =>
      rw [List.mapM_cons, List.mapM_cons]
      exact (h c).bind fun b => ih.bind fun bs => truncates_pure (b :: bs)

theorem truncates_foldlM {xs : List γ} {f g : α → γ → Evaluation α}
    (h : ∀ a c, Truncates (f a c) (g a c)) (a : α) :
    Truncates (xs.foldlM f a) (xs.foldlM g a) := by
  induction xs generalizing a with
  | nil => exact truncates_pure a
  | cons c xs ih =>
      rw [List.foldlM_cons, List.foldlM_cons]
      exact (h a c).bind ih

/-- A change to the error that keeps its fault. -/
theorem cutOff_mapError {r : Except Stop α} {f : Stop → Stop}
    (hf : ∀ stop, stop.IsCut → (f stop).IsCut) (h : CutOff r) : CutOff (r.mapError f) := by
  obtain ⟨stop, rfl, hcut⟩ := h
  exact ⟨f stop, rfl, hf stop hcut⟩

theorem Truncates.locatedAt (h : Truncates x y) (span : Span) :
    Truncates (x.locatedAt span) (y.locatedAt span) := by
  intro m checks
  refine (h m checks).imp (cutOff_mapError fun stop hcut => ?_) fun ⟨checks', hsame⟩ => ⟨checks', ?_⟩
  · cases stop with
    | failed e => exact hcut
    | missingNode id => exact hcut
    | outOfFuel => exact hcut
  · change ((y.run.run _).1.mapError _, (y.run.run _).2) = _
    rw [hsame]
    rfl

theorem Truncates.withExtent (h : Truncates x y) (extent : Option Nat) :
    Truncates (x.withExtent extent) (y.withExtent extent) := by
  intro m checks
  refine (h { m with extents := extent :: m.extents } checks).imp id fun ⟨checks', hsame⟩ =>
    ⟨checks', ?_⟩
  let opened : Machine := ⟨m.environment, checks, m.nextSerial, extent :: m.extents⟩
  change ((y.run.run opened).1,
    { (y.run.run opened).2 with extents := (y.run.run opened).2.extents.tail }) = _
  rw [hsame]
  rfl

theorem Truncates.inScope (h : Truncates x y) (bindings : List (String × Value)) :
    Truncates (inScope bindings x) (inScope bindings y) := by
  intro m checks
  have hx := h
    { m with environment := m.environment.push.defineAll bindings, extents := [] } checks
  refine hx.imp (cutOff_mapError fun stop hcut => ?_) fun ⟨checks', hsame⟩ => ⟨checks', ?_⟩
  · cases stop with
    | failed e => exact hcut
    | missingNode id => exact hcut
    | outOfFuel => exact hcut
  · let opened : Machine := ⟨m.environment.push.defineAll bindings, checks, m.nextSerial, []⟩
    change ((y.run.run opened).1.mapError _,
      { (y.run.run opened).2 with
        environment := (y.run.run opened).2.environment.pop, extents := m.extents }) = _
    rw [hsame]
    rfl

end Evaluation

namespace Setting

variable {s : Setting} {eval eval' : Evaluator}

/-- Time that is over cuts the run off. -/
theorem truncates_check : Truncates s.check s.untimed.check := by
  unfold check
  cases s.deadline with
  | none => exact truncates_pure ()
  | some deadline =>
      refine truncates_counted fun n => ?_
      split
      · exact fun _ _ => .inl ⟨_, rfl, deadline.budget, rfl⟩
      · exact truncates_pure ()

theorem truncates_node (id : NodeId) : Truncates (s.node id) (s.untimed.node id) := by
  change Truncates (s.node id) (s.node id)
  unfold node
  split
  · exact truncates_pure _
  · exact truncates_throw _

theorem truncates_kind (id : NodeId) : Truncates (s.kind id) (s.untimed.kind id) :=
  (truncates_node id).bind fun node => truncates_pure node.kind

theorem truncates_lookup (name : String) : Truncates (s.lookup name) (s.untimed.lookup name) :=
  (truncates_visible? name).bind fun _ => truncates_orFail _ _

theorem truncates_lastIndex : Truncates lastIndex lastIndex := by
  refine truncates_of_blind fun m checks => ?_
  obtain ⟨e, _, k, extents⟩ := m
  match extents with
  | [] => rfl
  | none :: _ => rfl
  | some n :: _ => rfl

/-- Every evaluation of the one is cut off or goes as that of the other does without a limit of
time. -/
def CutsShort (eval eval' : Evaluator) : Prop :=
  ∀ s id, Truncates (eval s id) (eval' s.untimed id)

section Levels

variable (h : CutsShort eval eval')
include h

/-! ### Calls -/

theorem truncates_arguments (ids : List NodeId) :
    Truncates (s.arguments eval ids) (s.untimed.arguments eval' ids) :=
  truncates_mapM (h s)

theorem truncates_indexArguments (target : Value) (ids : List NodeId) :
    Truncates (s.indexArguments eval target ids) (s.untimed.indexArguments eval' target ids) := by
  refine truncates_mapM fun arg => (truncates_kind arg.1).bind fun k => ?_
  split
  · exact truncates_pure _
  · exact ((h s arg.1).withExtent _).bind fun v => truncates_pure _

theorem truncates_callFunction (f : Callable) (args : List Value) :
    Truncates (s.callFunction eval f args) (s.untimed.callFunction eval' f args) := by
  cases f with
  | named name => exact truncates_native _
  | lambda code captures =>
      change Truncates (s.callLambda eval code captures args)
        (s.untimed.callLambda eval' code captures args)
      have hdepth : s.untimed.depth = s.depth := rfl
      unfold callLambda
      rw [hdepth]
      split
      · exact truncates_fail _
      · split
        · exact truncates_fail _
        · exact (h { s with forest := code.forest, depth := _ } code.root).inScope _

theorem truncates_apply (target : Value) (ids : List NodeId) :
    Truncates (s.apply eval target ids) (s.untimed.apply eval' target ids) := by
  unfold apply
  split
  · exact (truncates_arguments h ids).bind (truncates_callFunction h _)
  · exact truncates_fail _
  · exact truncates_fail _
  · exact (truncates_indexArguments h target ids).bind fun args => truncates_ofResult _

theorem truncates_callNamed (name : String) (ids : List NodeId) :
    Truncates (s.callNamed eval name ids) (s.untimed.callNamed eval' name ids) := by
  refine (truncates_visible? name).bind fun target => ?_
  cases target with
  | some target => exact truncates_apply h target ids
  | none =>
      have hlibrary : s.untimed.library = s.library := rfl
      dsimp only
      rw [hlibrary]
      split
      · exact (truncates_arguments h ids).bind fun args => truncates_native _
      · exact (truncates_orFail _ _).bind fun target => truncates_apply h target ids

theorem truncates_call (callee : NodeId) (ids : List NodeId) :
    Truncates (s.call eval callee ids) (s.untimed.call eval' callee ids) := by
  refine (truncates_kind callee).bind fun k => ?_
  split
  · exact truncates_callNamed h _ ids
  · exact (h s callee).bind fun target => truncates_apply h target ids

omit h in
theorem truncates_close (params : List String) (body : NodeId) :
    Truncates (s.close params body) (s.untimed.close params body) := by
  change Truncates (s.close params body) (s.close params body)
  unfold close
  split
  · exact truncates_throw _
  · exact truncates_of_blind fun _ _ => rfl

/-! ### Assignments -/

omit h in
theorem truncates_combined (op : Option BinaryOp) {old : Evaluation Value}
    (hold : Truncates old old) (v : Value) :
    Truncates (combined op old v) (combined op old v) := by
  cases op with
  | none => exact truncates_pure v
  | some op => exact hold.bind fun w => truncates_ofResult _

omit h in
theorem truncates_oldValue (name : String) : Truncates (oldValue name) (oldValue name) :=
  (truncates_visible? name).bind fun _ => truncates_orFail _ _

omit h in
theorem truncates_indexedVariable (name : String) (op : Option BinaryOp) :
    Truncates (indexedVariable name op) (indexedVariable name op) := by
  cases op with
  | none => exact (truncates_visible? name).bind fun _ => truncates_pure _
  | some op => exact truncates_oldValue name

theorem truncates_assign (target : NodeId) (op : Option BinaryOp) (value : NodeId) :
    Truncates (s.assign eval target op value) (s.untimed.assign eval' target op value) := by
  refine (truncates_kind target).bind fun k => ?_
  split
  · refine (h s value).bind fun v => ?_
    refine (truncates_combined op (truncates_oldValue _) v).bind fun w => ?_
    exact (truncates_modifyEnvironment _).bind fun _ => truncates_pure w
  · refine (truncates_kind _).bind fun k => ?_
    split
    · refine (h s value).bind fun v => ?_
      refine (truncates_indexedVariable _ op).bind fun target => ?_
      refine (truncates_indexArguments h target _).bind fun args => ?_
      refine (truncates_combined op (truncates_ofResult _) v).bind fun w => ?_
      refine (truncates_ofResult _).bind fun changed => ?_
      exact (truncates_modifyEnvironment _).bind fun _ => truncates_pure w
    · exact truncates_fail _
  · refine Truncates.bind ?_ fun names => (h s value).bind fun v => ?_
    · exact (truncates_mapM truncates_kind).bind fun kinds => truncates_pure _
    · refine (truncates_ofResult _).bind fun bindings => ?_
      exact (truncates_modifyEnvironment _).bind fun _ => truncates_pure v
  · exact truncates_fail _

/-! ### Expressions and statements -/

theorem truncates_isTrue (id : NodeId) :
    Truncates (s.isTrue eval id) (s.untimed.isTrue eval' id) :=
  (h s id).bind fun v => truncates_pure v.isTrue

theorem truncates_binary (op : BinaryOp) (left right : NodeId) :
    Truncates (s.binary eval op left right) (s.untimed.binary eval' op left right) := by
  refine (h s left).bind fun v => ?_
  split
  · split
    · exact (truncates_isTrue h right).bind fun b => truncates_pure _
    · exact truncates_pure _
  · split
    · exact truncates_pure _
    · exact (truncates_isTrue h right).bind fun b => truncates_pure _
  · exact (h s right).bind fun w => truncates_ofResult _

theorem truncates_range (left right : NodeId) :
    Truncates (s.range eval left right) (s.untimed.range eval' left right) := by
  refine (h s left).bind fun start => (truncates_kind right).bind fun k => ?_
  split
  · exact truncates_ofResult _
  · exact (h s right).bind fun stop => truncates_ofResult _

theorem truncates_matrixLiteral (rows : List (List NodeId)) :
    Truncates (s.matrixLiteral eval rows) (s.untimed.matrixLiteral eval' rows) := by
  refine Truncates.bind ?_ fun m => truncates_pure _
  refine truncates_foldlM (fun joined ids => ?_) Matrix.empty
  refine Truncates.bind ?_ fun row => truncates_ofResult _
  refine truncates_foldlM (fun joined id => (h s id).bind fun v => ?_) Matrix.empty
  exact (truncates_orFail _ _).bind fun m => truncates_ofResult _

theorem truncates_block (statements : List (NodeId × Bool)) :
    Truncates (s.block eval statements) (s.untimed.block eval' statements) := by
  refine truncates_foldlM (fun _ t => ?_) Value.emptyMatrix
  obtain ⟨id, muted⟩ := t
  exact (truncates_check (s := s)).bind fun _ => h s id

theorem truncates_branch (cond yes no : NodeId) :
    Truncates (s.branch eval cond yes no) (s.untimed.branch eval' cond yes no) := by
  refine (truncates_isTrue h cond).bind fun holds => ?_
  split
  · exact h s yes
  · split
    · exact h s no
    · exact truncates_pure _

theorem truncates_effect (id : NodeId) :
    Truncates (s.effect eval id) (s.untimed.effect eval' id) := by
  unfold effect
  split
  · exact (h s id).bind fun _ => truncates_pure _
  · exact truncates_pure _

omit h in
/-- A loop goes round as long as there is fuel, so more of it takes the loop further. -/
theorem truncates_loop {cond cond' : Evaluation Bool} {round round' : Evaluation Value}
    (hcond : Truncates cond cond') (hround : Truncates round round') {fuel fuel' : Nat}
    (hfuel : fuel ≤ fuel') (last : Value) :
    Truncates (s.loop cond round fuel last) (s.untimed.loop cond' round' fuel' last) := by
  induction fuel generalizing fuel' last with
  | zero => exact truncates_outOfFuel _
  | succ fuel ih =>
      obtain ⟨k, rfl⟩ : ∃ k, fuel' = k + 1 := ⟨fuel' - 1, by omega⟩
      refine truncates_check.bind fun _ => hcond.bind fun holds => ?_
      split
      · exact hround.bind (ih (Nat.le_of_succ_le_succ hfuel))
      · exact truncates_pure last

theorem truncates_value {fuel fuel' : Nat} (hfuel : fuel ≤ fuel') (k : NodeKind NodeId) :
    Truncates (s.value eval fuel k) (s.untimed.value eval' fuel' k) := by
  cases k with
  | real x => exact truncates_pure _
  | imaginary x => exact truncates_pure _
  | text t => exact truncates_pure _
  | name name => exact truncates_lookup name
  | last => exact truncates_lastIndex
  | everything => exact truncates_fail _
  | unary op a => exact (h s a).bind fun v => truncates_ofResult _
  | binary op a b => exact truncates_binary h op a b
  | range a b => exact truncates_range h a b
  | assign target op v => exact truncates_assign h target op v
  | call callee args => exact truncates_call h callee args
  | matrix rows => exact truncates_matrixLiteral h rows
  | tuple items => exact truncates_fail _
  | lambda params body => exact truncates_close params body
  | block statements => exact truncates_block h statements
  | branch cond yes no => exact truncates_branch h cond yes no
  | whileLoop cond body => exact truncates_loop (truncates_isTrue h cond) (h s body) hfuel _
  | forLoop init cond step body =>
      refine (truncates_effect h init).bind fun _ => truncates_loop ?_ ?_ hfuel _
      · split
        · exact truncates_isTrue h cond
        · exact truncates_pure true
      · exact (h s body).bind fun v => (truncates_effect h step).bind fun _ => truncates_pure v

end Levels

/-- By induction on the fuel of the run that may be cut off. -/
theorem truncates_evaluate {fuel fuel' : Nat} (hfuel : fuel ≤ fuel') :
    CutsShort (evaluate fuel) (evaluate fuel') := by
  induction fuel generalizing fuel' with
  | zero => exact fun _ _ => truncates_outOfFuel _
  | succ fuel ih =>
      obtain ⟨k, rfl⟩ : ∃ k, fuel' = k + 1 := ⟨fuel' - 1, by omega⟩
      have hle := Nat.le_of_succ_le_succ hfuel
      exact fun s id => (truncates_node id).bind fun node =>
        (truncates_value (ih hle) hle node.kind).locatedAt node.span

/-! ### How a run ends -/

/-- With some fuel a run ends with this outcome and these variables, and nothing cuts it off. -/
def Ends (s : Setting) (id : NodeId) (m : Machine) (r : Except Stop Value) (e : Environment) :
    Prop :=
  ∃ fuel left, (evaluate fuel s id).run.run m = (r, left) ∧ ¬CutOff r ∧ left.environment = e

namespace Ends

variable {id : NodeId} {m : Machine} {r r' : Except Stop Value} {e e' : Environment}

/-- More fuel and more time change nothing. -/
theorem eventually (h : s.Ends id m r e) : ∃ fuel, ∀ fuel', fuel ≤ fuel' →
    ∃ left, (evaluate fuel' s.untimed id).run.run m = (r, left) ∧ left.environment = e := by
  obtain ⟨fuel, left, hrun, hends, rfl⟩ := h
  refine ⟨fuel, fun fuel' hle => ?_⟩
  have hmore := truncates_evaluate hle s id m m.checks
  rw [hrun] at hmore
  obtain ⟨checks', hrun'⟩ := hmore.resolve_left hends
  exact ⟨_, hrun', rfl⟩

theorem untimed (h : s.Ends id m r e) : s.untimed.Ends id m r e := by
  obtain ⟨fuel, hruns⟩ := h.eventually
  obtain ⟨left, hrun, hleft⟩ := hruns fuel (Nat.le_refl fuel)
  obtain ⟨_, _, _, hends, _⟩ := h
  exact ⟨fuel, left, hrun, hends, hleft⟩

theorem unique (h : s.Ends id m r e) (h' : s.Ends id m r' e') : r' = r ∧ e' = e := by
  obtain ⟨fuel, hruns⟩ := h.eventually
  obtain ⟨fuel', hruns'⟩ := h'.eventually
  obtain ⟨left, hrun, rfl⟩ := hruns (max fuel fuel') (Nat.le_max_left fuel fuel')
  obtain ⟨left', hrun', rfl⟩ := hruns' (max fuel fuel') (Nat.le_max_right fuel fuel')
  obtain ⟨rfl, rfl⟩ := Prod.mk.inj (hrun'.symm.trans hrun)
  exact ⟨rfl, rfl⟩

end Ends

end Setting

end MatrixScript
