import MatrixScript.Proofs.Values.Keeping
import MatrixScript.Session

/-!
# Runs, step by step

What a computation does on a machine follows from what its parts do there, and so does what the
evaluation of a node does. A program of a single statement does what its node does, if there is time
for it.
-/

namespace MatrixScript

namespace Evaluation

variable {α : Type} {m m' : Machine}

theorem length_of_run_mapM {γ : Type} {xs : List γ} {g : γ → Evaluation α} {ys : List α}
    (h : (xs.mapM g).run.run m = (.ok ys, m')) : ys.length = xs.length := by
  induction xs generalizing ys m with
  | nil =>
      cases h
      rfl
  | cons x xs ih =>
      rw [List.mapM_cons] at h
      obtain ⟨y, m₁, -, h⟩ := exists_of_run_bind h
      obtain ⟨rest, m₂, hrest, h⟩ := exists_of_run_bind h
      cases h
      exact congrArg (· + 1) (ih hrest)

theorem run_ofResult (r : Result α) (m : Machine) :
    (ofResult r).run.run m = (r.mapError fun fault => .failed (.ofFault fault), m) := by
  cases r <;> rfl

end Evaluation

/-- How an operation at a node stops: its fault is placed there. -/
def Fault.at (span : Span) (fault : Fault) : Stop := .failed ⟨fault, some span, []⟩

namespace Evaluation

variable {α : Type} {x : Evaluation α} {m m' : Machine}

theorem run_locatedAt_of_result {r : Result α} (h : x.run.run m = (ofResult r).run.run m')
    (span : Span) : (x.locatedAt span).run.run m = (r.mapError (Fault.at span), m') := by
  change ((x.run.run m).1.mapError _, (x.run.run m).2) = _
  rw [h, run_ofResult]
  cases r <;> rfl

theorem run_locatedAt_of_placed {e : EvalError} {inner : Span} (hinner : e.span = some inner)
    (h : x.run.run m = (.error (.failed e), m')) (span : Span) :
    (x.locatedAt span).run.run m = (.error (.failed e), m') := by
  have hplaced : e.locatedAt span = e := by
    rw [EvalError.locatedAt, hinner, Option.some_or, ← hinner]
  change ((x.run.run m).1.mapError _, (x.run.run m).2) = _
  rw [h]
  change (Except.error (Stop.failed (e.locatedAt span)), m') = _
  rw [hplaced]

end Evaluation

open Evaluation

namespace Setting

variable {s : Setting} {fuel : Nat} {m m₁ : Machine} {id : NodeId} {node : Node} {span : Span}
  {v : Value}

theorem run_kind (h : s.forest.get? id = some node) :
    (s.kind id).run.run m = (.ok node.kind, m) := by
  unfold kind Setting.node
  rw [h]
  rfl

theorem run_evaluate (h : s.forest.get? id = some node) :
    (evaluate (fuel + 1) s id).run.run m
      = ((s.value (evaluate fuel) fuel node.kind).locatedAt node.span).run.run m := by
  rw [evaluate, Setting.node, h]
  rfl

theorem run_evaluate_ofResult (h : s.forest.get? id = some node) {r : Result Value}
    (hvalue : (s.value (evaluate fuel) fuel node.kind).run.run m = (ofResult r).run.run m₁) :
    (evaluate (fuel + 1) s id).run.run m = (r.mapError (Fault.at node.span), m₁) :=
  (run_evaluate h).trans (run_locatedAt_of_result hvalue node.span)

/-- A variable stands for its value. -/
theorem evaluate_name {name : String} (h : s.forest.get? id = some ⟨.name name, span⟩)
    (hv : m.environment.lookup name = some v) :
    (evaluate (fuel + 1) s id).run.run m = (.ok v, m) := by
  refine run_evaluate_ofResult (r := .ok v) h ?_
  change (s.lookup name).run.run m = _
  have hvisible : (visible? name).run.run m = (.ok (some v), m) := by
    rw [← hv]
    rfl
  rw [lookup, run_bind_of_ok hvisible, Option.some_or]
  rfl

theorem evaluate_real {x : Double} (h : s.forest.kind? id = some (.real x)) :
    (evaluate (fuel + 1) s id).run.run m = (.ok (.real x), m) := by
  obtain ⟨node, hnode, hreal⟩ := Option.map_eq_some_iff.mp h
  refine run_evaluate_ofResult (r := .ok _) hnode ?_
  rw [hreal]
  rfl

/-- What stands behind a true operand is not evaluated. -/
theorem evaluate_or {left right : NodeId} (h : s.forest.kind? id = some (.binary .or left right))
    (hleft : (evaluate fuel s left).run.run m = (.ok v, m₁)) (hv : v.isTrue = true) :
    (evaluate (fuel + 1) s id).run.run m = (.ok (.ofBool true), m₁) := by
  obtain ⟨node, hnode, hor⟩ := Option.map_eq_some_iff.mp h
  refine run_evaluate_ofResult (r := .ok _) hnode ?_
  rw [hor]
  change (s.binary (evaluate fuel) .or left right).run.run m = _
  rw [binary, run_bind_of_ok hleft, hv]
  rfl

/-- Evaluating a lambda expression yields the function and makes it a number. -/
theorem evaluate_lambda {root body : NodeId} {params : List String} {copy : Forest}
    (hkind : s.forest.kind? id = some (.lambda params body))
    (hcopy : s.forest.extract body = .ok (root, copy)) :
    (evaluate (fuel + 1) s id).run.run m
      = (.ok (.function (.lambda ⟨params, root, copy, some m.nextSerial⟩
          (m.environment.capture (namesIn copy params)))),
        { m with nextSerial := m.nextSerial + 1 }) := by
  obtain ⟨node, hnode, hlambda⟩ := Option.map_eq_some_iff.mp hkind
  refine run_evaluate_ofResult (r := .ok _) hnode ?_
  rw [hlambda]
  change (s.close params body).run.run m = _
  unfold close
  rw [hcopy]
  rfl

/-! ### Programs -/

theorem run_check_untimed (h : s.deadline = none) (m : Machine) :
    s.check.run.run m = (.ok (), m) := by
  rw [check, h]
  rfl

theorem run_nil : (s.run fuel []).run.run m = (.ok [], m) := rfl

theorem run_cons {t : Statement} {ts : List Statement} {outputs : List (Option Value)}
    {m₂ m₃ : Machine} (hcheck : s.check.run.run m = (.ok (), m₁))
    (h : (evaluate fuel s t.root).run.run m₁ = (.ok v, m₂))
    (hmore : (s.run fuel ts).run.run m₂ = (.ok outputs, m₃)) :
    (s.run fuel (t :: ts)).run.run m
      = (.ok ((if t.muted then none else some v) :: outputs), m₃) := by
  rw [run, List.mapM_cons, bind_assoc, run_bind_of_ok hcheck, bind_assoc, run_bind_of_ok h]
  change (s.run fuel ts >>= _ : Evaluation _).run.run m₂ = _
  rw [run_bind_of_ok hmore]
  rfl

/-- The time is not over when a run starts. -/
def InTime (s : Setting) : Prop := ∀ deadline, s.deadline = some deadline → deadline.isOver 0 = false

theorem run_check (hclock : s.InTime) (e : Environment) (serial : Nat) :
    ∃ checks, s.check.run.run ⟨e, 0, serial, []⟩ = (.ok (), ⟨e, checks, serial, []⟩) := by
  unfold check
  split
  · exact ⟨0, rfl⟩
  · rename_i deadline hsome
    refine ⟨1, ?_⟩
    have hcount : (modifyGet fun m => (m.checks, { m with checks := m.checks + 1 }) :
        Evaluation Nat).run.run ⟨e, 0, serial, []⟩ = (.ok 0, ⟨e, 1, serial, []⟩) := rfl
    rw [run_bind_of_ok hcount, hclock deadline hsome]
    rfl

theorem run_single (hclock : s.InTime) {e e' : Environment} {serial next : Nat}
    {r : Except Stop Value}
    (h : ∀ checks,
      (evaluate fuel s id).run.run ⟨e, checks, serial, []⟩ = (r, ⟨e', checks, next, []⟩)) :
    ∃ checks, (s.run fuel [⟨id, false⟩]).run.run ⟨e, 0, serial, []⟩
      = (r.map fun v => [some v], ⟨e', checks, next, []⟩) := by
  obtain ⟨checks, hcheck⟩ := run_check hclock e serial
  refine ⟨checks, ?_⟩
  rw [run, List.mapM_cons, bind_assoc, run_bind_of_ok hcheck, bind_assoc]
  cases r with
  | error stop => rw [run_bind_of_error (h checks)]; rfl
  | ok v => rw [run_bind_of_ok (h checks)]; rfl

end Setting

namespace Session

variable {s : Session} {fuel : Nat} {forest : Forest} {id : NodeId}

/-- The first check of the time passes. -/
def InTime (s : Session) : Prop :=
  ∀ milliseconds, s.limits.budget = some milliseconds → s.clock 0 ≤ milliseconds * 1000000

theorem inTime_standard : standard.InTime := nofun

theorem InTime.setting (h : s.InTime) (forest : Forest) : (s.setting forest).InTime := by
  intro deadline hdeadline
  obtain ⟨milliseconds, hbudget, rfl⟩ := Option.map_eq_some_iff.mp hdeadline
  exact decide_eq_false (Nat.not_lt.mpr (h milliseconds hbudget))

theorem parse_of_grammar {text : String} {program : Program}
    (h : s.grammar.parse text.toList = .ok program) : s.parse text = .ok ⟨text, program⟩ := by
  rw [Session.parse, h]

theorem query_of_parse {text : String} {program : Program}
    (h : s.grammar.parse text.toList = .ok program) (fuel : Nat) :
    s.query fuel text = s.execute fuel ⟨text, program⟩ := by
  rw [query, parse_of_grammar h]

/-- The session that a run leaves behind. -/
abbrev leaving (s : Session) (m : Machine) : Session :=
  { s with environment := m.environment, nextSerial := m.nextSerial }

theorem execute_of_run {fuel : Nat} {q : Query} {run : Except Stop (List (Option Value)) × Machine}
    (h : ((s.setting q.program.forest).run fuel q.program.statements).run.run
      ⟨s.environment, 0, s.nextSerial, []⟩ = run) :
    s.execute fuel q = (run.1.mapError .stopped, s.leaving run.2) := by
  rw [← h]
  rfl

theorem execute_single (hclock : s.InTime) (source : String) {e : Environment} {next : Nat}
    {r : Except Stop Value}
    (h : ∀ checks, (Setting.evaluate fuel (s.setting forest) id).run.run
        ⟨s.environment, checks, s.nextSerial, []⟩ = (r, ⟨e, checks, next, []⟩)) :
    s.execute fuel ⟨source, forest, [⟨id, false⟩]⟩
      = ((r.map fun v => [some v]).mapError .stopped, { s with environment := e, nextSerial := next })
    := by
  obtain ⟨checks, hrun⟩ := Setting.run_single (hclock.setting forest) h
  exact execute_of_run (q := ⟨source, forest, [⟨id, false⟩]⟩) hrun

/-- A program that makes a function. -/
theorem execute_lambda (hclock : s.InTime) {params : List String} {root body : NodeId}
    {copy : Forest} (hkind : forest.kind? id = some (.lambda params body))
    (hcopy : forest.extract body = .ok (root, copy)) (source : String) (fuel : Nat) :
    (s.execute (fuel + 1) ⟨source, forest, [⟨id, false⟩]⟩).1
      = .ok [some (.function (.lambda ⟨params, root, copy, some s.nextSerial⟩
          (s.environment.capture (Setting.namesIn copy params))))] := by
  have hrun (checks : Nat) : (Setting.evaluate (fuel + 1) (s.setting forest) id).run.run
        ⟨s.environment, checks, s.nextSerial, []⟩
      = (.ok (.function (.lambda ⟨params, root, copy, some s.nextSerial⟩
          (s.environment.capture (Setting.namesIn copy params)))),
        ⟨s.environment, checks, s.nextSerial + 1, []⟩) :=
    Setting.evaluate_lambda hkind hcopy
  rw [execute_single hclock source hrun]
  rfl

theorem evaluate_variable {name : String} {v : Value} (hv : s.get? name = some v) {span : Span}
    (h : forest.get? id = some ⟨.name name, span⟩) (checks : Nat) :
    (Setting.evaluate (fuel + 1) (s.setting forest) id).run.run
        ⟨s.environment, checks, s.nextSerial, []⟩
      = (.ok v, ⟨s.environment, checks, s.nextSerial, []⟩) :=
  Setting.evaluate_name h hv

end Session

end MatrixScript
