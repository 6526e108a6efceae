import MatrixScript.Proofs.Alike.Evaluation
import MatrixScript.Proofs.Alike.Standard
import MatrixScript.Proofs.Contracts.Evaluation

/-!
# What a call can do to the variables of its caller

Names are bound in the innermost scope, and a call opens a scope of its own, so evaluation cannot
bind anything further out. All that it can do there is to erase names, and only `clear` does that.
To say which names can go, `clear` is given a test that a name has to pass; if every name passes,
this is the standard library.

The run is compared with itself, in a world that holds the outer scopes that it started out with.
What `end` stands for goes onto a stack and off it again around each index argument, so every
contract has the stack left as it was.
-/

namespace MatrixScript

/-- Erases only names that pass a test. -/
def Variables.clearWithin (mayClear : String → Bool) : Native := fun name args =>
  match (args.rest.filterMap Value.text?).find? fun name => !mayClear name with
  | some kept => throw (.argumentValue ("The variable " ++ kept ++ " is kept."))
  | none => clearNames name args

/-- The standard library with a `clear` that only erases names that pass a test. -/
def Library.clearingWithin (mayClear : String → Bool) : Library :=
  { standard with
    functions := Elementary.table ++ Matrices.table ++
      [ ("clear",
          [⟨⟨[]⟩, Variables.clearAll⟩,
            ⟨⟨[.variadic ⟨.only .string, 1, none, 1⟩]⟩, Variables.clearWithin mayClear⟩]),
        ("exists", [⟨.ofKinds [.string], Variables.doesExist⟩]) ] ++ Sets.table ++ Plots.table }

/-- The same bindings but for some names that may be missing. -/
def Scope.Loses (mayClear : String → Bool) (s t : Scope) : Prop :=
  ∃ gone : List String, (∀ name ∈ gone, mayClear name = true) ∧ t = s.filter fun b => b.1 ∉ gone

variable {mayClear : String → Bool}

theorem Library.clearingWithin_all : clearingWithin (fun _ => true) = standard := by
  have hclear : Variables.clearWithin (fun _ => true) = Variables.clearNames := by
    funext name args
    have hnone :
        (args.rest.filterMap Value.text?).find? (fun name => !(fun _ => true) name) = none :=
      List.find?_eq_none.mpr fun _ _ => Bool.false_ne_true
    unfold Variables.clearWithin
    rw [hnone]
  unfold clearingWithin
  rw [hclear]
  rfl

/-! ### Scopes that lose names -/

namespace Scope

theorem Loses.refl (s : Scope) : s.Loses mayClear s :=
  ⟨[], nofun, (List.filter_eq_self.mpr fun _ _ => rfl).symm⟩

theorem Loses.trans {s t u : Scope} (h : s.Loses mayClear t) (h' : t.Loses mayClear u) :
    s.Loses mayClear u := by
  obtain ⟨gone, hgone, rfl⟩ := h
  obtain ⟨gone', hgone', rfl⟩ := h'
  refine ⟨gone ++ gone', List.forall_mem_append.mpr ⟨hgone, hgone'⟩, ?_⟩
  rw [List.filter_filter]
  refine List.filter_congr fun b _ => ?_
  simp only [List.mem_append, not_or, Bool.decide_and]
  exact Bool.and_comm _ _

theorem loses_erase (s : Scope) {name : String} (h : mayClear name = true) :
    s.Loses mayClear (s.erase name) := by
  refine ⟨[name], List.forall_mem_singleton.mpr h, List.filter_congr fun b _ => ?_⟩
  simp only [List.mem_singleton, decide_not, bne, beq_eq_decide]

end Scope

/-- Scope by scope, some names may be missing. -/
abbrev LosesEach (mayClear : String → Bool) (before after : List Scope) : Prop :=
  List.Forall₂ (Scope.Loses mayClear) before after

theorem losesEach_refl (scopes : List Scope) : LosesEach mayClear scopes scopes :=
  List.forall₂_same.mpr fun s _ => .refl s

theorem LosesEach.trans {before between after : List Scope} (h : LosesEach mayClear before between)
    (h' : LosesEach mayClear between after) : LosesEach mayClear before after := by
  induction h generalizing after with
  | nil => exact h'
  | cons hs _ ih =>
      cases h' with
      | cons hs' hrest => exact .cons (hs.trans hs') (ih hrest)

namespace Environment

theorem losesEach_eraseFirst {name : String} (h : mayClear name = true) (scopes : List Scope) :
    LosesEach mayClear scopes (eraseFirst name scopes) := by
  induction scopes with
  | nil => exact .nil
  | cons s scopes ih =>
      unfold eraseFirst
      split
      · exact .cons (s.loses_erase h) (losesEach_refl scopes)
      · exact .cons (.refl s) ih

theorem losesEach_erase {name : String} (h : mayClear name = true) (e : Environment) :
    LosesEach mayClear e.outer (e.erase name).outer := by
  unfold Environment.erase
  split
  · exact losesEach_refl e.outer
  · exact losesEach_eraseFirst h e.outer

theorem outer_defineAll (e : Environment) (bindings : List (String × Value)) :
    (e.defineAll bindings).outer = e.outer := by
  induction bindings generalizing e with
  | nil => rfl
  | cons b bindings ih => exact ih (e.define b.1 b.2)

/-- Closing a scope that has others around it. -/
theorem scopes_pop {e : Environment} (h : e.outer ≠ []) : e.pop.scopes = e.outer := by
  unfold Environment.pop
  split
  · rename_i hnone
    exact absurd hnone h
  · rename_i hscopes
    rw [hscopes]
    rfl

end Environment

/-! ### A run beside itself -/

/-- The same variables, where outer scopes have lost at most what they may. -/
def Framed (mayClear : String → Bool) (before : List Scope) (e e' : Environment) : Prop :=
  e' = e ∧ LosesEach mayClear before e.outer

/-- The same functions and the same variables; the world is what the outer scopes were at first. -/
def framing (mayClear : String → Bool) (deadline : Option Deadline) : Likeness where
  World := List Scope
  library := .clearingWithin mayClear
  deadline := deadline
  callables := Eq
  environments := Framed mayClear
  Knows _ _ := True
  spans := Eq

namespace Variables

variable {before : List Scope}

theorem clearAll_framed : Native.Respects (Framed mayClear before) Eq clearAll := by
  rintro _ _ _ _ e _ ⟨rfl, he⟩
  exact ⟨⟨rfl, he⟩, .ok (.text _)⟩

theorem contains_eq {e e' : Environment} (h : Framed mayClear before e e') (name : String) :
    e'.contains name = e.contains name := by
  rw [h.1]

theorem clearWithin_framed :
    Native.Respects (Framed mayClear before) Eq (clearWithin mayClear) := by
  intro name args args' hargs
  unfold clearWithin
  rw [hargs.filterMap_rest_eq fun _ _ hv => hv.text?_eq]
  split
  · exact paired_throw rfl
  · rename_i hnone
    refine clearNames_agrees hargs (fun e e' => contains_eq) (fun e e' he name hname => ?_) name
    have hmay : mayClear name = true := by simpa using List.find?_eq_none.mp hnone name hname
    obtain ⟨rfl, he⟩ := he
    exact ⟨rfl, he.trans (Environment.losesEach_erase hmay e')⟩

end Variables

theorem framing_respects (before : List Scope) :
    RespectingTable (Framed mayClear before) Eq (Library.clearingWithin mayClear).functions := by
  refine (((Elementary.table_respects.append Matrices.table_respects).append ?_).append
    Sets.table_respects).append Plots.table_respects
  simp only [respectingTable_cons]
  exact ⟨List.forall_mem_cons.mpr ⟨Variables.clearAll_framed,
      List.forall_mem_singleton.mpr Variables.clearWithin_framed⟩,
    List.forall_mem_singleton.mpr (Variables.doesExist_respects fun _ _ => Variables.contains_eq),
    List.forall_mem_nil _⟩

theorem alike_eq {v v' : Value} (h : v.Alike Eq v') : v' = v := h.eq fun _ _ h => h.symm

theorem framing_lawful (deadline : Option Deadline) : (framing mayClear deadline).Lawful where
  shown := by
    rintro f _ rfl
    rfl
  kinds := by
    rintro f _ rfl
    cases f with
    | named name => exact .inl ⟨name, rfl, rfl⟩
    | lambda code captures => exact .inr ⟨code, captures, code, captures, rfl, rfl, rfl⟩
  named _ := rfl
  constants name v hv := .of_isPlain (Library.standard_constants name hv)
  lookup := by
    rintro before _ e ⟨rfl, -⟩ name -
    cases e.lookup name with
    | none => exact .none
    | some v => exact .some (.refl (fun _ => rfl) v)
  define := by
    rintro before _ e ⟨rfl, he⟩ name v v' hv
    rw [alike_eq hv]
    exact ⟨rfl, he⟩
  call before name args args' hargs := Library.call_agrees (framing_respects before) name hargs
  enter := by
    rintro before _ e ⟨rfl, he⟩ code captures _ _ ⟨⟩ args args' hargs _
    obtain rfl : args = args' :=
      List.forall₂_eq_eq_eq ▸ List.Forall₂.imp (fun _ _ h => (alike_eq h).symm) hargs
    refine ⟨e.scopes, id, fun _ => True, ⟨rfl, ?_⟩, ?_, .same ?_ ?_, trivial, rfl⟩
    · rw [Environment.outer_defineAll]
      exact losesEach_refl e.scopes
    · rintro _ x ⟨rfl, hx⟩
      refine ⟨rfl, he.trans ?_⟩
      have hpop : x.pop.scopes = x.outer := Environment.scopes_pop fun hnone => by
        rw [hnone] at hx
        cases hx
      rw [← hpop] at hx
      cases hx with
      | cons _ hrest => exact hrest
    · exact fun _ _ _ _ _ _ _ => trivial
    · exact fun _ _ _ _ _ _ => trivial
  fresh _ _ h := congrArg (· + 1) h
  close := by
    rintro before _ e ⟨rfl, -⟩ params root forest forest' n _ ⟨⟩ hforest
    rw [hforest.eq]
    rfl

namespace Setting

variable {s : Setting}

/-- What the outer scopes lose while a node is evaluated. -/
theorem losesEach_evaluate (hlibrary : s.library = Library.clearingWithin mayClear) (fuel : Nat)
    (node : NodeId) (m : Machine) :
    LosesEach mayClear m.environment.outer
      ((evaluate fuel s node).run.run m).2.environment.outer := by
  have hs : (framing mayClear s.deadline).Settings m.environment.outer id (fun _ => True) Eq s s := {
    forest := .same (fun _ _ _ _ _ _ _ => trivial) fun _ _ _ _ _ _ => trivial
    spans := fun _ _ h => h
    library := hlibrary
    deadline := rfl
    same := rfl }
  have hm : (framing mayClear s.deadline).Machines m.environment.outer m m :=
    ⟨⟨rfl, losesEach_refl _⟩, .inr rfl, rfl, rfl⟩
  have hruns := (framing_lawful s.deadline).evaluates fuel _ _ _ _ s s node hs trivial m m hm
  exact hruns.1.environments.2

/-- What all scopes of the caller lose in a call: they are the outer ones of its body. -/
theorem losesEach_callLambda (hlibrary : s.library = Library.clearingWithin mayClear) (fuel : Nat)
    (code : Lambda) (captures : List Capture) (args : List Value) (m : Machine) :
    LosesEach mayClear m.environment.scopes
      ((s.callLambda (evaluate fuel) code captures args).run.run m).2.environment.scopes := by
  have hunchanged : LosesEach mayClear m.environment.scopes m.environment.scopes :=
    losesEach_refl _
  unfold callLambda
  split
  · exact hunchanged
  · split
    · exact hunchanged
    · rename_i depth _
      let body : Setting := { s with forest := code.forest, depth }
      let bindings := captures.map (fun c => (c.name, c.value)) ++ code.params.zip args
      let opened : Machine :=
        { m with environment := m.environment.push.defineAll bindings, extents := [] }
      have hbody : LosesEach mayClear m.environment.scopes
          ((evaluate fuel body code.root).run.run opened).2.environment.outer := by
        have houter : opened.environment.outer = m.environment.scopes :=
          Environment.outer_defineAll _ _
        rw [← houter]
        exact losesEach_evaluate (s := body) hlibrary fuel code.root opened
      have hsome : ((evaluate fuel body code.root).run.run opened).2.environment.outer ≠ [] := by
        intro hnone
        rw [hnone] at hbody
        cases hbody
      change LosesEach mayClear m.environment.scopes
        ((evaluate fuel body code.root).run.run opened).2.environment.pop.scopes
      rw [Environment.scopes_pop hsome]
      exact hbody

/-- With a library that is the standard one if every name may be cleared: whether it succeeds or
not, evaluation leaves as many scopes as there were and the same stack of extents, and outer scopes
can only have lost names that may be cleared. For a call this also holds of the innermost scope. -/
theorem scopes_kept (mayClear : String → Bool) {s : Setting}
    (hlibrary : s.library = Library.clearingWithin mayClear) (fuel : Nat) (m : Machine) :
    Library.clearingWithin (fun _ => true) = Library.standard
      ∧ (∀ node, let left := ((evaluate fuel s node).run.run m).2
          LosesEach mayClear m.environment.outer left.environment.outer
          ∧ left.environment.depth = m.environment.depth
          ∧ left.extents = m.extents)
      ∧ ∀ code captures args,
          let left := ((s.callLambda (evaluate fuel) code captures args).run.run m).2
          LosesEach mayClear m.environment.scopes left.environment.scopes
          ∧ left.environment.depth = m.environment.depth
          ∧ left.extents = m.extents := by
  refine ⟨Library.clearingWithin_all, fun node => ?_, fun code captures args => ?_⟩
  · have houter := losesEach_evaluate hlibrary fuel node m
    exact ⟨houter, congrArg (· + 1) houter.length_eq.symm, extents_evaluate s fuel m node⟩
  · have hscopes := losesEach_callLambda hlibrary fuel code captures args m
    exact ⟨hscopes, hscopes.length_eq.symm, extents_callLambda s fuel m code captures args⟩

/-- A function that clears a variable of its caller and binds another before it fails. -/
theorem scopes_kept_failing :
    let one : Value := .real Double.one
    let library := Library.clearingWithin (· == "x")
    let s : Setting := ⟨Forest.empty, library, none, Depth.ofLimit 1⟩
    let m : Machine := ⟨⟨[("y", one)], [[("x", one), ("z", one)]]⟩, 0, 0, []⟩
    let body : Forest := ⟨#[⟨.name "clear", Span.none⟩, ⟨.text "x", Span.none⟩,
      ⟨.call ⟨0⟩ [⟨1⟩], Span.none⟩, ⟨.name "y", Span.none⟩, ⟨.imaginary Double.one, Span.none⟩,
      ⟨.assign ⟨3⟩ none ⟨4⟩, Span.none⟩, ⟨.name "w", Span.none⟩,
      ⟨.block [(⟨2⟩, true), (⟨5⟩, true), (⟨6⟩, false)], Span.none⟩]⟩
    let run := (s.callLambda (evaluate 3) ⟨[], ⟨7⟩, body, none⟩ [] []).run.run m
    s.library = library ∧ run.1 = .error (.failed (.ofFault (.symbolMissing "w")))
      ∧ run.2.environment.scopes = [[("y", one)], [("z", one)]]
      ∧ LosesEach (· == "x") m.environment.scopes run.2.environment.scopes := by
  intro one library s m body run
  have hrun : run.1 = .error (.failed (.ofFault (.symbolMissing "w")))
      ∧ run.2.environment.scopes = [[("y", one)], [("z", one)]] := ⟨rfl, rfl⟩
  exact ⟨rfl, hrun.1, hrun.2, ((scopes_kept (· == "x") rfl 3 m).2.2 _ [] []).1⟩

end Setting

end MatrixScript
