import MatrixScript.Proofs.Bare
import MatrixScript.Proofs.Contracts.Evaluation
import MatrixScript.Proofs.Lines
import MatrixScript.Proofs.Runs

/-!
# Texts in one piece or in two

Two texts that can be read on their own can be run one after the other, or as the lines of one text.
The nodes of the first one are the same in both cases, and those of the second one have other
numbers and spans that are further to the right. Numbers and spans do not influence what a program
does, so the results are the same, up to the spans in the bodies of functions and in an error of the
second text.
-/

namespace MatrixScript

open Grammar

/-! ### Results up to spans -/

/-- The error of a text that stands `n` bytes further to the right. -/
def QueryError.shift (n : Nat) : QueryError → QueryError
  | .stopped (.failed e) => .stopped (.failed { e with span := e.span.map (Span.shift n) })
  | e => e

/-- What a text gives: the outputs of its statements or an error, and the session after it. -/
abbrev QueryResult := Except QueryError (List (Option Value)) × Session

/-- The result without spans in the bodies of functions, be they outputs or variables. -/
def QueryResult.bare (r : QueryResult) : QueryResult :=
  (r.1.map fun outputs => outputs.map (Option.map Value.bare),
    { r.2 with environment := r.2.environment.bare })

/-- The result of two texts: the second one runs only if the first does not fail, and its errors are
placed `bytes` bytes further to the right. -/
def QueryResult.andThen (first : QueryResult) (bytes : Nat) (second : Session → QueryResult) :
    QueryResult :=
  match first with
  | (.error e, s) => (.error e, s)
  | (.ok outputs, s) =>
    match second s with
    | (.error e, s) => (.error (e.shift bytes), s)
    | (.ok more, s) => (.ok (outputs ++ more), s)

namespace QueryResult

variable {second other : Session → QueryResult} (bytes : Nat)

theorem andThen_ok (second : Session → QueryResult) (outputs : List (Option Value)) (s : Session) :
    andThen (.ok outputs, s) bytes second
      = (((second s).1.mapError (QueryError.shift bytes)).map (outputs ++ ·), (second s).2) := by
  rw [andThen]
  obtain ⟨outcome, s'⟩ := second s
  cases outcome <;> rfl

theorem andThen_congr {first : QueryResult} (h : second first.2 = other first.2) :
    andThen first bytes second = andThen first bytes other := by
  obtain ⟨outcome, s⟩ := first
  cases outcome with
  | error e => rfl
  | ok outputs => rw [andThen, andThen, show second s = other s from h]

end QueryResult

theorem stopped_shift {n : Nat} {stop stop' : Stop}
    (h : stop.Alike (fun t t' => t' = t.shift n) stop') :
    QueryError.stopped stop' = (QueryError.stopped stop).shift n := by
  cases h with
  | failed hspan =>
      cases hspan with
      | none => rfl
      | some hspan =>
          rw [hspan]
          rfl
  | missingNode id => rfl
  | outOfFuel => rfl

theorem outputs_bare {outputs outputs' : List (Option Value)}
    (h : List.Forall₂ (Option.Rel (Value.Alike SameBare)) outputs outputs') :
    outputs'.map (Option.map Value.bare) = outputs.map (Option.map Value.bare) := by
  refine map_eq_map_iff_forall₂.mpr (h.imp fun x x' hx => ?_)
  cases hx with
  | none => rfl
  | some hv => exact congrArg some (alike_iff_bare.mp hv)

/-- The outcome of the second part, alone and as a part of the whole. -/
theorem outcome_followedBy {n : Nat} {outputs outputs' : List (Option Value)}
    (houtputs : List.Forall₂ (Option.Rel (Value.Alike SameBare)) outputs outputs')
    {r r' : Except Stop (List (Option Value))}
    (h : Concur (Stop.Alike fun t t' => t' = t.shift n)
      (List.Forall₂ (Option.Rel (Value.Alike SameBare))) r r') :
    ((r'.map (outputs' ++ ·)).mapError .stopped).map (·.map (Option.map Value.bare))
      = (((r.mapError .stopped).mapError (QueryError.shift n)).map (outputs ++ ·)).map
          (·.map (Option.map Value.bare)) := by
  cases h with
  | error hstop => exact congrArg Except.error (stopped_shift hstop)
  | ok hmore => exact congrArg Except.ok (outputs_bare (List.rel_append houtputs hmore))

/-! ### Nodes of the parts and of the whole -/

namespace Forest

variable {f g : Forest}

/-- The first part keeps its nodes. -/
theorem mirrors_followedBy_left (hlinked : f.Linked) (h : f.size + g.size ≤ 4294967295)
    (bytes : Nat) :
    f.Mirrors (f.followedBy bytes g) id (NodeId.Below f.size) (fun _ => True) Eq where
  node i hi := by
    have hsame : (f.followedBy bytes g).get? i = f.get? i :=
      (f.extends_followedBy bytes g).get? (by rw [size_followedBy]; exact h) hi
    change Option.Rel _ _ ((f.followedBy bytes g).get? i)
    rw [hsame]
    cases f.get? i with
    | none => exact .none
    | some node => exact .some ⟨node.kind.map_id.symm, rfl⟩
  guided i node _ hnode slot hslot := ⟨rfl, fun _ =>
    (hlinked _ node hnode slot.1 (List.mem_map_of_mem hslot)).mono (Nat.le_of_lt (lt_size hnode))⟩
  known _ _ _ _ _ _ := trivial
  missing _ _ _ := rfl
  enough := .inl fun _ => rfl

theorem isPresent_of_lt {id : NodeId} {n : Nat} (h : id.index.toNat < n) (hn : n ≤ 4294967295) :
    id.isPresent = true := by
  refine bne_iff_ne.mpr fun habsent => ?_
  have hindex : id.index.toNat = 4294967295 := by
    rw [habsent]
    rfl
  omega

/-- The second part has its nodes under other numbers. -/
theorem mirrors_followedBy_right (hlinked : g.Linked) (h : f.size + g.size ≤ 4294967295)
    (bytes : Nat) :
    g.Mirrors (f.followedBy bytes g) (NodeId.shift f.size) (NodeId.Below g.size) (fun _ => True)
      fun t t' => t' = t.shift bytes where
  node i _ := by
    rw [get?_followedBy h]
    cases g.get? i with
    | none => exact .none
    | some node => exact .some ⟨rfl, rfl⟩
  guided i node _ hnode slot hslot := by
    have hbelow := (hlinked _ node hnode slot.1 (List.mem_map_of_mem hslot)).mono
      (Nat.le_of_lt (lt_size hnode))
    refine ⟨?_, fun _ => hbelow⟩
    rcases hbelow with habsent | hi
    · rw [habsent, NodeId.shift_absent]
    · have hindex : (slot.1.shift f.size).index.toNat = f.size + slot.1.index.toNat :=
        NodeId.shift_index (by omega)
      rw [isPresent_of_lt hi (by omega), isPresent_of_lt (n := f.size + g.size) (by omega) h]
  known _ _ _ _ _ _ := trivial
  missing i hi hnone := by
    rcases hi with rfl | hi
    · exact NodeId.shift_absent _
    · obtain ⟨node, hnode⟩ := exists_of_lt_size hi
      rw [hnode] at hnone
      cases hnone
  enough := by
    refine .inr ⟨hlinked, .inr fun i hi => ?_⟩
    rcases hi with rfl | hi
    · rw [NodeId.shift_absent]
    · rw [NodeId.shift_index (by omega)]
      exact Nat.le_add_left _ _

end Forest

namespace Setting

variable {t : Setting} {fuel : Nat} {before : List Statement} {m m' : Machine}

theorem run_append (before after : List Statement) :
    t.run fuel (before ++ after) = do
      let outputs ← t.run fuel before
      let more ← t.run fuel after
      return outputs ++ more :=
  List.mapM_append

/-- The first statement that fails is the last one to run. -/
theorem run_append_error (after : List Statement) {stop : Stop}
    (h : (t.run fuel before).run.run m = (.error stop, m')) :
    (t.run fuel (before ++ after)).run.run m = (.error stop, m') := by
  rw [run_append, ExceptT.run_bind, StateT.run_bind, h]
  rfl

theorem run_append_ok (after : List Statement) {outputs : List (Option Value)}
    (h : (t.run fuel before).run.run m = (.ok outputs, m')) :
    (t.run fuel (before ++ after)).run.run m
      = (((t.run fuel after).run.run m').1.map (outputs ++ ·),
        ((t.run fuel after).run.run m').2) := by
  rw [run_append, ExceptT.run_bind, StateT.run_bind, h]
  change (((t.run fuel after) >>= fun more => pure (outputs ++ more)) : Evaluation _).run.run m' = _
  rw [ExceptT.run_bind, StateT.run_bind]
  obtain ⟨outcome, m''⟩ := (t.run fuel after).run.run m'
  cases outcome <;> rfl

end Setting

namespace Session

open Evaluation

variable {s : Session} {p q : Program}

/-- A program whose links lead to earlier nodes, and whose statements are among its nodes. -/
abbrev Sound (p : Program) : Prop :=
  p.forest.Linked ∧ ∀ t ∈ p.statements, t.root.index.toNat < p.forest.size

theorem bare_leaving {m m' : Machine} (h : (bareness Library.standard none).Machines () m m')
    {r r' : Except QueryError (List (Option Value))}
    (hr : r'.map (·.map (Option.map Value.bare)) = r.map (·.map (Option.map Value.bare))) :
    QueryResult.bare (r', s.leaving m') = QueryResult.bare (r, s.leaving m) := by
  have henvironment : m'.environment.bare = m.environment.bare := h.environments
  have hnumber : m'.nextSerial = m.nextSerial := h.nextSerial
  simp only [QueryResult.bare, hr, hnumber, henvironment]

theorem deadline_setting (hbudget : s.limits.budget = none) (forest : Forest) :
    (s.setting forest).deadline = none :=
  congrArg (Option.map fun milliseconds => Deadline.mk milliseconds s.clock) hbudget

section Parts

variable (hlibrary : s.library = Library.standard) (hbudget : s.limits.budget = none)
  (hroom : p.forest.size + q.forest.size ≤ 4294967295) (bytes fuel : Nat)

include hlibrary hbudget hroom

theorem run_left (hp : Sound p) :
    (bareness Library.standard none).Agrees () Eq
      (List.Forall₂ (Option.Rel (Value.Alike SameBare)))
      ((s.setting p.forest).run fuel p.statements)
      ((s.setting (p.followedBy bytes q).forest).run fuel p.statements) := by
  have hsettings : (bareness Library.standard none).Settings () id (NodeId.Below p.forest.size) Eq
      (s.setting p.forest) (s.setting (p.followedBy bytes q).forest) :=
    ⟨Forest.mirrors_followedBy_left hp.1 hroom bytes, fun _ _ _ => trivial, hlibrary,
      deadline_setting hbudget _, rfl⟩
  have hrun := (bareness_lawful none).run hsettings fuel fun t ht => .inr (hp.2 t ht)
  have hsame : p.statements.map (fun t => { t with root := id t.root }) = p.statements :=
    List.map_id'' (fun _ => rfl) _
  rwa [hsame] at hrun

theorem run_right (hq : Sound q) :
    (bareness Library.standard none).Agrees () (fun t t' => t' = t.shift bytes)
      (List.Forall₂ (Option.Rel (Value.Alike SameBare)))
      ((s.setting q.forest).run fuel q.statements)
      ((s.setting (p.followedBy bytes q).forest).run fuel
        (q.statements.map fun t => { t with root := t.root.shift p.forest.size })) := by
  have hsettings : (bareness Library.standard none).Settings () (NodeId.shift p.forest.size)
      (NodeId.Below q.forest.size) (fun t t' => t' = t.shift bytes)
      (s.setting q.forest) (s.setting (p.followedBy bytes q).forest) :=
    ⟨Forest.mirrors_followedBy_right hq.1 hroom bytes, fun _ _ _ => trivial, hlibrary,
      deadline_setting hbudget _, rfl⟩
  exact (bareness_lawful none).run hsettings fuel fun t ht => .inr (hq.2 t ht)

/-- A program in two parts, run part by part. -/
theorem execute_followedBy (hp : Sound p) (hq : Sound q) (source source₁ source₂ : String) :
    QueryResult.bare (s.execute fuel ⟨source, p.followedBy bytes q⟩)
      = QueryResult.bare (QueryResult.andThen (s.execute fuel ⟨source₁, p⟩) bytes
          fun s => s.execute fuel ⟨source₂, q⟩) := by
  let start : Machine := ⟨s.environment, 0, s.nextSerial, []⟩
  let whole := s.setting (p.followedBy bytes q).forest
  let after := q.statements.map fun t => { t with root := t.root.shift p.forest.size }
  obtain ⟨hm₁, hr₁⟩ := run_left hlibrary hbudget hroom bytes fuel hp start start
    ⟨rfl, .inl rfl, rfl, rfl⟩
  cases hrun : ((s.setting p.forest).run fuel p.statements).run.run start with
  | mk r₁ m₁ =>
  cases hwhole : (whole.run fuel p.statements).run.run start with
  | mk r₁' m₁' =>
  rw [hrun, hwhole] at hm₁ hr₁
  have hfirst : s.execute fuel ⟨source₁, p⟩ = _ := execute_of_run hrun
  cases hr₁ with
  | @error stop stop' hstop =>
      rw [execute_of_run (q := ⟨source, p.followedBy bytes q⟩)
        (Setting.run_append_error after hwhole), hfirst, hstop.eq]
      exact bare_leaving hm₁ rfl
  | @ok outputs outputs' houtputs =>
      -- the second part counts its checks of the time anew, which matters only where there is a limit
      let again : Machine := ⟨m₁.environment, 0, m₁.nextSerial, []⟩
      have hextents : m₁'.extents = [] := hm₁.extents.trans
        (hrun ▸ Setting.extents_run (s.setting p.forest) fuel start p.statements)
      obtain ⟨hm₂, hr₂⟩ := run_right hlibrary hbudget hroom bytes fuel hq again m₁'
        ⟨hm₁.environments, .inl rfl, hm₁.nextSerial, hextents⟩
      have hthen := QueryResult.andThen_ok bytes (fun s => s.execute fuel ⟨source₂, q⟩)
        outputs (s.leaving m₁)
      rw [execute_of_run (q := ⟨source, p.followedBy bytes q⟩)
        (Setting.run_append_ok after hwhole), hfirst]
      exact (bare_leaving hm₂ (outcome_followedBy houtputs hr₂)).trans
        (congrArg QueryResult.bare hthen).symm

end Parts

theorem parse_of_query {text : String} {q : Query} (h : s.parse text = .ok q) :
    s.grammar.parse text.toList = .ok q.program := by
  unfold Session.parse at h
  cases hparse : s.grammar.parse text.toList with
  | ok program =>
      rw [hparse] at h
      cases h
      rfl
  | error e =>
      rw [hparse] at h
      cases h

/-- Running two texts as the lines of one is running one after the other: the outputs follow one
another, an error is the same but for where it is placed, and so are the variables that are left,
whether there is an error or not. Only texts of about 2^31 characters have more nodes than there are
numbers. -/
theorem query_lines (hgrammar : s.grammar = Grammar.standard)
    (hlibrary : s.library = Library.standard) (hbudget : s.limits.budget = none)
    {text₁ text₂ : String} {q₁ q₂ : Query}
    (h₁ : s.parse text₁ = .ok q₁) (h₂ : s.parse text₂ = .ok q₂)
    (hroom : q₁.program.forest.size + q₂.program.forest.size ≤ 4294967295) (fuel : Nat) :
    QueryResult.bare (s.query fuel (text₁ ++ "\n" ++ text₂))
      = QueryResult.bare (QueryResult.andThen (s.query fuel text₁) (byteCount text₁.toList + 1)
          fun s => s.query fuel text₂) := by
  have hparse₁ := parse_of_query h₁
  have hparse₂ := parse_of_query h₂
  rw [hgrammar] at hparse₁ hparse₂
  have hp : Sound q₁.program := linked_of_parse hparse₁
  have hq : Sound q₂.program := linked_of_parse hparse₂
  have htext : (text₁ ++ "\n" ++ text₂).toList = text₁.toList ++ '\n' :: text₂.toList := by
    rw [String.toList_append, String.toList_append, List.append_assoc]
    rfl
  have hwhole : s.grammar.parse (text₁ ++ "\n" ++ text₂).toList
      = .ok (q₁.program.followedBy (byteCount text₁.toList + 1) q₂.program) := by
    rw [hgrammar, htext]
    exact parse_followedBy hparse₁ hparse₂ hroom
  rw [query_of_parse hwhole, query_of_parse (hgrammar ▸ hparse₁),
    execute_followedBy hlibrary hbudget hroom _ _ hp hq _ text₁ text₂]
  refine congrArg QueryResult.bare (QueryResult.andThen_congr _ ?_)
  have hgrammar' : (s.execute fuel ⟨text₁, q₁.program⟩).2.grammar = Grammar.standard := hgrammar
  rw [query_of_parse (hgrammar' ▸ hparse₂)]

/-- The second text calls the function that the first one binds, and fails after that. -/
theorem query_lines_failing : ∃ q₁ q₂, standard.parse "f = (y) => y" = .ok q₁
    ∧ standard.parse "x = f(i); z" = .ok q₂
    ∧ q₁.program.forest.size + q₂.program.forest.size ≤ 4294967295
    ∧ QueryResult.bare (standard.query 4 "f = (y) => y\nx = f(i); z")
      = (.error (.stopped (.failed ⟨.symbolMissing "z", some ⟨23, 24⟩, []⟩)),
        { standard with
          environment := ⟨[("x", .scalar ⟨Double.zero, Double.one⟩), ("f", .function
            (.lambda ⟨["y"], ⟨0⟩, ⟨#[⟨.name "y", Span.none⟩]⟩, some 0⟩ []))], []⟩
          nextSerial := 1 }) := by
  let p : Program := ⟨⟨#[⟨.name "f", ⟨0, 1⟩⟩, ⟨.name "y", ⟨5, 6⟩⟩, ⟨.name "y", ⟨11, 12⟩⟩,
    ⟨.lambda ["y"] ⟨2⟩, ⟨5, 12⟩⟩, ⟨.assign ⟨0⟩ none ⟨3⟩, ⟨0, 12⟩⟩]⟩, [⟨⟨4⟩, false⟩]⟩
  let q : Program := ⟨⟨#[⟨.name "x", ⟨0, 1⟩⟩, ⟨.name "f", ⟨4, 5⟩⟩, ⟨.name "i", ⟨6, 7⟩⟩,
    ⟨.call ⟨1⟩ [⟨2⟩], ⟨4, 8⟩⟩, ⟨.assign ⟨0⟩ none ⟨3⟩, ⟨0, 8⟩⟩, ⟨.name "z", ⟨10, 11⟩⟩]⟩,
    [⟨⟨4⟩, true⟩, ⟨⟨5⟩, false⟩]⟩
  have hp : standard.grammar.parse "f = (y) => y".toList = .ok p := by decide +kernel
  have hq : standard.grammar.parse "x = f(i); z".toList = .ok q := by decide +kernel
  have h₁ : standard.parse "f = (y) => y" = .ok ⟨"f = (y) => y", p⟩ := by rw [Session.parse, hp]
  have h₂ : standard.parse "x = f(i); z" = .ok ⟨"x = f(i); z", q⟩ := by rw [Session.parse, hq]
  let f (captures : List Capture) : Value :=
    .function (.lambda ⟨["y"], ⟨0⟩, ⟨#[⟨.name "y", ⟨11, 12⟩⟩]⟩, some 0⟩ captures)
  let s (captures : List Capture) : Session :=
    { standard.set "f" (f captures) with nextSerial := 1 }
  -- sorting the names of captures is not a computation that `rfl` follows
  have hnone : Environment.empty.capture [] = [] := by simp [Environment.capture]
  have hfirst : standard.query 4 "f = (y) => y" = (.ok [some (f [])], s []) := by
    rw [query_of_parse hp, ← hnone]
    rfl
  have hsecond : (s []).query 4 "x = f(i); z"
      = (.error (.stopped (.failed ⟨.symbolMissing "z", some ⟨10, 11⟩, []⟩)),
        (s []).set "x" (.scalar ⟨Double.zero, Double.one⟩)) := by
    rw [query_of_parse (s := s []) hq]
    rfl
  refine ⟨_, _, h₁, h₂, by decide,
    (query_lines (s := standard) rfl rfl rfl h₁ h₂ (by decide) 4).trans ?_⟩
  rw [hfirst, QueryResult.andThen_ok, hsecond]
  refine Prod.ext rfl (congrArg (fun e => { standard with environment := e, nextSerial := 1 }) ?_)
  change Environment.mk [("x", Value.bare _), ("f", (f []).bare)] [] = _
  simp [f, Value.bare, Callable.bare, Capture.allBare, Forest.bare]

/-- A number that is true guards what follows it. -/
theorem evaluate_guarded {s : Setting} {id right : NodeId} {m : Machine}
    (hdigit : s.forest.kind? ⟨0⟩ = some (.real (Decimal.toDouble ['1'])))
    (hor : s.forest.kind? id = some (.binary .or ⟨0⟩ right)) :
    (Setting.evaluate 2 s id).run.run m = (.ok (.ofBool true), m) :=
  Setting.evaluate_or hor (Setting.evaluate_real hdigit) (by decide)

theorem query_guarded {text : String} {f : Forest} {id right : NodeId}
    (hparse : Grammar.standard.parse text.toList = .ok ⟨f, [⟨id, false⟩]⟩)
    (hdigit : f.kind? ⟨0⟩ = some (.real (Decimal.toDouble ['1'])))
    (hor : f.kind? id = some (.binary .or ⟨0⟩ right)) :
    standard.query 2 text = (.ok [some (.ofBool true)], standard) := by
  rw [query_of_parse (s := standard) hparse]
  exact execute_single inTime_standard text fun checks => evaluate_guarded hdigit hor

/-- Where there are more nodes than numbers, a digit on the second line has the number of the root
of that line. By itself the line is true, and behind the first line it is that digit. -/
theorem not_query_lines : ¬∀ (fuel : Nat) (text₁ text₂ : String) (q₁ q₂ : Query),
    byteCount (text₁ ++ "\n" ++ text₂).toList < 4294967296 →
    standard.parse text₁ = .ok q₁ → standard.parse text₂ = .ok q₂ →
      QueryResult.bare (standard.query fuel (text₁ ++ "\n" ++ text₂))
        = QueryResult.bare (QueryResult.andThen (standard.query fuel text₁)
            (byteCount text₁.toList + 1) fun s => s.query fuel text₂) := by
  intro h
  have hshort : byteCount (Crowd.guarded Crowd.bulk ++ '\n' :: Crowd.guarded 1) < 4294967296 := by
    rw [Crowd.byteCount_guarded_lines]
    decide
  obtain ⟨f, hwhole, -, hguard, hor, hdigit, -⟩ := Crowd.parse_crowd
  obtain ⟨f₁, hfirst, hguard₁, hor₁⟩ := Crowd.parse_guarded (n := Crowd.bulk) (by decide)
  obtain ⟨f₂, hsecond, hguard₂, hor₂⟩ := Crowd.parse_guarded (n := 1) (by decide)
  -- the first line is far too long to be written out
  generalize Crowd.guarded Crowd.bulk = line₁ at hshort hwhole hfirst
  generalize Crowd.guarded 1 = line₂ at hshort hwhole hsecond
  obtain ⟨text₁, rfl⟩ : ∃ text : String, text.toList = line₁ := ⟨_, String.toList_ofList⟩
  obtain ⟨text₂, rfl⟩ : ∃ text : String, text.toList = line₂ := ⟨_, String.toList_ofList⟩
  have htext : text₁.toList ++ '\n' :: text₂.toList = (text₁ ++ "\n" ++ text₂).toList := by
    rw [String.toList_append, String.toList_append, List.append_assoc]
    rfl
  rw [htext] at hshort hwhole
  have hboth : standard.query 2 (text₁ ++ "\n" ++ text₂)
      = (.ok [some (.ofBool true), some (.real (Decimal.toDouble ['2']))], standard) := by
    have hcheck := Setting.run_check_untimed (s := standard.setting f) rfl
    have hrun (m : Machine) := Setting.run_cons (m := m) (t := ⟨⟨4294967292⟩, false⟩) (hcheck _)
      (evaluate_guarded hguard hor) (Setting.run_cons (t := ⟨⟨4294967294⟩, false⟩) (hcheck _)
        (Setting.evaluate_real hdigit) Setting.run_nil)
    rw [query_of_parse (s := standard) hwhole]
    exact execute_of_run (s := standard) (q := ⟨text₁ ++ "\n" ++ text₂, f, _⟩) (hrun _)
  have hparse₁ := parse_of_grammar (s := standard) hfirst
  have hparse₂ := parse_of_grammar (s := standard) hsecond
  have hresults := congrArg Prod.fst (h 2 text₁ text₂ _ _ hshort hparse₁ hparse₂)
  rw [hboth, query_guarded hfirst hguard₁ hor₁, QueryResult.andThen_ok,
    query_guarded hsecond hguard₂ hor₂] at hresults
  have houtputs := List.cons.inj (List.cons.inj (Except.ok.inj hresults)).2
  have hdigits := congrArg Complex.re (Value.scalar.inj (Option.some.inj houtputs.1))
  exact absurd hdigits (by decide)

end Session

end MatrixScript
