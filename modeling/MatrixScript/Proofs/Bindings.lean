import MatrixScript.Proofs.Bindings.Environments
import MatrixScript.Proofs.Frames
import MatrixScript.Proofs.Hermetic
import MatrixScript.Proofs.Overloads
import MatrixScript.Proofs.Overloads.Binding
import MatrixScript.Proofs.Ranges
import MatrixScript.Proofs.Registration

/-!
# Binding all or nothing

An operation that binds or erases variables evaluates its operands first. From then on it either
fails, and the variables are what the operands have left, or it succeeds and has changed those that
it names and no others.
-/

namespace MatrixScript

namespace Evaluation

variable {α β : Type} {m m' : Machine}

/-- From here it fails without a trace, or succeeds with a change to the variables as described. -/
def Settles (m : Machine) (x : Evaluation α) (done : α → Environment → Prop) : Prop :=
  (∃ stop, x.run.run m = (.error stop, m))
    ∨ ∃ a e, x.run.run m = (.ok a, { m with environment := e }) ∧ done a e

/-- Where the operands stop, all stops; once they have their values, all that is left settles. -/
structure AllOrNothing (m : Machine) (operands : Evaluation β) (x : Evaluation α)
    (done : β → Environment → α → Environment → Prop) : Prop where
  stops : ∀ stop m', operands.run.run m = (.error stop, m') →
    ∃ stop', x.run.run m = (.error stop', m')
  settles : ∀ b m', operands.run.run m = (.ok b, m') →
    (∃ stop, x.run.run m = (.error stop, m'))
      ∨ ∃ a e, x.run.run m = (.ok a, { m' with environment := e }) ∧ done b m'.environment a e

section Settles

variable {x y : Evaluation α} {f : β → Evaluation α} {done : α → Environment → Prop}

theorem Settles.congr (h : Settles m y done) (hrun : x.run.run m = y.run.run m) :
    Settles m x done := by
  unfold Settles
  rw [hrun]
  exact h

theorem settles_ofResult_bind {r : Result β} (h : ∀ b, r = .ok b → Settles m (f b) done) :
    Settles m (ofResult r >>= f) done := by
  cases r with
  | error fault => exact Or.inl ⟨_, rfl⟩
  | ok b => exact h b rfl

theorem settles_modify {g : Environment → Environment} {a : α} (h : done a (g m.environment)) :
    Settles m (do modifyEnvironment g; return a) done :=
  Or.inr ⟨a, g m.environment, rfl, h⟩

end Settles

section AllOrNothing

variable {operands : Evaluation β} {x y : Evaluation α} {f : β → Evaluation α}
  {done : β → Environment → α → Environment → Prop}

theorem AllOrNothing.congr (h : AllOrNothing m operands y done)
    (hrun : x.run.run m = y.run.run m) : AllOrNothing m operands x done := by
  constructor
  · rw [hrun]
    exact h.stops
  · rw [hrun]
    exact h.settles

theorem allOrNothing_bind (h : ∀ b m', operands.run.run m = (.ok b, m') →
      Settles m' (f b) (done b m'.environment)) : AllOrNothing m operands (operands >>= f) done := by
  constructor
  · intro stop m' hstop
    exact ⟨stop, run_bind_of_error hstop⟩
  · intro b m' hb
    rw [run_bind_of_ok hb]
    exact h b m' hb

theorem AllOrNothing.locatedAt (h : AllOrNothing m operands x done) (span : Span) :
    AllOrNothing m operands (x.locatedAt span) done := by
  have hstopped {stop : Stop} {m' : Machine} (hrun : x.run.run m = (.error stop, m')) :
      ∃ stop', (x.locatedAt span).run.run m = (.error stop', m') :=
    ⟨_, congrArg (fun ended : Except Stop α × Machine => (ended.1.mapError _, ended.2)) hrun⟩
  have hsettled {a : α} {m' : Machine} (hrun : x.run.run m = (.ok a, m')) :
      (x.locatedAt span).run.run m = (.ok a, m') :=
    congrArg (fun ended : Except Stop α × Machine => (ended.1.mapError _, ended.2)) hrun
  constructor
  · intro stop m' hstop
    obtain ⟨stop', hrun⟩ := h.stops stop m' hstop
    exact hstopped hrun
  · intro b m' hb
    rcases h.settles b m' hb with ⟨stop', hrun⟩ | ⟨a, e, hrun, hdone⟩
    · exact Or.inl (hstopped hrun)
    · exact Or.inr ⟨a, e, hsettled hrun, hdone⟩

end AllOrNothing

end Evaluation

open Evaluation

/-- The element that goes to one of several names: the one in its place, or the only one. -/
def Value.Spreads (v : Value) (count k : Nat) (bound : Value) : Prop :=
  ∃ m z, v.matrix? = some m ∧ bound = scalar z
    ∧ (m.scalar? = some z ∨ m.scalar? = none ∧ m.count = count ∧ m.data[k]? = some z)

namespace Setting

/-- A compound assignment combines the old value with the new one. -/
def Combines (op : Option BinaryOp) (old : Value → Prop) (v combined : Value) : Prop :=
  match op with
  | none => combined = v
  | some op => ∃ u, old u ∧ Value.binary op u v = .ok combined

/-- The names among some nodes. -/
def namesOf (s : Setting) (ids : List NodeId) : List String :=
  ids.filterMap fun id => match s.forest.kind? id with
    | some (.name name) => some name
    | _ => none

/-- What is evaluated for an assignment to elements: the value, and then the indices, for which the
variable has to be looked at. -/
def elementOperands (s : Setting) (eval : Evaluator) (name : String) (ids : List NodeId)
    (op : Option BinaryOp) (value : NodeId) : Evaluation (Value × Value × List IndexArg) := do
  let v ← eval s value
  let target ← indexedVariable name op
  let args ← s.indexArguments eval target ids
  return (v, target, args)

/-- The operations that bind or erase variables: the operands that they evaluate, and what they do
with the values of these if they succeed. -/
inductive Binding (s : Setting) (fuel : Nat) (m : Machine) (id : NodeId) : {β : Type} →
    Evaluation β → (β → Environment → Value → Environment → Prop) → Prop where
  | name {target value : NodeId} {op : Option BinaryOp} {name : String}
      (hid : s.forest.kind? id = some (.assign target op value))
      (htarget : s.forest.kind? target = some (.name name)) :
      Binding s fuel m id (evaluate fuel s value) fun v e a e' =>
        Combines op (e.lookup name = some ·) v a ∧ e.Binds [name] (fun _ bound => bound = a) e'
  | elements {target callee value : NodeId} {ids : List NodeId} {op : Option BinaryOp}
      {name : String} (hid : s.forest.kind? id = some (.assign target op value))
      (htarget : s.forest.kind? target = some (.call callee ids))
      (hcallee : s.forest.kind? callee = some (.name name)) :
      Binding s fuel m id (s.elementOperands (evaluate fuel) name ids op value)
        fun (v, target, args) e a e' => Combines op (target.index args = .ok ·) v a
          ∧ e.Binds [name] (fun _ bound => target.assignIndex args a = .ok bound) e'
  | names {target value : NodeId} {rows : List (List NodeId)} {op : Option BinaryOp}
      (hid : s.forest.kind? id = some (.assign target op value))
      (htarget : s.forest.kind? target = some (.matrix rows))
      (hrows : ∀ element ∈ rows.flatten, (s.forest.kind? element).isSome = true) :
      Binding s fuel m id (evaluate fuel s value) fun v e a e' =>
        a = v ∧ e.Binds (s.namesOf rows.flatten) (fun name bound => ∃ before after,
          s.namesOf rows.flatten = before ++ name :: after ∧ name ∉ after
            ∧ v.Spreads (s.namesOf rows.flatten).length before.length bound) e'
  | clear {callee : NodeId} {ids : List NodeId} (hid : s.forest.kind? id = some (.call callee ids))
      (hcallee : s.forest.kind? callee = some (.name "clear")) (hids : ids ≠ [])
      (hlibrary : s.library.overloads "clear" = Library.standard.overloads "clear")
      (hvisible : m.environment.lookup "clear" = none) :
      Binding s fuel m id (s.arguments (evaluate fuel) ids) fun args e _ e' =>
        ∃ names : List String, args = names.map .text ∧ e.Erases names e'

variable {s : Setting} {fuel : Nat} {m : Machine} {id : NodeId} {op : Option BinaryOp}
  {name : String}

/-! ### Assignments -/

theorem settles_combined {α : Type} {old : Evaluation Value} {r : Result Value}
    {P : Value → Prop} {v : Value} {f : Value → Evaluation α} {done : α → Environment → Prop}
    (hold : ∀ g : Value → Evaluation α, (old >>= g).run.run m = (ofResult r >>= g).run.run m)
    (hP : ∀ u, r = .ok u → P u) (h : ∀ a, Combines op P v a → Settles m (f a) done) :
    Settles m (combined op old v >>= f) done := by
  cases op with
  | none => exact h v rfl
  | some op =>
      have hrun : (combined (some op) old v >>= f).run.run m
          = (ofResult r >>= fun u => ofResult (Value.binary op u v) >>= f).run.run m := by
        rw [← hold, combined, bind_assoc]
      apply Settles.congr _ hrun
      apply settles_ofResult_bind
      intro u hu
      apply settles_ofResult_bind
      intro a ha
      exact h a ⟨u, hP u hu, ha⟩

theorem allOrNothing_name (value : NodeId) (name : String) (op : Option BinaryOp) :
    AllOrNothing m (evaluate fuel s value) (s.assignName (evaluate fuel) name op value)
      fun v e a e' =>
        Combines op (e.lookup name = some ·) v a ∧ e.Binds [name] (fun _ bound => bound = a) e' := by
  apply allOrNothing_bind
  intro v m' _
  have hold (g : Value → Evaluation Value) : (oldValue name >>= g).run.run m'
      = (ofResult ((m'.environment.lookup name).elim (.error (.symbolMissing name)) .ok)
        >>= g).run.run m' := rfl
  apply settles_combined (P := (m'.environment.lookup name = some ·)) hold
  · intro u hu
    cases hlookup : m'.environment.lookup name with
    | none =>
        rw [hlookup] at hu
        cases hu
    | some w =>
        rw [hlookup] at hu
        exact congrArg some (Except.ok.inj hu)
  · intro a ha
    apply settles_modify
    exact ⟨ha, Environment.binds_define rfl _⟩

theorem allOrNothing_elements (value : NodeId) (name : String) (ids : List NodeId)
    (op : Option BinaryOp) :
    AllOrNothing m (s.elementOperands (evaluate fuel) name ids op value)
      (s.assignElements (evaluate fuel) name ids op value)
      fun (v, target, args) e a e' => Combines op (target.index args = .ok ·) v a
        ∧ e.Binds [name] (fun _ bound => target.assignIndex args a = .ok bound) e' := by
  have hrun : s.assignElements (evaluate fuel) name ids op value
      = s.elementOperands (evaluate fuel) name ids op value >>= fun (v, target, args) => do
        let v ← combined op (ofResult (target.index args)) v
        let changed ← ofResult (target.assignIndex args v)
        define name changed
        return v := by
    simp only [assignElements, elementOperands, bind_assoc, pure_bind]
  rw [hrun]
  apply allOrNothing_bind
  rintro ⟨v, target, args⟩ m' -
  apply settles_combined (fun g => rfl) (fun u hu => hu)
  intro a ha
  apply settles_ofResult_bind
  intro changed hchanged
  apply settles_modify
  exact ⟨ha, Environment.binds_define hchanged _⟩

/-! ### Several names -/

theorem kind_eq_pure {k : NodeKind NodeId} (h : s.forest.kind? id = some k) :
    s.kind id = pure k := by
  obtain ⟨node, hnode, rfl⟩ := Option.map_eq_some_iff.mp h
  rw [kind, Setting.node, hnode]
  rfl

/-- By induction on the nodes. -/
theorem mapM_kind {ids : List NodeId} (h : ∀ id ∈ ids, (s.forest.kind? id).isSome = true) :
    ∃ kinds, ids.mapM s.kind = pure kinds ∧ kinds.map some = ids.map s.forest.kind? := by
  induction ids with
  | nil => exact ⟨[], rfl, rfl⟩
  | cons id ids ih =>
      obtain ⟨hid, hids⟩ := List.forall_mem_cons.mp h
      obtain ⟨k, hk⟩ := Option.isSome_iff_exists.mp hid
      obtain ⟨kinds, hkinds, hmap⟩ := ih hids
      refine ⟨k :: kinds, ?_, ?_⟩
      · rw [List.mapM_cons, kind_eq_pure hk, hkinds]
        rfl
      · rw [List.map_cons, List.map_cons, hk, hmap]

theorem namesAmong_eq_pure {ids : List NodeId}
    (h : ∀ id ∈ ids, (s.forest.kind? id).isSome = true) :
    s.namesAmong ids = pure (s.namesOf ids) := by
  obtain ⟨kinds, hkinds, hmap⟩ := mapM_kind h
  have hnames : s.namesOf ids = (kinds.map some).filterMap fun k? => match k? with
      | some (.name name) => some name
      | _ => none := by
    rw [hmap, List.filterMap_map]
    rfl
  rw [namesAmong, hkinds, hnames, List.filterMap_map]
  rw [pure_bind]
  congr 2
  funext k
  cases k <;> rfl

theorem spreadOver_spec {names : List String} {v : Value} {bindings : List (String × Value)}
    (h : spreadOver names v = .ok bindings) : bindings.map (·.1) = names
      ∧ ∀ k name bound, bindings[k]? = some (name, bound) → v.Spreads names.length k bound := by
  unfold spreadOver at h
  split at h
  · cases h
  · rename_i m hm
    split at h
    · rename_i z hz
      cases h
      constructor
      · rw [List.map_map]
        exact List.map_id names
      · intro k name bound hbound
        rw [List.getElem?_map] at hbound
        obtain ⟨other, -, hpair⟩ := Option.map_eq_some_iff.mp hbound
        cases hpair
        exact ⟨m, z, hm, rfl, Or.inl hz⟩
    · rename_i hnone
      split at h
      · rename_i hcount
        cases h
        have hlength : (m.data.toList.map Value.scalar).length = names.length := by
          rw [List.length_map, Array.length_toList]
          exact hcount
        constructor
        · exact List.map_fst_zip (Nat.le_of_eq hlength.symm)
        · intro k name bound hbound
          obtain ⟨-, hbound⟩ := List.getElem?_zip_eq_some.mp hbound
          rw [List.getElem?_map, Array.getElem?_toList] at hbound
          obtain ⟨z, hz, rfl⟩ := Option.map_eq_some_iff.mp hbound
          exact ⟨m, z, hm, rfl, Or.inr ⟨hnone, hcount, hz⟩⟩
      · cases h

/-- The last place of a name in a list. -/
theorem exists_last_place {names : List String} {name : String} (h : name ∈ names) :
    ∃ before after, names = before ++ name :: after ∧ name ∉ after := by
  induction names with
  | nil => cases h
  | cons first names ih =>
      by_cases hrest : name ∈ names
      · obtain ⟨before, after, rfl, hafter⟩ := ih hrest
        exact ⟨first :: before, after, rfl, hafter⟩
      · obtain rfl := (List.mem_cons.mp h).resolve_right hrest
        exact ⟨[], names, rfl, hrest⟩

theorem binds_spreadOver {names : List String} {v : Value} {bindings : List (String × Value)}
    (h : spreadOver names v = .ok bindings) (e : Environment) :
    e.Binds names (fun name bound => ∃ before after, names = before ++ name :: after
      ∧ name ∉ after ∧ v.Spreads names.length before.length bound) (e.defineAll bindings) := by
  obtain ⟨hnames, hspreads⟩ := spreadOver_spec h
  constructor
  · exact Environment.outer_defineAll e bindings
  · intro name hname
    apply Environment.lookup_defineAll_of_notMem
    rwa [hnames]
  · intro name hname
    obtain ⟨before, after, hsplit, hafter⟩ := exists_last_place hname
    rw [hsplit] at hnames
    obtain ⟨first, rest, rfl, hfirst, hrest⟩ := List.map_eq_append_iff.mp hnames
    obtain ⟨⟨other, bound⟩, last, rfl, hother, hlast⟩ := List.map_eq_cons_iff.mp hrest
    obtain rfl : other = name := hother
    refine ⟨bound, ?_, before, after, hsplit, hafter, ?_⟩
    · apply Environment.lookup_defineAll
      rwa [hlast]
    · apply hspreads before.length other bound
      rw [← hfirst, List.length_map, List.getElem?_append_right (Nat.le_refl _), Nat.sub_self]
      rfl

theorem allOrNothing_names (value : NodeId) {ids : List NodeId}
    (h : ∀ id ∈ ids, (s.forest.kind? id).isSome = true) :
    AllOrNothing m (evaluate fuel s value) (s.assignNames (evaluate fuel) ids value)
      fun v e a e' => a = v ∧ e.Binds (s.namesOf ids) (fun name bound => ∃ before after,
        s.namesOf ids = before ++ name :: after ∧ name ∉ after
          ∧ v.Spreads (s.namesOf ids).length before.length bound) e' := by
  rw [assignNames, namesAmong_eq_pure h, pure_bind]
  apply allOrNothing_bind
  intro v m' _
  apply settles_ofResult_bind
  intro bindings hbindings
  apply settles_modify
  exact ⟨rfl, binds_spreadOver hbindings _⟩

end Setting

/-! ### Erasing -/

section Texts

variable {args : List Value}

theorem map_text_filterMap (h : ∀ v ∈ args, v.kind = .string) :
    (args.filterMap Value.text?).map Value.text = args := by
  induction args with
  | nil => rfl
  | cons v args ih =>
      obtain ⟨hv, hargs⟩ := List.forall_mem_cons.mp h
      cases v with
      | text t =>
          exact congrArg (Value.text t :: ·) (ih hargs)
      | _ => cases hv

theorem zipWith_coerce_replicate {k : Kind} (h : ∀ v ∈ args, v.kind = k) :
    (List.replicate args.length (.only k)).zipWith ParamKind.coerce args = args := by
  induction args with
  | nil => rfl
  | cons v args ih =>
      obtain ⟨hv, hargs⟩ := List.forall_mem_cons.mp h
      rw [List.length_cons, List.replicate_succ, List.zipWith_cons_cons, ih hargs]
      exact congrArg (· :: args) (ParamKind.converted_of_kind hv)

theorem forall_of_forall₂_replicate {α β : Type} {R : α → β → Prop} {a : α} {n : Nat} {l : List β}
    (h : List.Forall₂ R (List.replicate n a) l) : ∀ b ∈ l, R a b := by
  induction l generalizing n with
  | nil => exact List.forall_mem_nil _
  | cons b l ih =>
      cases n with
      | zero => cases h
      | succ n =>
          cases h with
          | cons hb hrest => exact List.forall_mem_cons.mpr ⟨hb, ih hrest⟩

theorem kind_of_fit_string {v : Value} (h : (ParamKind.only .string).fit v ≠ .rejected) :
    v.kind = .string := by
  cases v with
  | text => rfl
  | _ => exact absurd rfl h

/-- A lone variadic slot for texts takes texts, and hands them on as they are. -/
theorem texts_of_matches {v : Variadic} {rest : Nat} (hkind : v.kind = .only .string)
    (h : Signature.Matches ⟨[.variadic v]⟩ args rest) : (∀ v ∈ args, v.kind = .string)
      ∧ Signature.bind ⟨[.variadic v]⟩ args = ⟨[], args⟩ := by
  have hform : Signature.Form [.variadic v] := .around [] v []
  have hslots := Signature.slots?_eq hform h.leaves
  have hfits := h.fits
  have hflat : [Param.variadic v].flatMap (Param.slots rest)
      = (List.replicate rest v.kind).map fun k => ⟨k, true⟩ := by
    rw [List.flatMap_singleton, List.map_replicate]
    rfl
  rw [hflat, hkind] at hslots hfits
  have hrest : rest = args.length := by
    rw [← hfits.length_eq, List.length_map, List.length_replicate]
  have hstrings : ∀ v ∈ args, v.kind = .string := by
    intro v hv
    apply kind_of_fit_string
    exact forall_of_forall₂_replicate (List.forall₂_map_left_iff.mp hfits) v hv
  refine ⟨hstrings, ?_⟩
  rw [Signature.bind_of_slots hslots, Signature.zipWith_handOn, Signature.withMark_map,
    Signature.withMark_map, hrest, zipWith_coerce_replicate hstrings]
  rfl

end Texts

/-- `clear` looks whether all names are there before it erases one. -/
theorem Variables.clearNames_texts (name : String) (names : List String) (e : Environment) :
    (∃ fault, (clearNames name ⟨[], names.map .text⟩).run.run e = (.error fault, e))
      ∨ ∃ v e', (clearNames name ⟨[], names.map .text⟩).run.run e = (.ok v, e')
        ∧ e.Erases names e' := by
  have hnames : (names.map Value.text).filterMap Value.text? = names := by
    rw [List.filterMap_map]
    exact List.filterMap_some
  have hget (k : Environment → ExceptT Fault (StateM Environment) Value) :
      (get >>= k).run.run e = (k e).run.run e := rfl
  simp only [clearNames, hnames, hget]
  cases hmissing : names.find? fun name => !e.contains name with
  | some missing => exact Or.inl ⟨_, rfl⟩
  | none =>
      refine Or.inr ⟨_, _, rfl, erases_eraseAll fun name hname => ?_⟩
      simpa using List.find?_eq_none.mp hmissing name hname

namespace Library

variable {l : Library} {args : List Value}

/-- A call of `clear` with arguments changes nothing if it fails, and if it succeeds it erases just
the names that it lists. -/
theorem call_clear (hl : l.overloads "clear" = standard.overloads "clear") (hargs : args ≠ [])
    (e : Environment) :
    (∃ fault, (l.call "clear" args).run.run e = (.error fault, e))
      ∨ ∃ v e', (l.call "clear" args).run.run e = (.ok v, e')
        ∧ ∃ names : List String, args = names.map .text ∧ e.Erases names e' := by
  have hoverloads : standard.overloads "clear" = [⟨⟨[]⟩, Variables.clearAll⟩,
      ⟨⟨[.variadic ⟨.only .string, 1, none, 1⟩]⟩, Variables.clearNames⟩] := rfl
  have hselects : Overload.Selects "clear" (standard.overloads "clear") args
      (Overload.select "clear" (standard.overloads "clear") args) :=
    Overload.selects_select fun o ho =>
      (Signature.validate_eq_ok_iff "clear").mpr (coherent_standard.valid "clear" o ho)
  unfold call
  rw [hl]
  rw [hoverloads] at hselects ⊢
  dsimp only
  generalize Overload.select "clear" _ args = outcome at hselects ⊢
  cases hselects with
  | none => exact Or.inl ⟨_, rfl⟩
  | several => exact Or.inl ⟨_, rfl⟩
  | @one o others rank hlowest =>
      obtain ⟨rest, hranks⟩ := hlowest.lowest o List.mem_cons_self
      have ho := hlowest.parts.subset (List.mem_append_left _ List.mem_cons_self)
      rcases List.mem_cons.mp ho with rfl | ho
      · exact absurd (List.forall₂_nil_left_iff.mp hranks.fits.fits) hargs
      · obtain rfl := List.mem_singleton.mp ho
        obtain ⟨hstrings, hbind⟩ := texts_of_matches rfl hranks.fits
        have hnames := map_text_filterMap hstrings
        dsimp only
        rw [hbind, ← hnames]
        rcases Variables.clearNames_texts "clear" (args.filterMap Value.text?) e with
          hfails | ⟨v, e', hrun, herases⟩
        · exact Or.inl hfails
        · exact Or.inr ⟨v, e', hrun, _, rfl, herases⟩

end Library

namespace Setting

theorem settles_native {x : ExceptT Fault (StateM Environment) Value} {m : Machine}
    {done : Value → Environment → Prop}
    (h : (∃ fault, x.run.run m.environment = (.error fault, m.environment))
      ∨ ∃ v e, x.run.run m.environment = (.ok v, e) ∧ done v e) : Settles m (native x) done := by
  have hrun : (native x).run.run m
      = ((x.run.run m.environment).1.mapError fun fault => .failed (.ofFault fault),
        { m with environment := (x.run.run m.environment).2 }) := rfl
  unfold Settles
  rw [hrun]
  rcases h with ⟨fault, hx⟩ | ⟨v, e, hx, hdone⟩
  · rw [hx]
    exact Or.inl ⟨_, rfl⟩
  · rw [hx]
    exact Or.inr ⟨v, e, rfl, hdone⟩

variable {s : Setting} {fuel : Nat} {m : Machine} {id : NodeId} {ids : List NodeId}

theorem allOrNothing_clear (hids : ids ≠ [])
    (hlibrary : s.library.overloads "clear" = Library.standard.overloads "clear")
    (hvisible : m.environment.lookup "clear" = none) :
    AllOrNothing m (s.arguments (evaluate fuel) ids) (s.callNamed (evaluate fuel) "clear" ids)
      fun args e _ e' => ∃ names : List String, args = names.map .text ∧ e.Erases names e' := by
  have hfunction : s.library.hasFunction "clear" = true := by
    cases hfunction : s.library.hasFunction "clear" with
    | true => rfl
    | false =>
        rw [Library.overloads, Library.find?_eq_none_of_not_hasFunction hfunction] at hlibrary
        cases hlibrary
  have hrun : (s.callNamed (evaluate fuel) "clear" ids).run.run m
      = (s.arguments (evaluate fuel) ids
        >>= fun args => native (s.library.call "clear" args)).run.run m := by
    have hlookup : (visible? "clear").run.run m = (.ok none, m) := by
      rw [← hvisible]
      rfl
    rw [callNamed, run_bind_of_ok hlookup]
    simp only [hfunction, if_true]
  apply AllOrNothing.congr _ hrun
  apply allOrNothing_bind
  intro args m' hargs
  apply settles_native
  apply Library.call_clear hlibrary
  rintro rfl
  exact hids (List.length_eq_zero_iff.mp (length_of_run_mapM hargs).symm)

/-! ### All of them -/

theorem allOrNothing_evaluate {β : Type} {k : NodeKind NodeId} {operands : Evaluation β}
    {done : β → Environment → Value → Environment → Prop} (hid : s.forest.kind? id = some k)
    (h : AllOrNothing m operands (s.value (evaluate fuel) fuel k) done) :
    AllOrNothing m operands (evaluate (fuel + 1) s id) done := by
  obtain ⟨node, hnode, rfl⟩ := Option.map_eq_some_iff.mp hid
  exact (h.locatedAt node.span).congr (run_evaluate hnode)

/-- Binding operations are all or nothing: once the operands have their values, the operation fails
and the variables are what the operands have left, or it succeeds and has changed just those that it
names. -/
theorem Binding.allOrNothing {β : Type} {operands : Evaluation β}
    {done : β → Environment → Value → Environment → Prop} (h : Binding s fuel m id operands done) :
    AllOrNothing m operands (evaluate (fuel + 1) s id) done := by
  cases h with
  | @name target value op name hid htarget =>
      apply allOrNothing_evaluate hid
      have hassign : s.value (evaluate fuel) fuel (.assign target op value)
          = s.assignName (evaluate fuel) name op value := by
        rw [Setting.value, assign, kind_eq_pure htarget, pure_bind]
      rw [hassign]
      exact allOrNothing_name value name op
  | @elements target callee value ids op name hid htarget hcallee =>
      apply allOrNothing_evaluate hid
      have hassign : s.value (evaluate fuel) fuel (.assign target op value)
          = s.assignElements (evaluate fuel) name ids op value := by
        rw [Setting.value, assign, kind_eq_pure htarget, pure_bind]
        dsimp only
        rw [kind_eq_pure hcallee, pure_bind]
      rw [hassign]
      exact allOrNothing_elements value name ids op
  | @names target value rows op hid htarget hrows =>
      apply allOrNothing_evaluate hid
      have hassign : s.value (evaluate fuel) fuel (.assign target op value)
          = s.assignNames (evaluate fuel) rows.flatten value := by
        rw [Setting.value, assign, kind_eq_pure htarget, pure_bind]
      rw [hassign]
      exact allOrNothing_names value hrows
  | @clear callee ids hid hcallee hids hlibrary hvisible =>
      apply allOrNothing_evaluate hid
      have hcall : s.value (evaluate fuel) fuel (.call callee ids)
          = s.callNamed (evaluate fuel) "clear" ids := by
        rw [Setting.value, call, kind_eq_pure hcallee, pure_bind]
      rw [hcall]
      exact allOrNothing_clear hids hlibrary hvisible

/-- `clear("a", "z")` without a variable `z` does not erase `a`. -/
theorem Binding.allOrNothing_missing :
    let forest : Forest := ⟨#[⟨.name "clear", ⟨0, 5⟩⟩, ⟨.text "a", ⟨6, 9⟩⟩, ⟨.text "z", ⟨11, 14⟩⟩,
      ⟨.call ⟨0⟩ [⟨1⟩, ⟨2⟩], ⟨0, 15⟩⟩]⟩
    let s : Setting := ⟨forest, Library.standard, none, Depth.ofLimit 1⟩
    let m : Machine := ⟨Environment.empty.define "a" (.ofNat 7), 0, 0, []⟩
    ∃ stop, (evaluate 2 s ⟨3⟩).run.run m = (.error stop, m) := by
  intro forest s m
  have hbinding : Binding s 1 m ⟨3⟩ _ _ := .clear rfl rfl (List.cons_ne_nil _ _) rfl rfl
  have hargs : (s.arguments (evaluate 1) [⟨1⟩, ⟨2⟩]).run.run m = (.ok [.text "a", .text "z"], m) :=
    rfl
  rcases hbinding.allOrNothing.settles _ _ hargs with hfails | ⟨v, e, -, names, hnames, herases⟩
  · exact hfails
  · have hz : "z" ∈ names := by
      have hmem : Value.text "z" ∈ names.map Value.text := by
        rw [← hnames]
        exact List.mem_cons_of_mem _ List.mem_cons_self
      obtain ⟨name, hname, heq⟩ := List.mem_map.mp hmem
      cases heq
      exact hname
    cases herases.visible "z" hz

end Setting

end MatrixScript
