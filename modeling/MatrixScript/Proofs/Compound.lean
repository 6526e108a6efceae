import MatrixScript.Proofs.Compound.Repeats

/-!
# Compound assignments and what they abbreviate

A compound assignment has code of its own. It evaluates the right side first, the index arguments
once, and it reads the old elements without calling the variable. Its expansion evaluates the
arguments, then the right side, then the arguments again. As long as these expressions leave the
variables as they are, the order is of no matter, and both come to the same.
-/

namespace MatrixScript

open Evaluation

/-- A variable, or elements of it. -/
def Tree.place (name : String) : Option (List Tree) → Tree
  | none => .of (.name name)
  | some args => .of (.call (.of (.name name)) args)

def Tree.compound (place : Tree) (op : BinaryOp) (value : Tree) : Tree :=
  .of (.assign place (some op) value)

/-- The assignment that the compound one abbreviates. -/
def Tree.expansion (place : Tree) (op : BinaryOp) (value : Tree) : Tree :=
  .of (.assign place none (.of (.binary op place value)))

/-- Both runs fail, or both succeed with the same value and the same variables. -/
inductive SameOutcome : Except Stop Value → Environment → Except Stop Value → Environment → Prop
  | success (v : Value) (e : Environment) : SameOutcome (.ok v) e (.ok v) e
  | failure (stop stop' : Stop) (e e' : Environment) :
    SameOutcome (.error stop) e (.error stop') e'

/-! ### The nodes -/

namespace Forest.Spells

variable {f : Forest} {id : NodeId} {t u : Tree}

theorem assign {op : Option BinaryOp} (h : f.Spells id (.of (.assign t op u))) :
    ∃ target value, f.kind? id = some (.assign target op value) ∧ f.Spells target t
      ∧ f.Spells value u := by
  obtain ⟨kind, hkind, hlabel, hchildren⟩ := h.children
  cases kind with
  | assign target op' value =>
      obtain rfl : op' = op := by cases hlabel; rfl
      have hboth : List.Forall₂ f.Spells [target, value] [t, u] := hchildren
      obtain ⟨htarget, hrest⟩ := List.forall₂_cons.mp hboth
      exact ⟨target, value, hkind, htarget, (List.forall₂_cons.mp hrest).1⟩
  | _ => cases hlabel

theorem binary {op : BinaryOp} (h : f.Spells id (.of (.binary op t u))) :
    ∃ left right, f.kind? id = some (.binary op left right) ∧ f.Spells left t
      ∧ f.Spells right u := by
  obtain ⟨kind, hkind, hlabel, hchildren⟩ := h.children
  cases kind with
  | binary op' left right =>
      obtain rfl : op' = op := by cases hlabel; rfl
      have hboth : List.Forall₂ f.Spells [left, right] [t, u] := hchildren
      obtain ⟨hleft, hrest⟩ := List.forall₂_cons.mp hboth
      exact ⟨left, right, hkind, hleft, (List.forall₂_cons.mp hrest).1⟩
  | _ => cases hlabel

theorem call {args : List Tree} (h : f.Spells id (.of (.call t args))) :
    ∃ callee ids, f.kind? id = some (.call callee ids) ∧ f.Spells callee t
      ∧ List.Forall₂ f.Spells ids args := by
  obtain ⟨kind, hkind, hlabel, hchildren⟩ := h.children
  cases kind with
  | call callee ids =>
      rw [NodeKind.children_call, NodeKind.children_call] at hchildren
      obtain ⟨hcallee, hargs⟩ := List.forall₂_cons.mp hchildren
      exact ⟨callee, ids, hkind, hcallee, hargs⟩
  | _ => cases hlabel

end Forest.Spells

/-! ### What both come to -/

variable {w : View} {e e' : Environment} {name : String} {op : BinaryOp} {old u : Value}
  {x x' : Nat → Evaluation Value} {y y' : Nat → Evaluation (List IndexArg)}

/-- What the right side gives is combined with the value of the variable. -/
def UpdatesVariable (w : View) (name : String) (op : BinaryOp) (old : Value)
    (x : Nat → Evaluation Value) (u : Value) (e' : Environment) : Prop :=
  ∃ v, Gives w x v ∧ Value.binary op old v = .ok u ∧ e' = w.environment.define name u

/-- What the right side gives is combined with the elements that the index arguments address, and
the result is written there. -/
def UpdatesElements (w : View) (name : String) (op : BinaryOp) (old : Value)
    (x : Nat → Evaluation Value) (y : Nat → Evaluation (List IndexArg)) (u : Value)
    (e' : Environment) : Prop :=
  ∃ v args old' changed, Gives w x v ∧ Gives w y args ∧ old.index args = .ok old'
    ∧ Value.binary op old' v = .ok u ∧ old.assignIndex args u = .ok changed
    ∧ e' = w.environment.define name changed

section ShownSame

variable {v v' old' changed : Value} {args args' : List IndexArg}

theorem Value.Alike.shownSame (v : Value) : v.Alike ShownSame v :=
  .refl (fun f => (rfl : f.text = f.text)) v

theorem binary_of_shownSame (h : v.Alike ShownSame v') (hu : Value.binary op old' v = .ok u) :
    Value.binary op old' v' = .ok u :=
  ((Value.Alike.shownSame old').binary_eq shownAlike_shownSame op h).trans hu

variable (h : List.Forall₂ (IndexArg.Alike ShownSame) args args')
include h

theorem index_of_shownSame (hold : old.index args = .ok old') : old.index args' = .ok old' :=
  ((Value.Alike.shownSame old).index_eq h).trans hold

theorem assignIndex_of_shownSame (hchanged : old.assignIndex args u = .ok changed) :
    old.assignIndex args' u = .ok changed :=
  ((Value.Alike.shownSame old).assignIndex_eq h (.shownSame u)).trans hchanged

end ShownSame

theorem UpdatesVariable.carried (hx : Carries w (Value.Alike ShownSame) x x')
    (h : UpdatesVariable w name op old x u e') : UpdatesVariable w name op old x' u e' := by
  obtain ⟨v, hv, hu, rfl⟩ := h
  obtain ⟨v', hv', hvalues⟩ := hx.gives hv
  exact ⟨v', hv', binary_of_shownSame hvalues hu, rfl⟩

theorem UpdatesElements.carried (hx : Carries w (Value.Alike ShownSame) x x')
    (hy : Carries w (List.Forall₂ (IndexArg.Alike ShownSame)) y y')
    (h : UpdatesElements w name op old x y u e') : UpdatesElements w name op old x' y' u e' := by
  obtain ⟨v, args, old', changed, hv, hargs, hold, hu, hchanged, rfl⟩ := h
  obtain ⟨v', hv', hvalues⟩ := hx.gives hv
  obtain ⟨args', hargs', hindices⟩ := hy.gives hargs
  exact ⟨v', args', old', changed, hv', hargs', index_of_shownSame hindices hold,
    binary_of_shownSame hvalues hu, assignIndex_of_shownSame hindices hchanged, rfl⟩

namespace Setting

variable {s : Setting} {f : Forest} {m : Machine} {id id' target value operation operand callee
  callee' : NodeId} {ids ids' : List NodeId}

theorem ends_of_run {fuel : Nat} {left : Machine}
    (hrun : (evaluate fuel s id).run.run m = (.ok u, left)) (he : left.environment = e) :
    s.Ends id m (.ok u) e :=
  ⟨fuel, left, hrun, nofun, he⟩

theorem lookup_of_view (hm : m.view = w) (hold : w.environment.lookup name = some old) :
    m.environment.lookup name = some old := by
  subst hm
  exact hold

/-! The runs of a setting without a limit of time, with the variable bound and a right side that is
steady. -/

section Parts

variable (hs : s.untimed = s) (hold : w.environment.lookup name = some old) (hm : m.view = w)
  (hvalue : Carries w (Value.Alike ShownSame) (evaluate · s value) (evaluate · s value))
include hs hold hm hvalue

theorem ends_compound_iff (htarget : s.forest.kind? target = some (.name name))
    (hkind : s.forest.kind? id = some (.assign target (some op) value)) :
    s.Ends id m (.ok u) e' ↔ UpdatesVariable w name op old (evaluate · s value) u e' := by
  constructor
  · intro hends
    obtain ⟨fuel, hruns⟩ := hends.eventually
    rw [hs] at hruns
    obtain ⟨left, hrun, rfl⟩ := hruns (fuel + 1) (Nat.le_succ fuel)
    obtain ⟨v, m₁, _, hv, hold', hu, rfl⟩ := (run_compound_eq_ok_iff htarget hkind).mp hrun
    have hkept := hvalue.keeps fuel m v m₁ hm hv
    obtain rfl := Option.some.inj ((lookup_of_view hkept hold).symm.trans hold')
    exact ⟨v, ⟨fuel, m, m₁, hm, hv⟩, hu, congrArg (·.environment.define name u) hkept⟩
  · rintro ⟨v, ⟨fuel, m₀, left, hm₀, hv⟩, hu, rfl⟩
    obtain ⟨v', m₁, hv', hkept, hvalues⟩ := hvalue.completes le_rfl hm₀ hv m hm
    have hu' := binary_of_shownSame hvalues hu
    have hrun := (run_compound_eq_ok_iff htarget hkind).mpr
      ⟨v', m₁, old, hv', lookup_of_view hkept hold, hu', rfl⟩
    exact ends_of_run hrun (congrArg (·.environment.define name u) hkept)

theorem ends_expansion_iff (hop : op.IsStrict)
    (htarget : s.forest.kind? target = some (.name name))
    (hkind : s.forest.kind? id = some (.assign target none operation))
    (hoperation : s.forest.kind? operation = some (.binary op operand value))
    (hoperand : s.forest.kind? operand = some (.name name)) :
    s.Ends id m (.ok u) e' ↔ UpdatesVariable w name op old (evaluate · s value) u e' := by
  constructor
  · intro hends
    obtain ⟨fuel, hruns⟩ := hends.eventually
    rw [hs] at hruns
    obtain ⟨left, hrun, rfl⟩ := hruns (fuel + 3) (Nat.le_add_right fuel 3)
    obtain ⟨m₁, hboth, rfl⟩ := (run_plain_eq_ok_iff htarget hkind).mp hrun
    obtain ⟨old', m₂, v, hw, hv, hu⟩ := (run_operation_eq_ok_iff hoperation hop).mp hboth
    obtain ⟨rfl, rfl⟩ := (run_name_eq_ok_iff hoperand (lookup_of_view hm hold)).mp hw
    have hkept := hvalue.keeps (fuel + 1) m₂ v m₁ hm hv
    exact ⟨v, ⟨fuel + 1, m₂, m₁, hm, hv⟩, hu, congrArg (·.environment.define name u) hkept⟩
  · rintro ⟨v, ⟨fuel, m₀, left, hm₀, hv⟩, hu, rfl⟩
    obtain ⟨v', m₁, hv', hkept, hvalues⟩ := hvalue.completes (Nat.le_succ fuel) hm₀ hv m hm
    have hu' := binary_of_shownSame hvalues hu
    have hw : (evaluate (fuel + 1) s operand).run.run m = (.ok old, m) :=
      (run_name_eq_ok_iff hoperand (lookup_of_view hm hold)).mpr ⟨rfl, rfl⟩
    have hboth := (run_operation_eq_ok_iff hoperation hop).mpr ⟨old, m, v', hw, hv', hu'⟩
    exact ends_of_run ((run_plain_eq_ok_iff htarget hkind).mpr ⟨m₁, hboth, rfl⟩)
      (congrArg (·.environment.define name u) hkept)

theorem ends_compoundElements_iff
    (hargs : Carries w (List.Forall₂ (IndexArg.Alike ShownSame))
      (fun fuel => s.indexArguments (evaluate fuel) old ids)
      fun fuel => s.indexArguments (evaluate fuel) old ids)
    (htarget : s.forest.kind? target = some (.call callee ids))
    (hcallee : s.forest.kind? callee = some (.name name))
    (hkind : s.forest.kind? id = some (.assign target (some op) value)) :
    s.Ends id m (.ok u) e' ↔ UpdatesElements w name op old (evaluate · s value)
      (fun fuel => s.indexArguments (evaluate fuel) old ids) u e' := by
  constructor
  · intro hends
    obtain ⟨fuel, hruns⟩ := hends.eventually
    rw [hs] at hruns
    obtain ⟨left, hrun, rfl⟩ := hruns (fuel + 1) (Nat.le_succ fuel)
    obtain ⟨v, m₁, _, args, m₂, old', changed, hv, hold', ha, hw, hu, hchanged, rfl⟩ :=
      (run_compoundElements_eq_ok_iff htarget hcallee hkind).mp hrun
    have hkept := hvalue.keeps fuel m v m₁ hm hv
    obtain rfl := Option.some.inj ((lookup_of_view hkept hold).symm.trans hold')
    have hkept' := hargs.keeps fuel m₁ args m₂ hkept ha
    exact ⟨v, args, old', changed, ⟨fuel, m, m₁, hm, hv⟩, ⟨fuel, m₁, m₂, hkept, ha⟩, hw, hu, hchanged,
      congrArg (·.environment.define name changed) hkept'⟩
  · rintro ⟨v, args, old', changed, ⟨fuel, m₀, left, hm₀, hv⟩, ⟨fuel', m₀', left', hm₀', ha⟩, hw, hu,
      hchanged, rfl⟩
    obtain ⟨v', m₁, hv', hkept, hvalues⟩ :=
      hvalue.completes (Nat.le_max_left fuel fuel') hm₀ hv m hm
    obtain ⟨args', m₂, ha', hkept', hindices⟩ :=
      hargs.completes (Nat.le_max_right fuel fuel') hm₀' ha m₁ hkept
    have hw' := index_of_shownSame hindices hw
    have hu' := binary_of_shownSame hvalues hu
    have hchanged' := assignIndex_of_shownSame hindices hchanged
    have hrun := (run_compoundElements_eq_ok_iff htarget hcallee hkind).mpr
      ⟨v', m₁, old, args', m₂, old', changed, hv', lookup_of_view hkept hold, ha', hw', hu', hchanged', rfl⟩
    exact ends_of_run hrun (congrArg (·.environment.define name changed) hkept')

/-- The arguments are evaluated in two places, which correspond. -/
theorem ends_expansionElements_iff (hop : op.IsStrict) (hindexed : old.IsIndexed)
    (hargs : Corresponds w (List.Forall₂ (IndexArg.Alike ShownSame))
      (fun fuel => s.indexArguments (evaluate fuel) old ids)
      fun fuel => s.indexArguments (evaluate fuel) old ids')
    (htarget : s.forest.kind? target = some (.call callee ids))
    (hcallee : s.forest.kind? callee = some (.name name))
    (hkind : s.forest.kind? id = some (.assign target none operation))
    (hoperation : s.forest.kind? operation = some (.binary op operand value))
    (hoperand : s.forest.kind? operand = some (.call callee' ids'))
    (hcallee' : s.forest.kind? callee' = some (.name name)) :
    s.Ends id m (.ok u) e' ↔ UpdatesElements w name op old (evaluate · s value)
      (fun fuel => s.indexArguments (evaluate fuel) old ids) u e' := by
  have hvisible {m' : Machine} (hm' : m'.view = w) :
      (m'.environment.lookup name).getD Value.emptyMatrix = old := by
    rw [lookup_of_view hm' hold, Option.getD_some]
  constructor
  · intro hends
    obtain ⟨fuel, hruns⟩ := hends.eventually
    rw [hs] at hruns
    obtain ⟨left, hrun, rfl⟩ := hruns (fuel + 3) (Nat.le_add_right fuel 3)
    obtain ⟨m₁, args, m₂, changed, hboth, ha, hchanged, rfl⟩ :=
      (run_plainElements_eq_ok_iff htarget hcallee hkind).mp hrun
    obtain ⟨old', m₃, v, hread, hv, hu⟩ := (run_operation_eq_ok_iff hoperation hop).mp hboth
    obtain ⟨args', ha', hw⟩ :=
      (run_element_eq_ok_iff hoperand hcallee' hindexed (lookup_of_view hm hold)).mp hread
    -- the arguments of the operand from `m`, the right side from `m₃`, the others from `m₁`
    have hkept₃ := hargs.steady'.keeps fuel m args' m₃ hm ha'
    have hkept₁ := hvalue.keeps (fuel + 1) m₃ v m₁ hkept₃ hv
    rw [hvisible hkept₁] at ha hchanged
    have hkept₂ := hargs.steady.keeps (fuel + 2) m₁ args m₂ hkept₁ ha
    have hindices := hargs.back.related (Nat.le_add_right fuel 2) hm ha' hkept₁ ha
    have hw' := index_of_shownSame hindices hw
    exact ⟨v, args, old', changed, ⟨fuel + 1, m₃, m₁, hkept₃, hv⟩, ⟨fuel + 2, m₁, m₂, hkept₁, ha⟩, hw',
      hu, hchanged, congrArg (·.environment.define name changed) hkept₂⟩
  · rintro ⟨v, args, old', changed, ⟨fuel, m₀, left, hm₀, hv⟩, ⟨fuel', m₀', left', hm₀', ha⟩, hw, hu,
      hchanged, rfl⟩
    obtain ⟨most, hfuel, hfuel'⟩ : ∃ most, fuel ≤ most + 1 ∧ fuel' ≤ most :=
      ⟨max fuel fuel', by omega, by omega⟩
    have hlast : fuel' ≤ most + 2 := Nat.le_add_right_of_le hfuel'
    -- each part has one more level of fuel than the one before it
    obtain ⟨args₁, m₁, ha₁, hkept₁, hindices₁⟩ := hargs.there.completes hfuel' hm₀' ha m hm
    obtain ⟨v', m₂, hv', hkept₂, hvalues⟩ := hvalue.completes hfuel hm₀ hv m₁ hkept₁
    obtain ⟨args₃, m₃, ha₃, hkept₃, hindices₃⟩ := hargs.steady.completes hlast hm₀' ha m₂ hkept₂
    have hw' := index_of_shownSame hindices₁ hw
    have hu' := binary_of_shownSame hvalues hu
    have hchanged' := assignIndex_of_shownSame hindices₃ hchanged
    have hread := (run_element_eq_ok_iff hoperand hcallee' hindexed (lookup_of_view hm hold)).mpr
      ⟨args₁, ha₁, hw'⟩
    have hboth := (run_operation_eq_ok_iff hoperation hop).mpr ⟨old', m₁, v', hread, hv', hu'⟩
    rw [← hvisible hkept₂] at ha₃ hchanged'
    have hrun := (run_plainElements_eq_ok_iff htarget hcallee hkind).mpr
      ⟨m₂, args₃, m₃, changed, hboth, ha₃, hchanged', rfl⟩
    exact ends_of_run hrun (congrArg (·.environment.define name changed) hkept₃)

end Parts

/-! ### A compound assignment and its expansion -/

section Spelled

variable {t : Tree} {ts : List Tree} (hlibrary : s.library.Blind)
  (hs : s.forest.WellLinked) (hf : f.WellLinked) (hop : op.IsStrict)
  (hold : m.environment.lookup name = some old) (hvalue : s.LeavesAlone m.view t)
include hlibrary hs hf hop hold hvalue

theorem ends_variable_iff (h : s.forest.Spells id (.compound (.of (.name name)) op t))
    (h' : f.Spells id' (.expansion (.of (.name name)) op t)) :
    s.untimed.Ends id m (.ok u) e ↔
      Setting.Ends { s.untimed with forest := f } id' m (.ok u) e := by
  obtain ⟨target, value, hkind, htarget, hright⟩ := h.assign
  obtain ⟨target', operation, hkind', htarget', hboth⟩ := h'.assign
  obtain ⟨operand, value', hoperation, hoperand, hright'⟩ := hboth.binary
  obtain ⟨node, hnode, hassign⟩ := Option.map_eq_some_iff.mp hkind
  have hslot : (value, false) ∈ (NodeKind.assign target (some op) value).slots :=
    List.mem_cons_of_mem _ List.mem_cons_self
  have ht : t ≠ .absent := hright.isPresent_iff.mp (hs.isPresent_required hnode hassign hslot)
  have hx := corresponds_evaluate hlibrary hs hf ht hright hright' (hvalue.keeps hright)
  calc s.untimed.Ends id m (.ok u) e
      ↔ UpdatesVariable m.view name op old (evaluate · s.untimed value) u e :=
        ends_compound_iff rfl hold rfl hx.steady htarget.kind_name hkind
    _ ↔ UpdatesVariable m.view name op old
          (evaluate · { s.untimed with forest := f } value') u e :=
        ⟨.carried hx.there, .carried hx.back⟩
    _ ↔ Setting.Ends { s.untimed with forest := f } id' m (.ok u) e :=
        (ends_expansion_iff rfl hold rfl hx.steady' hop htarget'.kind_name
          hkind' hoperation hoperand.kind_name).symm

theorem ends_elements_iff (hindexed : old.IsIndexed)
    (hargs : s.IndicesLeaveAlone m.view old ts)
    (h : s.forest.Spells id (.compound (.of (.call (.of (.name name)) ts)) op t))
    (h' : f.Spells id' (.expansion (.of (.call (.of (.name name)) ts)) op t)) :
    s.untimed.Ends id m (.ok u) e ↔
      Setting.Ends { s.untimed with forest := f } id' m (.ok u) e := by
  obtain ⟨target, value, hkind, htarget, hright⟩ := h.assign
  obtain ⟨callee, ids, hcall, hcallee, hids⟩ := htarget.call
  obtain ⟨target', operation, hkind', htarget', hboth⟩ := h'.assign
  obtain ⟨callee₁, ids₁, hcall₁, hcallee₁, -⟩ := htarget'.call
  obtain ⟨operand, value', hoperation, hoperand, hright'⟩ := hboth.binary
  obtain ⟨callee₂, ids₂, hcall₂, hcallee₂, -⟩ := hoperand.call
  obtain ⟨node, hnode, hassign⟩ := Option.map_eq_some_iff.mp hkind
  have hslot : (value, false) ∈ (NodeKind.assign target (some op) value).slots :=
    List.mem_cons_of_mem _ List.mem_cons_self
  have ht : t ≠ .absent := hright.isPresent_iff.mp (hs.isPresent_required hnode hassign hslot)
  have hx := corresponds_evaluate hlibrary hs hf ht hright hright' (hvalue.keeps hright)
  have hplace : Tree.of (.call (.of (.name name)) ts) ≠ .absent := nofun
  have hy := corresponds_indexArguments hlibrary hs hf hplace htarget htarget' hcall hcall₁ old
    (hargs.keeps hids)
  have hcopies := corresponds_indexArguments (s := { s with forest := f }) hlibrary hf hf hplace
    htarget' hoperand hcall₁ hcall₂ old hy.steady'.keeps
  calc s.untimed.Ends id m (.ok u) e
      ↔ UpdatesElements m.view name op old (evaluate · s.untimed value)
          (fun fuel => s.untimed.indexArguments (evaluate fuel) old ids) u e :=
        ends_compoundElements_iff rfl hold rfl hx.steady hy.steady hcall
          hcallee.kind_name hkind
    _ ↔ UpdatesElements m.view name op old
          (evaluate · { s.untimed with forest := f } value') (fun fuel =>
            Setting.indexArguments { s.untimed with forest := f } (evaluate fuel) old ids₁) u e :=
        ⟨.carried hx.there hy.there, .carried hx.back hy.back⟩
    _ ↔ Setting.Ends { s.untimed with forest := f } id' m (.ok u) e :=
        (ends_expansionElements_iff rfl hold rfl hx.steady' hop hindexed hcopies hcall₁
          hcallee₁.kind_name hkind' hoperation hcall₂
          hcallee₂.kind_name).symm

end Spelled

/-- Runs that succeed together succeed with the same, or fail both. -/
theorem sameOutcome_of_ends {s' : Setting} {r r' : Except Stop Value}
    (hsame : ∀ v e, s.untimed.Ends id m (.ok v) e ↔ s'.untimed.Ends id' m (.ok v) e)
    (h : s.Ends id m r e) (h' : s'.Ends id' m r' e') : SameOutcome r e r' e' := by
  have hends := h.untimed
  have hends' := h'.untimed
  cases r with
  | ok v =>
      obtain ⟨rfl, rfl⟩ := ((hsame v e).mp hends).unique hends'
      exact .success v e'
  | error stop =>
      cases r' with
      | ok v =>
          obtain ⟨hr, -⟩ := ((hsame v e').mpr hends').unique hends
          cases hr
      | error stop' => exact .failure stop stop' e e'

/-- A compound assignment to a variable, or to elements of it, comes to the same as its expansion,
if the right side and the index arguments leave the variables as they are. The library may hold
functions of any kind that look neither at the spans in the bodies of functions nor at their
numbers. Without a limit of time the one succeeds if and only if the other does. With one, and
however much fuel each of them has, two runs that are not cut off have the same outcome. -/
theorem compound_outcome {args : Option (List Tree)} {t : Tree} (hlibrary : s.library.Blind)
    (hs : s.forest.WellLinked) (hf : f.WellLinked) (hop : op ∈ [.add, .sub, .mul, .div, .pow])
    (hold : m.environment.lookup name = some old)
    (hkind : old.kind ∈ [.scalar, .matrix, .range, .string])
    (hvalue : s.LeavesAlone m.view t)
    (hargs : ∀ ts, args = some ts → s.IndicesLeaveAlone m.view old ts)
    (h : s.forest.Spells id (.compound (.place name args) op t))
    (h' : f.Spells id' (.expansion (.place name args) op t)) :
    (∀ v e, s.untimed.Ends id m (.ok v) e ↔
        Setting.Ends { s.untimed with forest := f } id' m (.ok v) e)
      ∧ ∀ r r' e e', s.Ends id m r e → Setting.Ends { s with forest := f } id' m r' e' →
        SameOutcome r e r' e' := by
  have hstrict : op.IsStrict := ⟨by rintro rfl; simp at hop, by rintro rfl; simp at hop⟩
  have hsame (v : Value) (e : Environment) : s.untimed.Ends id m (.ok v) e ↔
      Setting.Ends { s.untimed with forest := f } id' m (.ok v) e := by
    cases args with
    | none => exact ends_variable_iff hlibrary hs hf hstrict hold hvalue h h'
    | some ts => exact ends_elements_iff hlibrary hs hf hstrict hold hvalue hkind (hargs ts rfl) h h'
  exact ⟨hsame, fun r r' e e' hends hends' => sameOutcome_of_ends hsame hends hends'⟩

/-- An element of a number, and the run of the compound assignment to it. -/
theorem compound_outcome_element : ∃ p q,
    Grammar.standard.parse "x(1) += 2".toList = .ok p
    ∧ Grammar.standard.parse "x(1) = x(1) + 2".toList = .ok q
    ∧ (Session.standard.setting p.forest).Ends ⟨4⟩ ⟨⟨[("x", .ofNat 3)], []⟩, 0, 0, []⟩
      (.ok (.ofNat 5)) ⟨[("x", .ofNat 5)], []⟩
    ∧ (Session.standard.setting q.forest).Ends ⟨8⟩ ⟨⟨[("x", .ofNat 3)], []⟩, 0, 0, []⟩
      (.ok (.ofNat 5)) ⟨[("x", .ofNat 5)], []⟩ := by
  let p : Program := ⟨⟨#[⟨.name "x", ⟨0, 1⟩⟩, ⟨.real (.ofNat 1), ⟨2, 3⟩⟩, ⟨.call ⟨0⟩ [⟨1⟩], ⟨0, 4⟩⟩,
    ⟨.real (.ofNat 2), ⟨8, 9⟩⟩, ⟨.assign ⟨2⟩ (some .add) ⟨3⟩, ⟨0, 9⟩⟩]⟩, [⟨⟨4⟩, false⟩]⟩
  let q : Program := ⟨⟨#[⟨.name "x", ⟨0, 1⟩⟩, ⟨.real (.ofNat 1), ⟨2, 3⟩⟩, ⟨.call ⟨0⟩ [⟨1⟩], ⟨0, 4⟩⟩,
    ⟨.name "x", ⟨7, 8⟩⟩, ⟨.real (.ofNat 1), ⟨9, 10⟩⟩, ⟨.call ⟨3⟩ [⟨4⟩], ⟨7, 11⟩⟩,
    ⟨.real (.ofNat 2), ⟨14, 15⟩⟩, ⟨.binary .add ⟨5⟩ ⟨6⟩, ⟨7, 15⟩⟩,
    ⟨.assign ⟨2⟩ none ⟨7⟩, ⟨0, 15⟩⟩]⟩, [⟨⟨8⟩, false⟩]⟩
  let m : Machine := ⟨⟨[("x", .ofNat 3)], []⟩, 0, 0, []⟩
  have hp : Grammar.standard.parse "x(1) += 2".toList = .ok p := by decide +kernel
  have hq : Grammar.standard.parse "x(1) = x(1) + 2".toList = .ok q := by decide +kernel
  have hs : p.forest.WellLinked := Forest.wellLinked_of_links (by decide)
  have hf : q.forest.WellLinked := Forest.wellLinked_of_links (by decide)
  have hrun : (evaluate 3 (Session.standard.setting p.forest) ⟨4⟩).run.run m
      = (.ok (.ofNat 5), ⟨⟨[("x", .ofNat 5)], []⟩, 0, 0, []⟩) := by with_unfolding_all rfl
  have hends := ends_of_run hrun rfl
  have hindices : ∀ ts, some [Tree.of (.real (.ofNat 1))] = some ts →
      (Session.standard.setting p.forest).IndicesLeaveAlone m.view (.ofNat 3) ts := by
    rintro _ ⟨⟩
    exact indicesLeaveAlone fun t ht _ => List.mem_singleton.mp ht ▸ leavesAlone_real (.ofNat 1)
  have h : p.forest.Spells ⟨4⟩ (.compound (.place "x" (some [.of (.real (.ofNat 1))])) .add
      (.of (.real (.ofNat 2)))) := Forest.spells_unfold hs (by decide) (by decide)
  have h' : q.forest.Spells ⟨8⟩ (.expansion (.place "x" (some [.of (.real (.ofNat 1))])) .add
      (.of (.real (.ofNat 2)))) := Forest.spells_unfold hf (by decide) (by decide)
  have hsame := (compound_outcome (s := Session.standard.setting p.forest) (m := m)
    Library.standard_blind hs hf (by decide) rfl (by decide) (leavesAlone_real (.ofNat 2)) hindices
    h h').1
  exact ⟨p, q, hp, hq, hends, (hsame _ _).mp hends⟩

/-! ### A library that looks into functions -/

/-- Where the body of a function starts in the text that it was written in. -/
def bodyStart (args : Arguments) : Result Value :=
  match args.get? 0 with
  | some (.function (.lambda code _)) =>
    .ok (.ofNat ((code.forest.get? code.root).elim 0 fun node => node.span.start.toNat))
  | v => .error (Arguments.wrongKind 0 "function" v)

def curious : Library := ⟨[("start", [.fixed [.function] bodyStart])], []⟩

/-- `x += start(() => 1)` -/
def startAdded : Program :=
  ⟨⟨#[⟨.name "x", ⟨0, 1⟩⟩, ⟨.name "start", ⟨5, 10⟩⟩, ⟨.tuple [], ⟨11, 13⟩⟩,
    ⟨.real (.ofNat 1), ⟨17, 18⟩⟩, ⟨.lambda [] ⟨3⟩, ⟨11, 18⟩⟩, ⟨.call ⟨1⟩ [⟨4⟩], ⟨5, 19⟩⟩,
    ⟨.assign ⟨0⟩ (some .add) ⟨5⟩, ⟨0, 19⟩⟩]⟩, [⟨⟨6⟩, false⟩]⟩

/-- `x = x + start(() => 1)` -/
def startAddedInFull : Program :=
  ⟨⟨#[⟨.name "x", ⟨0, 1⟩⟩, ⟨.name "x", ⟨4, 5⟩⟩, ⟨.name "start", ⟨8, 13⟩⟩, ⟨.tuple [], ⟨14, 16⟩⟩,
    ⟨.real (.ofNat 1), ⟨20, 21⟩⟩, ⟨.lambda [] ⟨4⟩, ⟨14, 21⟩⟩, ⟨.call ⟨2⟩ [⟨5⟩], ⟨8, 22⟩⟩,
    ⟨.binary .add ⟨1⟩ ⟨6⟩, ⟨4, 22⟩⟩, ⟨.assign ⟨0⟩ none ⟨7⟩, ⟨0, 22⟩⟩]⟩, [⟨⟨8⟩, false⟩]⟩

def startAddedSetting : Setting := ⟨startAdded.forest, curious, none, .ofLimit 256⟩

def threeMachine : Machine := ⟨⟨[("x", .ofNat 3)], []⟩, 0, 0, []⟩

/-- With a library function that gives the place of a body, a compound assignment and its expansion
come to different values, although the right side leaves the variables as they are: it stands at
another place of the text. -/
theorem not_compound_outcome : ∃ t,
    Grammar.standard.parse "x += start(() => 1)".toList = .ok startAdded
    ∧ Grammar.standard.parse "x = x + start(() => 1)".toList = .ok startAddedInFull
    ∧ startAdded.forest.Spells ⟨6⟩ (.compound (.place "x" none) .add t)
    ∧ startAddedInFull.forest.Spells ⟨8⟩ (.expansion (.place "x" none) .add t)
    ∧ startAddedSetting.LeavesAlone threeMachine.view t
    ∧ ∃ e e', startAddedSetting.Ends ⟨6⟩ threeMachine (.ok (.ofNat 20)) e
      ∧ Setting.Ends { startAddedSetting with forest := startAddedInFull.forest } ⟨8⟩ threeMachine
        (.ok (.ofNat 23)) e'
      ∧ ¬SameOutcome (.ok (.ofNat 20)) e (.ok (.ofNat 23)) e' := by
  have hs : startAdded.forest.WellLinked := Forest.wellLinked_of_links (by decide)
  have hf : startAddedInFull.forest.WellLinked := Forest.wellLinked_of_links (by decide)
  have hvalue : ((evaluate 4 startAddedSetting ⟨6⟩).run.run threeMachine).1 = .ok (.ofNat 20) := by
    with_unfolding_all rfl
  have hvalue' : ((evaluate 5 { startAddedSetting with forest := startAddedInFull.forest }
      ⟨8⟩).run.run threeMachine).1 = .ok (.ofNat 23) := by with_unfolding_all rfl
  refine ⟨.of (.call (.of (.name "start")) [.of (.lambda [] (.of (.real (.ofNat 1))))]),
    by decide +kernel, by decide +kernel, Forest.spells_unfold hs (by decide) (by decide),
    Forest.spells_unfold hf (by decide) (by decide), ?_, _, _, ends_of_run (Prod.ext hvalue rfl) rfl,
    ends_of_run (Prod.ext hvalue' rfl) rfl, ?_⟩
  · refine leavesAlone_call (by decide) (by decide) (fun args e => ?_) fun t ht => ?_
    · change ((Library.call curious "start" args).run.run e).2 = e
      rw [Library.call, show curious.overloads "start" = [.fixed [.function] bodyStart] from rfl]
      dsimp only
      split
      · rfl
      · rename_i o hselect
        obtain rfl := List.mem_singleton.mp (Overload.select_mem hselect)
        rfl
    · exact List.mem_singleton.mp ht ▸ leavesAlone_lambda []
  · intro h
    have hvalues {v v' : Value} {e e' : Environment} (h : SameOutcome (.ok v) e (.ok v') e') :
        v' = v := by
      cases h
      rfl
    exact absurd (Value.scalar.inj (hvalues h)) (by decide)

end Setting

end MatrixScript
