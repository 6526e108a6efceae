import Mathlib.Data.List.Nodup
import MatrixScript.Proofs.Reading.Operators
import MatrixScript.Proofs.Values.Keeping

/-!
# Tables of entries

Each new entry of a table is inserted behind those that rank at least as high. What a search from
the front finds is then, among all entries that it accepts, one of the highest rank, and among those
the one that was registered first.

Registering an entry inserts it into a table and leaves the order of the others as it was. So a
lookup that the new entry does not answer has the answer it had before. No lookup in a text is
answered by an operator whose symbol does not occur there, by a transform whose character does not,
or by a form that accepts no end of the text.

The operator that a number offers is looked up by its symbol alone. An operator with that symbol is
there from the start, and a second one cannot be registered.
-/

namespace MatrixScript

namespace Grammar

/-- What can be registered with a grammar. -/
inductive Registration where
  | operator (op : Operator)
  | form (priority : Nat) (form : Form)
  | transform (trigger : Char) (transform : Transform)

/-- What registering an entry does to the tables. -/
def Registration.add : Registration → Registering Unit
  | .operator op => addOperator op
  | .form priority f => addForm priority f
  | .transform trigger t => addTransform trigger t

def register (g : Grammar) : Registration → Except GrammarError Grammar
  | .operator op => g.registerOperator op
  | .form priority form => g.registerForm priority form
  | .transform trigger transform => g.registerTransform trigger transform

/-- No part of the text is an operator's symbol, no end of it is accepted by a form, no character of
it triggers a transform. -/
def Registration.Unused (text : List Char) : Registration → Prop
  | .operator op => ¬ op.symbol <:+: text
  | .form _ f => ∀ rest, rest <:+ text → ∀ flags, f.accepts rest flags = false
  | .transform trigger _ => trigger ∉ text

/-- Wherever one looks in the text, the second grammar has the same answers as the first one. -/
structure FindsSame (text : List Char) (g g' : Grammar) : Prop where
  written : ∀ rest, rest <:+ text →
    g'.operators.find? (·.symbol.isPrefixOf rest) = g.operators.find? (·.symbol.isPrefixOf rest)
  offered : ∀ symbol, (g.operator? symbol).isSome = true →
    g'.operator? symbol = g.operator? symbol
  form : ∀ rest, rest <:+ text → ∀ flags, g'.findForm? rest flags = g.findForm? rest flags
  transform : ∀ c ∈ text, g'.transform? c = g.transform? c

variable {text : List Char} {g g' g'' : Grammar}

namespace FindsSame

theorem refl (text : List Char) (g : Grammar) : g.FindsSame text g :=
  ⟨fun _ _ => rfl, fun _ _ => rfl, fun _ _ _ => rfl, fun _ _ => rfl⟩

theorem trans (h : g.FindsSame text g') (h' : g'.FindsSame text g'') : g.FindsSame text g'' where
  written rest hrest := (h'.written rest hrest).trans (h.written rest hrest)
  offered symbol hsymbol := by
    have hsame := h.offered symbol hsymbol
    rw [← hsame]
    exact h'.offered symbol (by rw [hsame]; exact hsymbol)
  form rest hrest flags := (h'.form rest hrest flags).trans (h.form rest hrest flags)
  transform c hc := (h'.transform c hc).trans (h.transform c hc)

/-- An operator that is looked up at a place of the text, when one may be understood there. -/
theorem operator (h : g.FindsSame text g') {rest : List Char} (hrest : rest <:+ text)
    {premise : Option (List Char)}
    (hpremise : ∀ symbol, premise = some symbol → (g.operator? symbol).isSome = true) :
    g'.findOperator? rest premise = g.findOperator? rest premise := by
  unfold findOperator?
  rw [h.written rest hrest]
  cases premise with
  | none => rfl
  | some symbol => rw [Option.bind_some, Option.bind_some, h.offered symbol (hpremise symbol rfl)]

end FindsSame

/-! ### Registering -/

theorem registered_eq_ok_iff {x : Registering Unit} :
    g.registered x = .ok g' ↔ x.run.run g = (.ok (), g') :=
  run_seqRight_get_eq_ok_iff

section Add

variable {op : Operator} {priority : Nat} {form : Form} {trigger : Char} {transform : Transform}

theorem run_addOperator :
    (addOperator op).run.run g
      = if op.symbol.isEmpty then (.error .emptySymbol, g)
        else if (g.operator? op.symbol).isSome then
          (.error (.duplicate "operator" (String.ofList op.symbol)), g)
        else (.ok (), { g with operators := insertRanked (byteCount ·.symbol) op g.operators }) := by
  have hget : (get : Registering Grammar).run.run g = (.ok g, g) := rfl
  rw [addOperator, run_bind_of_ok hget]
  repeat' split
  all_goals rfl

theorem run_addForm :
    (addForm priority form).run.run g
      = if g.forms.any (·.2.name == form.name) then
          (.error (.duplicate "expression form" form.name), g)
        else (.ok (), { g with forms := insertRanked (·.1) (priority, form) g.forms }) := by
  have hget : (get : Registering Grammar).run.run g = (.ok g, g) := rfl
  rw [addForm, run_bind_of_ok hget]
  split <;> rfl

theorem run_addTransform :
    (addTransform trigger transform).run.run g
      = if (g.transform? trigger).isSome then
          (.error (.duplicate "transform" trigger.toString), g)
        else (.ok (), { g with transforms := g.transforms ++ [(trigger, transform)] }) := by
  have hget : (get : Registering Grammar).run.run g = (.ok g, g) := rfl
  rw [addTransform, run_bind_of_ok hget]
  split <;> rfl

theorem registerOperator_eq_ok_iff :
    g.registerOperator op = .ok g' ↔ op.symbol ≠ [] ∧ ¬(g.operator? op.symbol).isSome = true
      ∧ g' = { g with operators := insertRanked (byteCount ·.symbol) op g.operators } := by
  rw [registerOperator, registered_eq_ok_iff, run_addOperator, refusal_eq_ok_iff, refusal_eq_ok_iff,
    List.isEmpty_iff, Prod.mk.injEq, and_iff_right rfl, eq_comm (b := g')]

theorem registerForm_eq_ok_iff :
    g.registerForm priority form = .ok g' ↔ ¬g.forms.any (·.2.name == form.name) = true
      ∧ g' = { g with forms := insertRanked (·.1) (priority, form) g.forms } := by
  rw [registerForm, registered_eq_ok_iff, run_addForm, refusal_eq_ok_iff, Prod.mk.injEq,
    and_iff_right rfl, eq_comm (b := g')]

theorem registerTransform_eq_ok_iff :
    g.registerTransform trigger transform = .ok g' ↔ ¬(g.transform? trigger).isSome = true
      ∧ g' = { g with transforms := g.transforms ++ [(trigger, transform)] } := by
  rw [registerTransform, registered_eq_ok_iff, run_addTransform, refusal_eq_ok_iff, Prod.mk.injEq,
    and_iff_right rfl, eq_comm (b := g')]

end Add

theorem register_eq (g : Grammar) (entry : Registration) :
    g.register entry = g.registered entry.add := by
  cases entry <;> rfl

/-- An entry that is refused leaves the tables as they are. -/
theorem eq_of_run_add_error {entry : Registration} {e : GrammarError}
    (h : entry.add.run.run g = (.error e, g')) : g' = g := by
  cases entry with
  | operator op =>
      rw [Registration.add, run_addOperator] at h
      split at h
      · exact (Prod.mk.inj h).2.symm
      · split at h
        · exact (Prod.mk.inj h).2.symm
        · cases h
  | form priority form =>
      rw [Registration.add, run_addForm] at h
      split at h
      · exact (Prod.mk.inj h).2.symm
      · cases h
  | transform trigger transform =>
      rw [Registration.add, run_addTransform] at h
      split at h
      · exact (Prod.mk.inj h).2.symm
      · cases h

/-- The new entry does not answer, and those in front of it and behind it are asked as before. -/
theorem find?_insertRanked {α : Type} (rank : α → Nat) (p : α → Bool) {x : α} (xs : List α)
    (hx : p x = false) : (insertRanked rank x xs).find? p = xs.find? p := by
  rw [insertRanked, List.find?_append, List.find?_cons_of_neg (ne_true_of_eq_false hx),
    ← List.find?_append, List.takeWhile_append_dropWhile]

theorem findsSame_registerOperator {op : Operator} (h : g.registerOperator op = .ok g')
    (hunused : ¬ op.symbol <:+: text) : g.FindsSame text g' := by
  obtain ⟨-, hnew, rfl⟩ := registerOperator_eq_ok_iff.mp h
  refine ⟨fun rest hrest => ?_, fun symbol hsymbol => ?_, fun _ _ _ => rfl, fun _ _ => rfl⟩
  · refine find?_insertRanked (byteCount ·.symbol) (fun found => found.symbol.isPrefixOf rest)
      g.operators (Bool.eq_false_iff.mpr ?_)
    refine fun hprefix => hunused ?_
    exact (List.isPrefixOf_iff_prefix.mp hprefix).isInfix.trans hrest.isInfix
  · refine find?_insertRanked (byteCount ·.symbol) (fun found => found.symbol == symbol)
      g.operators (Bool.eq_false_iff.mpr ?_)
    refine fun hsame => hnew ?_
    rw [eq_of_beq hsame]
    exact hsymbol

theorem findsSame_registerForm {priority : Nat} {form : Form}
    (h : g.registerForm priority form = .ok g')
    (hunused : ∀ rest, rest <:+ text → ∀ flags, form.accepts rest flags = false) :
    g.FindsSame text g' := by
  obtain ⟨-, rfl⟩ := registerForm_eq_ok_iff.mp h
  refine ⟨fun _ _ => rfl, fun _ _ => rfl, fun rest hrest flags => ?_, fun _ _ => rfl⟩
  exact congrArg (Option.map _)
    (find?_insertRanked (·.1) (fun found => found.2.accepts rest flags) g.forms
      (hunused rest hrest flags))

theorem findsSame_registerTransform {trigger : Char} {transform : Transform}
    (h : g.registerTransform trigger transform = .ok g') (hunused : trigger ∉ text) :
    g.FindsSame text g' := by
  obtain ⟨-, rfl⟩ := registerTransform_eq_ok_iff.mp h
  refine ⟨fun _ _ => rfl, fun _ _ => rfl, fun _ _ _ => rfl, fun c hc => ?_⟩
  have hother : (trigger == c) = false :=
    beq_eq_false_iff_ne.mpr fun hsame => hunused (hsame ▸ hc)
  refine congrArg (Option.map _) ?_
  rw [List.find?_append, List.find?_cons_of_neg (by rw [hother]; nofun), List.find?_nil,
    Option.or_none]

/-- By induction on the registrations. -/
theorem findsSame_of_registered {registrations : List Registration}
    (h : registrations.foldlM register g = .ok g')
    (hunused : ∀ entry ∈ registrations, entry.Unused text) : g.FindsSame text g' := by
  induction registrations generalizing g with
  | nil =>
      obtain rfl := Except.ok.inj h
      exact .refl text g
  | cons entry registrations ih =>
      obtain ⟨hentry, hothers⟩ := List.forall_mem_cons.mp hunused
      rw [List.foldlM_cons] at h
      cases hfirst : g.register entry with
      | error e =>
          rw [hfirst] at h
          cases h
      | ok between =>
          rw [hfirst] at h
          have hstep : g.FindsSame text between := by
            cases entry with
            | operator op => exact findsSame_registerOperator hfirst hentry
            | form priority form => exact findsSame_registerForm hfirst hentry
            | transform trigger transform => exact findsSame_registerTransform hfirst hentry
          exact hstep.trans (ih h hothers)

/-! ### Entries in the order of rank -/

section Ranks

variable {α : Type} {rank : α → Nat} {accepts : α → Bool} {registered table : List α} {x y : α}

/-- What a search has to find among entries that are listed in the order of their registration. -/
inductive FirstRanked (rank : α → Nat) (accepts : α → Bool) (registered : List α) :
    Option α → Prop where
  | found {before after : List α} {x : α} (hsplit : registered = before ++ x :: after)
      (haccepts : accepts x = true)
      (hbefore : ∀ y ∈ before, accepts y = true → rank y < rank x)
      (hafter : ∀ y ∈ after, accepts y = true → rank y ≤ rank x) :
      FirstRanked rank accepts registered (some x)
  | nothing (hnone : ∀ y ∈ registered, accepts y = false) :
      FirstRanked rank accepts registered none

namespace FirstRanked

theorem mem (h : FirstRanked rank accepts registered (some x)) : x ∈ registered := by
  cases h with
  | found hsplit =>
      rw [hsplit]
      exact List.mem_append_right _ List.mem_cons_self

theorem accepted (h : FirstRanked rank accepts registered (some x)) : accepts x = true := by
  cases h with
  | found _ haccepts => exact haccepts

theorem highest (h : FirstRanked rank accepts registered (some x)) (hy : y ∈ registered)
    (haccepts : accepts y = true) : rank y ≤ rank x := by
  cases h with
  | found hsplit _ hbefore hafter =>
      rw [hsplit, List.mem_append, List.mem_cons] at hy
      rcases hy with hy | rfl | hy
      · exact Nat.le_of_lt (hbefore y hy haccepts)
      · exact Nat.le_refl _
      · exact hafter y hy haccepts

theorem none_accepted (h : FirstRanked rank accepts registered none) :
    ∀ y ∈ registered, accepts y = false := by
  cases h with
  | nothing hnone => exact hnone

/-- A later entry that is not accepted, or ranks no higher, is not found. -/
theorem append_some (h : FirstRanked rank accepts registered (some y))
    (hx : accepts x = true → rank x ≤ rank y) :
    FirstRanked rank accepts (registered ++ [x]) (some y) := by
  cases h with
  | @found before after _ hsplit haccepts hbefore hafter =>
      have hsplit' : registered ++ [x] = before ++ y :: (after ++ [x]) := by
        rw [hsplit, List.append_assoc, List.cons_append]
      refine .found hsplit' haccepts hbefore fun z hz => ?_
      rcases List.mem_append.mp hz with hz | hz
      · exact hafter z hz
      · obtain rfl := List.mem_singleton.mp hz
        exact hx

theorem append_none (h : FirstRanked rank accepts registered none) (hx : accepts x = false) :
    FirstRanked rank accepts (registered ++ [x]) none := by
  refine .nothing fun y hy => ?_
  rcases List.mem_append.mp hy with hy | hy
  · exact h.none_accepted y hy
  · obtain rfl := List.mem_singleton.mp hy
    exact hx

theorem append_unaccepted {found : Option α} (h : FirstRanked rank accepts registered found)
    (hx : accepts x = false) : FirstRanked rank accepts (registered ++ [x]) found := by
  cases found with
  | none => exact h.append_none hx
  | some y =>
      refine h.append_some fun haccepts => ?_
      rw [hx] at haccepts
      cases haccepts

end FirstRanked

/-- A table of what has been registered in which every search finds what it has to. -/
structure Ranked (rank : α → Nat) (registered table : List α) : Prop where
  perm : table.Perm registered
  sorted : table.Pairwise fun x y => rank y ≤ rank x
  search : ∀ accepts, FirstRanked rank accepts registered (table.find? accepts)

namespace Ranked

theorem of_sorted (h : table.Pairwise fun x y => rank y ≤ rank x) : Ranked rank table table where
  perm := .refl table
  sorted := h
  search accepts := by
    cases hfound : table.find? accepts with
    | none =>
        refine .nothing fun y hy => ?_
        exact Bool.eq_false_iff.mpr (List.find?_eq_none.mp hfound y hy)
    | some x =>
        obtain ⟨haccepts, before, after, hsplit, hbefore⟩ := List.find?_eq_some_iff_append.mp hfound
        refine .found hsplit haccepts (fun y hy hyes => ?_) (fun y hy _ => ?_)
        · have hno := hbefore y hy
          rw [hyes] at hno
          cases hno
        · rw [hsplit, List.pairwise_append, List.pairwise_cons] at h
          exact h.2.1.1 y hy

/-- The new entry stands behind those that rank at least as high and in front of the others. -/
theorem exists_split (h : table.Pairwise fun x y => rank y ≤ rank x) (x : α) :
    ∃ higher lower, table = higher ++ lower ∧ insertRanked rank x table = higher ++ x :: lower
      ∧ (∀ y ∈ higher, rank x ≤ rank y) ∧ ∀ y ∈ lower, rank y < rank x := by
  refine ⟨_, _, List.takeWhile_append_dropWhile.symm, rfl, fun y hy => ?_, ?_⟩
  · exact of_decide_eq_true (List.all_eq_true.mp List.all_takeWhile y hy)
  · have hlower := h.sublist (List.dropWhile_sublist (rank x ≤ rank ·))
    have hhead := List.head?_dropWhile_not (rank x ≤ rank ·) table
    cases hdrop : table.dropWhile (rank x ≤ rank ·) with
    | nil => nofun
    | cons z zs =>
        rw [hdrop] at hlower hhead
        have hz : rank z < rank x := Nat.lt_of_not_le (of_decide_eq_false hhead)
        refine List.forall_mem_cons.mpr ⟨hz, fun y hy => ?_⟩
        exact Nat.lt_of_le_of_lt (List.rel_of_pairwise_cons hlower hy) hz

theorem insert (h : Ranked rank registered table) (x : α) :
    Ranked rank (registered ++ [x]) (insertRanked rank x table) := by
  obtain ⟨higher, lower, rfl, hinsert, hhigher, hlower⟩ := exists_split h.sorted x
  obtain ⟨hhigher_sorted, hlower_sorted, hacross⟩ := List.pairwise_append.mp h.sorted
  rw [hinsert]
  refine ⟨?_, ?_, fun accepts => ?_⟩
  · calc List.Perm (higher ++ x :: lower) (x :: (higher ++ lower)) := List.perm_middle
      List.Perm _ (x :: registered) := h.perm.cons x
      List.Perm _ (registered ++ [x]) := (List.perm_append_singleton x registered).symm
  · refine List.pairwise_append.mpr ⟨hhigher_sorted, ?_, fun y hy z hz => ?_⟩
    · exact hlower_sorted.cons fun y hy => Nat.le_of_lt (hlower y hy)
    · rcases List.mem_cons.mp hz with rfl | hz
      · exact hhigher y hy
      · exact hacross y hy z hz
  · have hsearch := h.search accepts
    cases hx : accepts x with
    | false =>
        rw [← hinsert, find?_insertRanked rank accepts _ hx]
        exact hsearch.append_unaccepted hx
    | true =>
        rw [List.find?_append, List.find?_cons_of_pos hx]
        rw [List.find?_append] at hsearch
        cases hfound : higher.find? accepts with
        | some y =>
            rw [hfound, Option.some_or] at hsearch
            exact hsearch.append_some fun _ => hhigher y (List.mem_of_find?_eq_some hfound)
        | none =>
            refine .found rfl hx (fun y hy haccepts => ?_) nofun
            rcases List.mem_append.mp (h.perm.mem_iff.mpr hy) with hy | hy
            · exact absurd haccepts (List.find?_eq_none.mp hfound y hy)
            · exact hlower y hy

/-- By induction on what is inserted. -/
theorem foldl_insert (h : Ranked rank registered table) (xs : List α) :
    Ranked rank (registered ++ xs) (xs.foldl (fun table x => insertRanked rank x table) table) := by
  induction xs generalizing registered table with
  | nil =>
      rw [List.append_nil]
      exact h
  | cons x xs ih =>
      rw [List.append_cons]
      exact ih (h.insert x)

end Ranked

end Ranks

end Grammar

end MatrixScript
