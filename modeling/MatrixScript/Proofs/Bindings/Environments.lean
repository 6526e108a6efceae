import Mathlib.Data.List.Find
import MatrixScript.Proofs.Hermetic

/-!
# What binding and erasing do to the scopes

Binding touches the innermost scope and no other name. Erasing a name as often as it is listed takes
away that many of its bindings, from the innermost one outwards.
-/

namespace MatrixScript

namespace Environment

/-- Some names have been bound in the innermost scope, to values as described. -/
structure Binds (e : Environment) (targets : List String) (holds : String → Value → Prop)
    (e' : Environment) : Prop where
  outer : e'.outer = e.outer
  others : ∀ name ∉ targets, e'.innermost.lookup name = e.innermost.lookup name
  bound : ∀ name ∈ targets, ∃ v, e'.innermost.lookup name = some v ∧ holds name v

/-- The bindings of one name, scope by scope from the innermost one outwards. -/
def bindings (e : Environment) (name : String) : List (Option Value) :=
  e.scopes.map (Scope.lookup · name)

/-- The first few of some bindings are gone. -/
def unbind : Nat → List (Option Value) → List (Option Value)
  | 0, found => found
  | _ + 1, [] => []
  | n + 1, none :: found => none :: unbind (n + 1) found
  | n + 1, some _ :: found => none :: unbind n found

/-- Some names, which all were visible, have lost a binding for each time that they are listed. -/
structure Erases (e : Environment) (names : List String) (e' : Environment) : Prop where
  visible : ∀ name ∈ names, e.contains name = true
  bindings : ∀ name, e'.bindings name = unbind (names.count name) (e.bindings name)

variable {e : Environment}

/-! ### Binding -/

theorem binds_define {name : String} {v : Value} {holds : String → Value → Prop}
    (h : holds name v) (e : Environment) : e.Binds [name] holds (e.define name v) := by
  constructor
  · rfl
  · intro other hother
    have hne : name ≠ other := fun heq => hother (List.mem_singleton.mpr heq.symm)
    exact (Scope.lookup_define _ _ _ _).trans (if_neg hne)
  · intro other hother
    obtain rfl := List.mem_singleton.mp hother
    exact ⟨v, (Scope.lookup_define _ _ _ _).trans (if_pos rfl), h⟩

theorem lookup_defineAll_of_notMem {bindings : List (String × Value)} {name : String}
    (h : name ∉ bindings.map (·.1)) (e : Environment) :
    (e.defineAll bindings).innermost.lookup name = e.innermost.lookup name := by
  induction bindings generalizing e with
  | nil => rfl
  | cons b bindings ih =>
      obtain ⟨hne, hrest⟩ := not_or.mp (mt List.mem_cons.mpr h)
      calc ((e.define b.1 b.2).defineAll bindings).innermost.lookup name
          = (e.define b.1 b.2).innermost.lookup name := ih hrest _
        _ = e.innermost.lookup name :=
          (Scope.lookup_define _ _ _ _).trans (if_neg (Ne.symm hne))

/-- The last binding of a name is the one that stays. -/
theorem lookup_defineAll {before after : List (String × Value)} {name : String} {v : Value}
    (h : name ∉ after.map (·.1)) (e : Environment) :
    (e.defineAll (before ++ (name, v) :: after)).innermost.lookup name = some v := by
  have hsplit : e.defineAll (before ++ (name, v) :: after)
      = ((e.defineAll before).define name v).defineAll after := by
    rw [defineAll, List.foldl_append]
    rfl
  rw [hsplit, lookup_defineAll_of_notMem h]
  exact (Scope.lookup_define _ _ _ _).trans (if_pos rfl)

/-! ### Erasing -/

theorem unbind_one_unbind (n : Nat) (found : List (Option Value)) :
    unbind n (unbind 1 found) = unbind (n + 1) found := by
  induction found with
  | nil => cases n <;> rfl
  | cons first found ih =>
      cases first with
      | none =>
          cases n with
          | zero => rfl
          | succ n => exact congrArg (none :: ·) ih
      | some v => cases n <;> simp [unbind]

theorem lookup_erase (s : Scope) (name other : String) :
    (s.erase name).lookup other = if name = other then none else s.lookup other := by
  unfold Scope.erase Scope.lookup
  rw [List.find?_filter]
  by_cases hname : name = other
  · subst hname
    simp
  · rw [if_neg hname]
    congr 1
    apply List.find?_congr
    intro b _
    by_cases hb : b.1 = other
    · simp [hb, Ne.symm hname]
    · simp [hb]

theorem map_lookup_eraseFirst (name other : String) (scopes : List Scope) :
    (eraseFirst name scopes).map (Scope.lookup · other)
      = unbind (if name = other then 1 else 0) (scopes.map (Scope.lookup · other)) := by
  induction scopes with
  | nil => by_cases h : name = other <;> simp [h, eraseFirst, unbind]
  | cons s scopes ih =>
      unfold eraseFirst
      by_cases hname : name = other
      · subst hname
        rw [if_pos rfl] at ih ⊢
        cases hs : s.lookup name with
        | none => simp [hs, unbind, ih]
        | some v => simp [hs, unbind, lookup_erase]
      · rw [if_neg hname] at ih ⊢
        cases hs : s.lookup name with
        | none => simpa [hs, unbind] using ih
        | some v => simp [unbind, lookup_erase, hname]

theorem bindings_erase (e : Environment) (name other : String) :
    (e.erase name).bindings other = unbind (if name = other then 1 else 0) (e.bindings other) := by
  have hscopes : (e.erase name).scopes = eraseFirst name e.scopes := by
    simp only [scopes, erase, eraseFirst]
    split <;> rfl
  rw [bindings, hscopes]
  exact map_lookup_eraseFirst name other e.scopes

/-- By induction on the names. -/
theorem bindings_eraseAll (names : List String) (e : Environment) (name : String) :
    (names.foldl erase e).bindings name = unbind (names.count name) (e.bindings name) := by
  induction names generalizing e with
  | nil => rfl
  | cons first names ih =>
      rw [List.foldl_cons, ih, bindings_erase]
      by_cases hname : first = name
      · subst hname
        rw [if_pos rfl, unbind_one_unbind, List.count_cons_self]
      · rw [if_neg hname, List.count_cons_of_ne hname]
        rfl

end Environment

open Environment

theorem Variables.eraseAll_snd (names : List String) (e : Environment) :
    (Variables.eraseAll names e).2 = names.foldl erase e := by
  unfold Variables.eraseAll
  exact (List.foldl_hom Prod.snd fun _ _ => rfl).symm

theorem Variables.erases_eraseAll {names : List String} {e : Environment}
    (h : ∀ name ∈ names, e.contains name = true) : e.Erases names (Variables.eraseAll names e).2 := by
  constructor
  · exact h
  · intro name
    rw [Variables.eraseAll_snd]
    exact bindings_eraseAll names e name

end MatrixScript
