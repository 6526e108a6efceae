import MatrixScript.Proofs.Alike.Standard
import MatrixScript.Proofs.Values.Bodies
import MatrixScript.Proofs.Values.Libraries

/-!
# The functions in a value

A property of functions holds of a value if all functions in it have the property, and those that
they have captured, at every level. What operations on values give has no functions in it, so
functions come from variables, from lambda expressions, or from the library.

A function can run if the root of its body is there and the links that can be followed from it lead
to nodes, as it is with well-formed functions.
-/

namespace MatrixScript

/-- The functions that are parts of a value: the value itself, or those that a plot draws. -/
inductive Value.Holds : Value → Callable → Prop where
  | function (f : Callable) : Holds (.function f) f
  | curve {title : String} {series : List Series} {f : Callable} {start stop : Double}
      (h : .curve f start stop ∈ series) : Holds (.plot title series) f

/-- The function has the property, and so have all functions that it captured. -/
inductive Callable.All (p : Lambda → Prop) : Callable → Prop where
  | named (name : String) : All p (.named name)
  | lambda {code : Lambda} {captures : List Capture} (hcode : p code)
      (hcaptures : ∀ c ∈ captures, ∀ f, c.value.Holds f → All p f) : All p (.lambda code captures)

def Value.All (p : Lambda → Prop) (v : Value) : Prop := ∀ f, v.Holds f → f.All p

/-- The root of the body is one of its nodes, and the links of all nodes that can be found lead to
nodes. -/
structure Lambda.Runnable (code : Lambda) : Prop where
  links : code.forest.WellLinked
  root : code.forest.contains code.root = true

theorem Lambda.WellFormed.runnable {code : Lambda} (h : code.WellFormed) : code.Runnable :=
  ⟨Forest.wellLinked_of_links h.links, h.root⟩

/-- All functions in the value can run. -/
def Value.Runnable (v : Value) : Prop := v.All Lambda.Runnable

/-- The constants are runnable, and its functions, called with runnable arguments, keep the
variables runnable and give nothing else. -/
structure Library.Runnable (l : Library) : Prop where
  constants : ∀ name v, l.constant? name = some v → v.Runnable
  functions : ∀ name args, (∀ v ∈ args, v.Runnable) →
    Keeps (Environment.Each Value.Runnable) (l.call name args) Value.Runnable

variable {p q : Lambda → Prop}

theorem Callable.All.imp {f : Callable} (h : f.All p) (hpq : ∀ code, p code → q code) : f.All q := by
  induction h with
  | named name => exact .named name
  | lambda hcode _ ih => exact .lambda (hpq _ hcode) ih

theorem Value.All.imp {v : Value} (h : v.All p) (hpq : ∀ code, p code → q code) : v.All q :=
  fun f hf => (h f hf).imp hpq

/-! ### Well-formed functions -/

mutual

theorem Value.WellFormed.all : ∀ {v : Value}, v.WellFormed → v.All Lambda.WellFormed
  | .function _, h, _, .function _ => Callable.WellFormed.all h
  | .plot _ _, h, _, .curve hmem => Series.AllWellFormed.all h hmem

theorem Callable.WellFormed.all : ∀ {f : Callable}, f.WellFormed → f.All Lambda.WellFormed
  | .named name, _ => .named name
  | .lambda _ _, h => .lambda h.1 (Capture.AllWellFormed.all h.2)

theorem Series.AllWellFormed.all : ∀ {series : List Series} {f : Callable} {start stop : Double},
    Series.AllWellFormed series → .curve f start stop ∈ series → f.All Lambda.WellFormed
  | .curve _ _ _ :: _, _, _, _, h, .head _ => Callable.WellFormed.all h.1
  | _ :: _, _, _, _, h, .tail _ hmem => Series.AllWellFormed.all h.2 hmem

theorem Capture.AllWellFormed.all : ∀ {captures : List Capture}, Capture.AllWellFormed captures →
    ∀ c ∈ captures, c.value.All Lambda.WellFormed
  | .mk _ _ :: _, h, _, .head _ => Value.WellFormed.all h.1
  | .mk _ _ :: _, h, _, .tail _ hmem => Capture.AllWellFormed.all h.2 _ hmem

end

theorem Value.WellFormed.runnable {v : Value} (h : v.WellFormed) : v.Runnable :=
  h.all.imp fun _ hcode => hcode.runnable

namespace Value

variable {v v' : Value}

theorem IsPlain.all (h : v.IsPlain) : v.All p := by
  intro f hf
  cases hf with
  | function => exact absurd rfl h.1
  | curve _ => exact absurd rfl h.2

theorem all_function {f : Callable} (h : f.All p) : (function f).All p := by
  intro g hg
  cases hg
  exact h

/-- A value is like itself as far as its functions have a property. -/
theorem alike_iff_holds {P : Callable → Prop} :
    v.Alike (fun f f' => f' = f ∧ P f) v' ↔ v' = v ∧ ∀ f, v.Holds f → P f := by
  constructor
  · intro h
    obtain rfl := h.eq fun _ _ hf => hf.1
    refine ⟨rfl, fun f hf => ?_⟩
    cases hf with
    | function =>
        cases h with
        | function h => exact h.2
    | curve hmem =>
        cases h with
        | plot title h =>
            cases List.forall₂_same.mp h _ hmem with
            | curve h start stop => exact h.2
  · rintro ⟨rfl, h⟩
    cases v' with
    | function f => exact .function ⟨rfl, h f (.function f)⟩
    | plot title series =>
        refine .plot title (List.forall₂_same.mpr fun s hs => ?_)
        cases s with
        | points x y => exact .points x y
        | curve f start stop => exact .curve ⟨rfl, h f (.curve hs)⟩ start stop
    | _ => exact .of_isPlain ⟨nofun, nofun⟩

end Value

/-! ### The standard library -/

/-- The same variables, and all functions in them have the property. -/
def SameAll (p : Lambda → Prop) (e e' : Environment) : Prop := e' = e ∧ e.Each (Value.All p)

theorem standard_respects_all :
    RespectingTable (SameAll p) (fun f f' => f' = f ∧ f.All p) Library.standard.functions := by
  have hcontains (e e' : Environment) (he : SameAll p e e') (name : String) :
      e'.contains name = e.contains name := by
    rw [he.1]
  have hclearAll : Native.Respects (SameAll p) (fun f f' => f' = f ∧ f.All p)
      Variables.clearAll := by
    rintro _ _ _ _ e _ ⟨rfl, he⟩
    exact ⟨⟨rfl, he.clear⟩, .ok (.text _)⟩
  have hclearNames : Native.Respects (SameAll p) (fun f f' => f' = f ∧ f.All p)
      Variables.clearNames := by
    refine fun name args args' hargs => Variables.clearNames_agrees hargs hcontains ?_ name
    rintro e _ ⟨rfl, he⟩ name -
    exact ⟨rfl, he.erase name⟩
  refine (((Elementary.table_respects.append Matrices.table_respects).append ?_).append
    Sets.table_respects).append Plots.table_respects
  simp only [Variables.table, respectingTable_cons]
  exact ⟨List.forall_mem_cons.mpr ⟨hclearAll, List.forall_mem_singleton.mpr hclearNames⟩,
    List.forall_mem_singleton.mpr (Variables.doesExist_respects hcontains), List.forall_mem_nil _⟩

theorem Library.standard_keeps_all {args : List Value} (name : String)
    (hargs : ∀ v ∈ args, v.All p) :
    Keeps (Environment.Each (Value.All p)) (standard.call name args) (Value.All p) := by
  intro e he
  have hsame := List.forall₂_same.mpr fun v hv => Value.alike_iff_holds.mpr ⟨rfl, hargs v hv⟩
  obtain ⟨hleft, hgives⟩ := call_agrees standard_respects_all name hsame e e ⟨rfl, he⟩
  refine ⟨hleft.2, fun v hv => ?_⟩
  rw [hv] at hgives
  cases hgives with
  | ok h => exact (Value.alike_iff_holds.mp h).2

theorem Library.standard_runnable : standard.Runnable where
  constants name _ hv := (standard_constants name hv).all
  functions name _ := standard_keeps_all name

end MatrixScript
