import MatrixScript.Proofs.Alike.Evaluation
import MatrixScript.Proofs.Alike.Standard
import Mathlib.Data.List.Find

/-!
# Functions that bring along all that they use

A name is looked up from the innermost scope outwards, so a function can see the variables of
whoever calls it. It is hermetic with respect to some names if every other name in its body is one
of its parameters or of its captured variables, and the functions among these are hermetic, too. If
the names are bound neither where it is called the first time nor where it is called the second
time, no lookup gets that far: both calls give the same.

The two runs have the same scopes except for those that were there before the call. Functions that
are made on the way capture what they mention, unless it is one of the names, and so are hermetic.
-/

namespace MatrixScript

/-! ### Hermetic values -/

/-- The nodes that links lead to from the root. -/
inductive Forest.Reaches (f : Forest) (root : NodeId) : NodeId → Prop where
  | root : Reaches f root root
  | child {id child : NodeId} {node : Node} (h : Reaches f root id) (hnode : f.get? id = some node)
      (hchild : child ∈ node.kind.children) : Reaches f root child

/-- The names in the body of a lambda. -/
def Lambda.Mentions (code : Lambda) (name : String) : Prop :=
  ∃ id node, code.forest.Reaches code.root id ∧ code.forest.get? id = some node
    ∧ node.kind = .name name

mutual

def Value.Hermetic (N : String → Prop) : Value → Prop
  | .function f => f.Hermetic N
  | .plot _ series => Series.AllHermetic N series
  | _ => True

/-- Whatever the body mentions is a parameter, a captured variable, or one of the given names, and
so it is for the functions among the captured variables. -/
def Callable.Hermetic (N : String → Prop) : Callable → Prop
  | .lambda code captures =>
    (∀ name, code.Mentions name → name ∈ code.params ∨ name ∈ captures.map Capture.name ∨ N name)
      ∧ Capture.AllHermetic N captures
  | .named _ => True

def Series.Hermetic (N : String → Prop) : Series → Prop
  | .points _ _ => True
  | .curve f _ _ => f.Hermetic N

def Series.AllHermetic (N : String → Prop) : List Series → Prop
  | [] => True
  | s :: rest => s.Hermetic N ∧ Series.AllHermetic N rest

def Capture.AllHermetic (N : String → Prop) : List Capture → Prop
  | [] => True
  | .mk _ v :: rest => v.Hermetic N ∧ Capture.AllHermetic N rest

end

/-- The library without some of its functions. -/
def Library.without (l : Library) (names : List String) : Library :=
  { l with functions := l.functions.filter fun f => f.1 ∉ names }

variable {N : String → Prop}

theorem Series.allHermetic_iff {series : List Series} :
    Series.AllHermetic N series ↔ ∀ s ∈ series, s.Hermetic N := by
  induction series with
  | nil => exact ⟨fun _ => nofun, fun _ => trivial⟩
  | cons s series ih =>
      rw [List.forall_mem_cons, ← ih]
      rfl

theorem Capture.allHermetic_iff {captures : List Capture} :
    Capture.AllHermetic N captures ↔ ∀ c ∈ captures, c.value.Hermetic N := by
  induction captures with
  | nil => exact ⟨fun _ => nofun, fun _ => trivial⟩
  | cons c captures ih =>
      obtain ⟨name, v⟩ := c
      rw [List.forall_mem_cons, ← ih]
      rfl

/-- The same function, and a hermetic one. -/
def SameHermetic (N : String → Prop) (f f' : Callable) : Prop := f' = f ∧ f.Hermetic N

theorem alike_iff_hermetic {v v' : Value} :
    v.Alike (SameHermetic N) v' ↔ v' = v ∧ v.Hermetic N := by
  constructor
  · intro h
    refine ⟨h.eq fun _ _ hf => hf.1, ?_⟩
    cases h with
    | function h => exact h.2
    | plot title h =>
        change Series.AllHermetic N _
        induction h with
        | nil => trivial
        | cons hs _ ih =>
            refine ⟨?_, ih⟩
            cases hs with
            | points x y => trivial
            | curve h start stop => exact h.2
    | _ => trivial
  · rintro ⟨rfl, h⟩
    cases v' with
    | function f => exact .function ⟨rfl, h⟩
    | plot title series =>
        refine .plot title (List.forall₂_same.mpr fun s hs => ?_)
        have hs := Series.allHermetic_iff.mp h s hs
        cases s with
        | points x y => exact .points x y
        | curve f start stop => exact .curve ⟨rfl, hs⟩ start stop
    | _ => exact .of_isPlain ⟨nofun, nofun⟩

theorem forall₂_alike_iff {vs vs' : List Value} :
    List.Forall₂ (Value.Alike (SameHermetic N)) vs vs' ↔ vs' = vs ∧ ∀ v ∈ vs, v.Hermetic N := by
  constructor
  · intro h
    induction h with
    | nil => exact ⟨rfl, nofun⟩
    | cons hv _ ih =>
        obtain ⟨rfl, hv⟩ := alike_iff_hermetic.mp hv
        obtain ⟨rfl, hrest⟩ := ih
        exact ⟨rfl, List.forall_mem_cons.mpr ⟨hv, hrest⟩⟩
  · rintro ⟨rfl, h⟩
    exact List.forall₂_same.mpr fun v hv => alike_iff_hermetic.mpr ⟨rfl, h v hv⟩

/-! ### Scopes on top of those of the caller -/

def Scope.Hermetic (N : String → Prop) (s : Scope) : Prop := ∀ b ∈ s, b.2.Hermetic N

namespace Scope

variable {s : Scope} {name : String} {v : Value}

theorem lookup_define (s : Scope) (name : String) (v : Value) (other : String) :
    (s.define name v).lookup other = if name = other then some v else s.lookup other := by
  unfold define erase lookup
  by_cases hname : name = other
  · rw [if_pos hname, List.find?_cons_of_pos (by simpa using hname)]
    rfl
  · rw [if_neg hname, List.find?_cons_of_neg (by simpa using hname), List.find?_filter]
    refine congrArg (Option.map _) (List.find?_congr fun b _ => ?_)
    by_cases hb : b.1 = other
    · simp [hb, Ne.symm hname]
    · simp [hb]

theorem Hermetic.define (h : s.Hermetic N) (name : String) (hv : v.Hermetic N) :
    (s.define name v).Hermetic N :=
  List.forall_mem_cons.mpr ⟨hv, fun b hb => h b (List.mem_filter.mp hb).1⟩

theorem Hermetic.lookup (h : s.Hermetic N) (hv : s.lookup name = some v) : v.Hermetic N := by
  obtain ⟨b, hb, rfl⟩ := Option.map_eq_some_iff.mp hv
  exact h b (List.mem_of_find?_eq_some hb)

end Scope

/-- What is on top of the scopes that were there before the call. -/
structure Tower where
  above : List Scope
  /-- Names that the innermost scope binds. -/
  bound : List String

/-- The same scopes on top of those of either caller, with hermetic values only. -/
structure Tower.Stands (N : String → Prop) (base base' : List Scope) (w : Tower)
    (e e' : Environment) : Prop where
  innermost : e'.innermost = e.innermost
  outer : e.outer = w.above ++ base
  outer' : e'.outer = w.above ++ base'
  bound : ∀ name ∈ w.bound, (e.innermost.lookup name).isSome = true
  hermetic : ∀ s ∈ e.innermost :: w.above, s.Hermetic N

/-- Neither caller's scopes bind the name. -/
abbrev Nowhere (base base' : List Scope) (name : String) : Prop :=
  base.findSome? (·.lookup name) = none ∧ base'.findSome? (·.lookup name) = none

def Tower.Knows (N : String → Prop) (w : Tower) (name : String) : Prop := N name ∨ name ∈ w.bound

namespace Tower.Stands

variable {base base' : List Scope} {w : Tower} {e e' : Environment} {name : String}

/-- A name is found on top, or it is nowhere to be found. -/
theorem lookup (h : w.Stands N base base' e e')
    (hN : ∀ name, N name → Nowhere base base' name)
    (hname : w.Knows N name) :
    e'.lookup name = e.lookup name ∧ ∀ v, e.lookup name = some v → v.Hermetic N := by
  have hscopes : e.scopes = (e.innermost :: w.above) ++ base := congrArg (e.innermost :: ·) h.outer
  have hscopes' : e'.scopes = (e.innermost :: w.above) ++ base' := by
    rw [Environment.scopes, h.innermost, h.outer']
    rfl
  unfold Environment.lookup
  rw [hscopes, hscopes', List.findSome?_append, List.findSome?_append]
  cases hfound : (e.innermost :: w.above).findSome? (·.lookup name) with
  | some v =>
      refine ⟨rfl, ?_⟩
      rintro _ ⟨⟩
      obtain ⟨s, hs, hv⟩ := List.exists_of_findSome?_eq_some hfound
      exact (h.hermetic s hs).lookup hv
  | none =>
      have hnone := List.findSome?_eq_none_iff.mp hfound e.innermost List.mem_cons_self
      have hunbound : N name := hname.resolve_right fun hbound => by
        have hsome := h.bound name hbound
        rw [hnone] at hsome
        cases hsome
      rw [(hN name hunbound).1, (hN name hunbound).2]
      exact ⟨rfl, nofun⟩

theorem define (h : w.Stands N base base' e e') (name : String) {v : Value} (hv : v.Hermetic N) :
    w.Stands N base base' (e.define name v) (e'.define name v) where
  innermost := congrArg (·.define name v) h.innermost
  outer := h.outer
  outer' := h.outer'
  bound other hother := by
    change ((e.innermost.define name v).lookup other).isSome = true
    rw [Scope.lookup_define]
    split
    · rfl
    · exact h.bound other hother
  hermetic := by
    obtain ⟨hinnermost, habove⟩ := List.forall_mem_cons.mp h.hermetic
    exact List.forall_mem_cons.mpr ⟨hinnermost.define name hv, habove⟩

theorem defineAll (h : w.Stands N base base' e e') {bindings : List (String × Value)}
    (hbindings : ∀ b ∈ bindings, b.2.Hermetic N) :
    Stands N base base' ⟨w.above, bindings.map (·.1) ++ w.bound⟩ (e.defineAll bindings)
      (e'.defineAll bindings) := by
  induction bindings generalizing e e' w with
  | nil => exact h
  | cons b bindings ih =>
      obtain ⟨hb, hrest⟩ := List.forall_mem_cons.mp hbindings
      have hdefined : Stands N base base' ⟨w.above, b.1 :: w.bound⟩ (e.define b.1 b.2)
          (e'.define b.1 b.2) := by
        have hstands := h.define b.1 hb
        refine ⟨hstands.innermost, hstands.outer, hstands.outer', ?_, hstands.hermetic⟩
        refine List.forall_mem_cons.mpr ⟨?_, hstands.bound⟩
        change ((e.innermost.define b.1 b.2).lookup b.1).isSome = true
        rw [Scope.lookup_define, if_pos rfl]
        rfl
      have hall := ih hdefined hrest
      refine ⟨hall.innermost, hall.outer, hall.outer', fun name hname => hall.bound name ?_,
        hall.hermetic⟩
      simp only [List.map_cons, List.cons_append, List.mem_cons, List.mem_append] at hname ⊢
      tauto

/-- What is captured is the same, and hermetic. -/
theorem capture (h : w.Stands N base base' e e')
    (hN : ∀ name, N name → Nowhere base base' name)
    {names : List String} (hnames : ∀ name ∈ names, w.Knows N name) :
    e'.capture names = e.capture names ∧ Capture.AllHermetic N (e.capture names) := by
  have hmem {name : String} (hname : name ∈ names.eraseDups.mergeSort (· ≤ ·)) : name ∈ names := by
    rw [List.mem_mergeSort] at hname
    exact List.mem_eraseDups.mp hname
  unfold Environment.capture
  constructor
  · refine List.filterMap_congr fun name hname => ?_
    rw [(h.lookup hN (hnames name (hmem hname))).1]
  · refine Capture.allHermetic_iff.mpr fun c hc => ?_
    obtain ⟨name, hname, hc⟩ := List.mem_filterMap.mp hc
    obtain ⟨v, hv, rfl⟩ := Option.map_eq_some_iff.mp hc
    exact (h.lookup hN (hnames name (hmem hname))).2 v hv

end Tower.Stands

/-! ### The two runs -/

theorem Setting.mem_namesIn {f : Forest} {params : List String} {name : String} :
    name ∈ namesIn f params
      ↔ (∃ node ∈ f.nodes.toList, node.kind = .name name) ∧ name ∉ params := by
  unfold namesIn
  rw [List.mem_filterMap]
  constructor
  · rintro ⟨node, hnode, h⟩
    split at h
    · rename_i other hkind
      split at h
      · cases h
      · rename_i hother
        obtain rfl := Option.some.inj h
        exact ⟨⟨node, hnode, hkind⟩, by simpa using hother⟩
    · cases h
  · rintro ⟨⟨node, hnode, hkind⟩, hname⟩
    refine ⟨node, hnode, ?_⟩
    rw [hkind]
    exact if_neg (by simpa using hname)

/-- It is enough to look at the nodes of the body, whether links lead to them or not. -/
theorem Callable.hermetic_of_namesIn {code : Lambda} {captures : List Capture}
    (h : ∀ name ∈ Setting.namesIn code.forest code.params,
      name ∈ captures.map Capture.name ∨ N name)
    (hcaptures : Capture.AllHermetic N captures) : (Callable.lambda code captures).Hermetic N := by
  refine ⟨?_, hcaptures⟩
  rintro name ⟨id, node, -, hnode, hkind⟩
  have hmem : node ∈ code.forest.nodes.toList :=
    Array.mem_toList_iff.mpr (Array.mem_of_getElem? hnode)
  by_cases hparam : name ∈ code.params
  · exact .inl hparam
  · exact .inr (h name (Setting.mem_namesIn.mpr ⟨⟨node, hmem, hkind⟩, hparam⟩))

theorem Environment.mem_capture {e : Environment} {names : List String} {name : String}
    (hname : name ∈ names) (hvisible : (e.lookup name).isSome = true) :
    name ∈ (e.capture names).map Capture.name := by
  obtain ⟨v, hv⟩ := Option.isSome_iff_exists.mp hvisible
  refine List.mem_map.mpr ⟨.mk name v, List.mem_filterMap.mpr ⟨name, ?_, ?_⟩, rfl⟩
  · rw [List.mem_mergeSort]
    exact List.mem_eraseDups.mpr hname
  · rw [hv]
    rfl

/-- The same hermetic functions, in calls on top of one caller's variables or on top of another's.
-/
def sealing (library : Library) (deadline : Option Deadline) (N : String → Prop)
    (base base' : List Scope) : Likeness where
  World := Tower
  library := library
  deadline := deadline
  callables := SameHermetic N
  environments := Tower.Stands N base base'
  Knows := Tower.Knows N
  spans := Eq

section Sealing

variable {library : Library} {deadline : Option Deadline} {base base' above : List Scope} {w : Tower}
  {e e' : Environment} {code : Lambda} {captures : List Capture} {args : List Value}

/-- The variables that a call binds. -/
abbrev boundBy (code : Lambda) (captures : List Capture) (args : List Value) :
    List (String × Value) :=
  captures.map (fun c => (c.name, c.value)) ++ code.params.zip args

theorem hermetic_boundBy (hcaptures : Capture.AllHermetic N captures)
    (hargs : ∀ v ∈ args, v.Hermetic N) : ∀ b ∈ boundBy code captures args, b.2.Hermetic N := by
  refine List.forall_mem_append.mpr ⟨List.forall_mem_map.mpr fun c hc => ?_, fun b hb => ?_⟩
  · exact Capture.allHermetic_iff.mp hcaptures c hc
  · exact hargs b.2 (List.of_mem_zip hb).2

/-- All that the body of a hermetic function mentions is known in a call. -/
theorem mirrors_body (hcode : (Callable.lambda code captures).Hermetic N)
    (hcount : args.length = code.params.length) :
    code.forest.Mirrors code.forest id (code.forest.Reaches code.root)
      (Tower.Knows N ⟨above, (boundBy code captures args).map (·.1) ++ []⟩) Eq := by
  refine .same (fun id node hid hnode slot hslot _ =>
    hid.child hnode (List.mem_map_of_mem hslot))
    fun id node hid hnode name hname => ?_
  have hnames :
      (boundBy code captures args).map (·.1) = captures.map Capture.name ++ code.params := by
    rw [List.map_append, List.map_map, List.map_fst_zip (Nat.le_of_eq hcount.symm)]
    rfl
  rw [Tower.Knows, List.append_nil, hnames, List.mem_append]
  rcases hcode.1 name ⟨id, node, hid, hnode, hname⟩ with hparam | hcapture | hunbound
  · exact .inr (.inr hparam)
  · exact .inr (.inl hcapture)
  · exact .inl hunbound

/-- A lambda expression makes a hermetic function, of a body whose names are all known. -/
theorem hermetic_close (hN : ∀ name, N name → Nowhere base base' name)
    (h : w.Stands N base base' e e') (params : List String) (root : NodeId) {forest : Forest}
    (serial : Option Nat)
    (hforest : ∀ node ∈ forest.nodes.toList, ∀ name, node.kind = .name name → w.Knows N name) :
    let names := Setting.namesIn forest params
    e'.capture names = e.capture names
      ∧ (Callable.lambda ⟨params, root, forest, serial⟩ (e.capture names)).Hermetic N := by
  intro names
  have hnames : ∀ name ∈ names, w.Knows N name := by
    intro name hname
    obtain ⟨⟨node, hnode, hkind⟩, -⟩ := Setting.mem_namesIn.mp hname
    exact hforest node hnode name hkind
  obtain ⟨hsame, hcaptured⟩ := h.capture hN hnames
  refine ⟨hsame, Callable.hermetic_of_namesIn (fun name hname => ?_) hcaptured⟩
  rcases hnames name hname with hunbound | hbound
  · exact .inr hunbound
  · refine .inl (Environment.mem_capture hname ?_)
    obtain ⟨v, hv⟩ := Option.isSome_iff_exists.mp (h.bound name hbound)
    rw [Environment.lookup, Environment.scopes, List.findSome?_cons, hv]
    rfl

theorem sealing_lawful (hN : ∀ name, N name → Nowhere base base' name)
    (hfunctions : ∀ I F, RespectingTable I F library.functions)
    (hconstants : ∀ name v, library.constant? name = some v → v.IsPlain) :
    (sealing library deadline N base base').Lawful where
  shown := by
    rintro f _ ⟨rfl, -⟩
    rfl
  kinds := by
    rintro _ f ⟨rfl, -⟩
    cases f with
    | named name => exact .inl ⟨name, rfl, rfl⟩
    | lambda code captures => exact .inr ⟨code, captures, code, captures, rfl, rfl, rfl⟩
  named _ := ⟨rfl, trivial⟩
  constants name v hv := .of_isPlain (hconstants name v hv)
  lookup w e e' he name hname := by
    obtain ⟨hsame, hhermetic⟩ := he.lookup hN hname
    rw [hsame]
    cases hv : e.lookup name with
    | none => exact .none
    | some v => exact .some (alike_iff_hermetic.mpr ⟨rfl, hhermetic v hv⟩)
  define w e e' he name v v' hv := by
    obtain ⟨rfl, hv⟩ := alike_iff_hermetic.mp hv
    exact he.define name hv
  call w name args args' hargs := Library.call_agrees (hfunctions _ _) name hargs
  enter w e e' he := by
    rintro code captures _ _ ⟨⟨⟩, hcode⟩ args args' hargs hcount
    obtain ⟨rfl, hargs⟩ := forall₂_alike_iff.mp hargs
    have hpush : Tower.Stands N base base' ⟨e.innermost :: w.above, []⟩ e.push e'.push := {
      innermost := rfl
      outer := congrArg (e.innermost :: ·) he.outer
      outer' := by
        change e'.innermost :: e'.outer = _
        rw [he.innermost, he.outer']
        rfl
      bound := nofun
      hermetic := List.forall_mem_cons.mpr ⟨nofun, he.hermetic⟩ }
    refine ⟨_, id, _, hpush.defineAll (hermetic_boundBy hcode.2 hargs), fun x x' hx => ?_,
      mirrors_body hcode hcount, .root, rfl⟩
    have hpop : x.pop = ⟨e.innermost, w.above ++ base⟩ := by
      rw [Environment.pop, hx.outer]
      rfl
    have hpop' : x'.pop = ⟨e.innermost, w.above ++ base'⟩ := by
      rw [Environment.pop, hx.outer']
      rfl
    rw [hpop, hpop']
    exact ⟨rfl, rfl, rfl, he.bound, he.hermetic⟩
  fresh _ _ h := congrArg (· + 1) h
  close w e e' he params root forest forest' n n' hn hforest := by
    obtain rfl := hforest.eq
    cases hn
    obtain ⟨hsame, hhermetic⟩ := hermetic_close hN he params root (some n)
      fun node hnode name hname => hforest.known hnode hname
    rw [hsame]
    exact ⟨rfl, hhermetic⟩

end Sealing

/-! ### Calls from two places -/

/-- The standard library without what looks at the variables of the caller or erases them. -/
abbrev Library.sealed : Library := standard.without ["clear", "exists"]

theorem sealed_respects (I : Environment → Environment → Prop) (F : Callable → Callable → Prop) :
    RespectingTable I F Library.sealed.functions := by
  intro f hf
  obtain ⟨hf, hname⟩ := List.mem_filter.mp hf
  simp only [Library.standard, List.mem_append] at hf
  rcases hf with (((helementary | hmatrices) | hvariables) | hsets) | hplots
  · exact Elementary.table_respects f helementary
  · exact Matrices.table_respects f hmatrices
  · have hnames : f.1 ∈ ["clear", "exists"] := List.mem_map_of_mem (f := Prod.fst) hvariables
    exact absurd hnames (of_decide_eq_true hname)
  · exact Sets.table_respects f hsets
  · exact Plots.table_respects f hplots

/-- Neither environment binds the name in any of its scopes. -/
def Unbound (e e' : Environment) (name : String) : Prop :=
  e.lookup name = none ∧ e'.lookup name = none

theorem eq_of_concur {x x' : Except Stop Value}
    (h : Concur (Stop.Alike Eq) (Value.Alike (SameHermetic N)) x x') : x' = x := by
  cases h with
  | ok hv => rw [(alike_iff_hermetic.mp hv).1]
  | error hstop => rw [hstop.eq]

namespace Setting

/-- Called with the same arguments in two environments, a function gives the same value, fails in
the same way or does not end in either, if what it mentions is brought along or bound in neither. -/
theorem callLambda_hermetic {s : Setting} (hlibrary : s.library = Library.sealed)
    {e e' : Environment} {code : Lambda} {captures : List Capture} {args : List Value}
    (hcode : (Callable.lambda code captures).Hermetic (Unbound e e'))
    (hargs : ∀ v ∈ args, v.Hermetic (Unbound e e')) {checks checks' : Nat}
    (hchecks : s.deadline = none ∨ checks' = checks) (fuel nextSerial : Nat)
    (extents extents' : List (Option Nat)) :
    ((s.callLambda (evaluate fuel) code captures args).run.run
        ⟨e', checks', nextSerial, extents'⟩).1
      = ((s.callLambda (evaluate fuel) code captures args).run.run
        ⟨e, checks, nextSerial, extents⟩).1 := by
  unfold callLambda
  split
  · rfl
  · rename_i hcount
    split
    · rfl
    · rename_i depth _
      let body : Setting := { s with forest := code.forest, depth }
      let L := sealing Library.sealed s.deadline (Unbound e e') e.scopes e'.scopes
      have hL : L.Lawful :=
        sealing_lawful (fun _ h => h) sealed_respects fun name _ => Library.standard_constants name
      let inside : Tower := ⟨[], (boundBy code captures args).map (·.1) ++ []⟩
      have hbody : L.Settings inside id (code.forest.Reaches code.root) Eq body body :=
        ⟨mirrors_body hcode (Decidable.not_not.mp hcount), fun _ _ h => h, hlibrary, rfl, rfl⟩
      have hpush : Tower.Stands (Unbound e e') e.scopes e'.scopes ⟨[], []⟩ e.push e'.push :=
        ⟨rfl, rfl, rfl, nofun, List.forall_mem_singleton.mpr nofun⟩
      have hopened : L.Machines inside
          (Evaluation.opened ⟨e, checks, nextSerial, extents⟩ (boundBy code captures args))
          (Evaluation.opened ⟨e', checks', nextSerial, extents'⟩ (boundBy code captures args)) :=
        ⟨hpush.defineAll (hermetic_boundBy hcode.2 hargs), hchecks, rfl, rfl⟩
      have hruns := hL.evaluates fuel inside id _ Eq body body code.root hbody .root _ _ hopened
      exact eq_of_concur (Evaluation.concur_inScope hruns.2)

/-- What a library function makes of the parameter, and a captured variable that the first
environment binds to something else. -/
theorem callLambda_hermetic_captured :
    let one : Value := .real Double.one
    let s : Setting := ⟨Forest.empty, Library.sealed, none, Depth.ofLimit 1⟩
    let e : Environment := ⟨[("k", .text "other"), ("x", .text "other")], [[("y", one)]]⟩
    let body : Forest := ⟨#[⟨.name "real", Span.none⟩, ⟨.name "x", Span.none⟩,
      ⟨.call ⟨0⟩ [⟨1⟩], Span.none⟩, ⟨.name "k", Span.none⟩, ⟨.binary .notEq ⟨2⟩ ⟨3⟩, Span.none⟩]⟩
    let code : Lambda := ⟨["x"], ⟨4⟩, body, none⟩
    let captures : List Capture := [.mk "k" one]
    let run (e : Environment) (checks : Nat) :=
      (s.callLambda (evaluate 4) code captures [one]).run.run ⟨e, checks, 0, []⟩
    (Callable.lambda code captures).Hermetic (Unbound e Environment.empty)
      ∧ (∀ v ∈ [one], v.Hermetic (Unbound e Environment.empty))
      ∧ (run e 0).1 = .ok (.ofBool false) ∧ (run Environment.empty 7).1 = (run e 0).1 := by
  intro one s e body code captures run
  have hcode : (Callable.lambda code captures).Hermetic (Unbound e Environment.empty) := by
    refine Callable.hermetic_of_namesIn ?_ ⟨trivial, trivial⟩
    have hnames : namesIn code.forest code.params = ["real", "k"] := by decide
    rw [hnames]
    refine List.forall_mem_cons.mpr ⟨.inr ⟨rfl, rfl⟩, List.forall_mem_singleton.mpr (.inl ?_)⟩
    exact List.mem_cons_self
  have hargs : ∀ v ∈ [one], v.Hermetic (Unbound e Environment.empty) :=
    List.forall_mem_singleton.mpr trivial
  have hrun : (run e 0).1 = .ok (.ofBool false) := rfl
  exact ⟨hcode, hargs, hrun, callLambda_hermetic rfl hcode hargs (.inl rfl) 4 0 [] []⟩

end Setting

end MatrixScript
