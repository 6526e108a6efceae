import MatrixScript.Proofs.Alike.Evaluation
import MatrixScript.Proofs.Alike.Standard

/-!
# Values up to the spans in them

A function keeps the body that it was written with, and this has the spans of the text that it was
written in. Nothing that a program does depends on them: without them, all that is done to variables
stays what it is, and two runs that differ in nothing else give values that differ in nothing else.
-/

namespace MatrixScript

def Forest.bare (f : Forest) : Forest := ⟨f.nodes.map fun node => ⟨node.kind, Span.none⟩⟩

mutual

/-- The value with empty spans in the bodies of its functions, at every level. -/
def Value.bare : Value → Value
  | .function f => .function f.bare
  | .plot title series => .plot title (Series.allBare series)
  | v => v

def Callable.bare : Callable → Callable
  | .lambda code captures =>
    .lambda { code with forest := code.forest.bare } (Capture.allBare captures)
  | .named name => .named name

def Series.bare : Series → Series
  | .points x y => .points x y
  | .curve f start stop => .curve f.bare start stop

def Series.allBare : List Series → List Series
  | [] => []
  | s :: rest => s.bare :: Series.allBare rest

def Capture.allBare : List Capture → List Capture
  | [] => []
  | .mk name v :: rest => .mk name v.bare :: Capture.allBare rest

end

def Scope.bare (s : Scope) : Scope := s.map fun b => (b.1, b.2.bare)

def Environment.bare (e : Environment) : Environment := ⟨e.innermost.bare, e.outer.map Scope.bare⟩

theorem map_eq_map_iff_forall₂ {α β : Type} {f : α → β} {xs ys : List α} :
    ys.map f = xs.map f ↔ List.Forall₂ (fun x y => f y = f x) xs ys := by
  rw [← List.forall₂_eq_eq_eq, List.forall₂_map_left_iff, List.forall₂_map_right_iff]
  exact ⟨List.Forall₂.flip, List.Forall₂.flip⟩

theorem Series.allBare_eq_map (series : List Series) : allBare series = series.map bare := by
  induction series with
  | nil => rfl
  | cons s series ih => rw [allBare, ih, List.map_cons]

theorem Capture.allBare_eq_map (captures : List Capture) :
    allBare captures = captures.map fun c => .mk c.name c.value.bare := by
  induction captures with
  | nil => rfl
  | cons c captures ih =>
      obtain ⟨name, v⟩ := c
      rw [allBare, ih, List.map_cons]
      rfl

theorem Value.kind_bare (v : Value) : v.bare.kind = v.kind := by cases v <;> rfl

theorem Value.IsPlain.bare {v : Value} (h : v.IsPlain) : v.bare = v := by
  cases v with
  | function f => exact absurd rfl h.1
  | plot title series => exact absurd rfl h.2
  | _ => rfl

/-- The same function but for the spans in its body and in what it captured. -/
def SameBare (f f' : Callable) : Prop := f'.bare = f.bare

theorem seriesAlike_iff_bare {s s' : Series} : s.Alike SameBare s' ↔ s'.bare = s.bare := by
  constructor
  · intro h
    cases h with
    | points x y => rfl
    | curve h start stop => rw [Series.bare, Series.bare, h]
  · intro h
    cases s with
    | points x y =>
        cases s' <;> cases h
        exact .points x y
    | curve f start stop =>
        cases s' with
        | points x y => cases h
        | curve f' start' stop' =>
            simp only [Series.bare, Series.curve.injEq] at h
            obtain ⟨hf, rfl, rfl⟩ := h
            exact .curve (F := SameBare) hf _ _

theorem alike_iff_bare {v v' : Value} : v.Alike SameBare v' ↔ v'.bare = v.bare := by
  constructor
  · intro h
    cases h with
    | function h => rw [Value.bare, Value.bare, h]
    | plot title h =>
        refine congrArg (Value.plot title) ?_
        induction h with
        | nil => rfl
        | cons hs _ ih => rw [Series.allBare, Series.allBare, seriesAlike_iff_bare.mp hs, ih]
    | _ => rfl
  · intro h
    have hkind : v'.kind = v.kind := by rw [← v'.kind_bare, h, v.kind_bare]
    have hplain (hv : v.IsPlain) : v.Alike SameBare v' := by
      have hv' : v'.IsPlain := by
        unfold Value.IsPlain
        rw [hkind]
        exact hv
      rw [hv.bare, hv'.bare] at h
      rw [h]
      exact .of_isPlain hv
    cases v with
    | function f =>
        cases v' with
        | function f' => exact .function (Value.function.inj h)
        | _ => cases hkind
    | plot title series =>
        cases v' with
        | plot title' series' =>
            obtain ⟨rfl, hseries⟩ := Value.plot.inj h
            refine .plot _ ?_
            rw [Series.allBare_eq_map, Series.allBare_eq_map, map_eq_map_iff_forall₂] at hseries
            exact hseries.imp fun _ _ hs => seriesAlike_iff_bare.mpr hs
        | _ => cases hkind
    | _ => exact hplain ⟨nofun, nofun⟩

/-! ### Variables up to spans -/

theorem Scope.lookup_bare (s : Scope) (name : String) :
    s.bare.lookup name = (s.lookup name).map Value.bare := by
  unfold Scope.bare Scope.lookup
  rw [List.find?_map, Option.map_map, Option.map_map]
  rfl

theorem Scope.erase_bare (s : Scope) (name : String) : s.bare.erase name = (s.erase name).bare :=
  List.filter_map

namespace Environment

variable {e : Environment} {name : String}

theorem define_bare (e : Environment) (name : String) (v : Value) :
    e.bare.define name v.bare = (e.define name v).bare := by
  unfold define Scope.define Environment.bare
  rw [Scope.erase_bare]
  rfl

theorem defineAll_bare (e : Environment) (bindings : List (String × Value)) :
    e.bare.defineAll (Scope.bare bindings) = (e.defineAll bindings).bare := by
  induction bindings generalizing e with
  | nil => rfl
  | cons b bindings ih =>
      change (e.bare.define b.1 b.2.bare).defineAll (Scope.bare bindings) = _
      rw [define_bare, ih]
      rfl

theorem scopes_bare (e : Environment) : e.bare.scopes = e.scopes.map Scope.bare := rfl

theorem push_bare (e : Environment) : e.bare.push = e.push.bare := rfl

theorem pop_bare (e : Environment) : e.bare.pop = e.pop.bare := by
  obtain ⟨innermost, outer⟩ := e
  cases outer <;> rfl

theorem lookup_bare (e : Environment) (name : String) :
    e.bare.lookup name = (e.lookup name).map Value.bare := by
  unfold lookup
  rw [scopes_bare, List.findSome?_map, List.map_findSome?]
  exact congrArg (List.findSome? · e.scopes) (funext fun s => s.lookup_bare name)

theorem contains_bare (e : Environment) (name : String) :
    e.bare.contains name = e.contains name := by
  rw [contains, lookup_bare, Option.isSome_map, contains]

theorem eraseFirst_bare (name : String) (scopes : List Scope) :
    eraseFirst name (scopes.map Scope.bare) = (eraseFirst name scopes).map Scope.bare := by
  induction scopes with
  | nil => rfl
  | cons s scopes ih =>
      rw [List.map_cons, eraseFirst, eraseFirst, s.lookup_bare, Option.isSome_map, Scope.erase_bare,
        ih]
      split <;> rfl

theorem erase_bare (e : Environment) (name : String) : e.bare.erase name = (e.erase name).bare := by
  have hfound : (e.bare.innermost.lookup name).isSome = (e.innermost.lookup name).isSome := by
    rw [Environment.bare, Scope.lookup_bare, Option.isSome_map]
  unfold erase
  rw [hfound]
  split
  · exact congrArg (Environment.mk · _) (Scope.erase_bare _ _)
  · exact congrArg (Environment.mk _) (eraseFirst_bare _ _)

theorem capture_bare (e : Environment) (names : List String) :
    e.bare.capture names = Capture.allBare (e.capture names) := by
  unfold capture
  rw [Capture.allBare_eq_map, List.map_filterMap]
  refine List.filterMap_congr fun name _ => ?_
  rw [lookup_bare, Option.map_map, Option.map_map]
  rfl

end Environment

/-! ### Two runs on the same variables up to spans -/

def Environment.SameBare (e e' : Environment) : Prop := e'.bare = e.bare

/-- What runs share that differ in the spans of bodies. -/
def bareness (library : Library) (deadline : Option Deadline) : Likeness where
  World := Unit
  library := library
  deadline := deadline
  callables := MatrixScript.SameBare
  environments _ := Environment.SameBare
  Knows _ _ := True
  spans _ _ := True

namespace Environment

variable {e e' : Environment}

theorem SameBare.lookup (h : e.SameBare e') (name : String) :
    Option.Rel (Value.Alike MatrixScript.SameBare) (e.lookup name) (e'.lookup name) := by
  have hvalues : (e'.lookup name).map Value.bare = (e.lookup name).map Value.bare := by
    rw [← lookup_bare, ← lookup_bare, h]
  cases hv : e.lookup name with
  | none =>
      rw [hv, Option.map_none, Option.map_eq_none_iff] at hvalues
      rw [hvalues]
      exact .none
  | some v =>
      rw [hv, Option.map_some] at hvalues
      obtain ⟨v', hv', hbare⟩ := Option.map_eq_some_iff.mp hvalues
      rw [hv']
      exact .some (alike_iff_bare.mpr hbare)

theorem SameBare.contains_eq (h : e.SameBare e') (name : String) :
    e'.contains name = e.contains name := by
  rw [← contains_bare, h, contains_bare]

theorem SameBare.defineAll (h : e.SameBare e') {bindings bindings' : List (String × Value)}
    (hbindings : Scope.bare bindings' = Scope.bare bindings) :
    (e.defineAll bindings).SameBare (e'.defineAll bindings') := by
  unfold SameBare
  rw [← defineAll_bare, ← defineAll_bare, h, hbindings]

end Environment

namespace Variables

theorem clearAll_bare : Native.Respects Environment.SameBare SameBare clearAll := by
  intro _ _ _ _
  refine paired_get.bind fun e e' (he : e'.bare = e.bare) => ?_
  have hlength : e'.innermost.length = e.innermost.length := by
    have hscopes := congrArg (fun e => e.innermost.length) he
    simpa [Environment.bare, Scope.bare] using hscopes
  have hclear : e.clear.SameBare e'.clear := by
    unfold Environment.SameBare Environment.clear Environment.bare
    exact congrArg (Environment.mk _) (congrArg Environment.outer he)
  rw [hlength]
  exact (paired_set hclear).bind fun _ _ _ => paired_pure (.text _)

theorem clearNames_bare : Native.Respects Environment.SameBare SameBare clearNames := by
  intro name args args' hargs
  refine clearNames_agrees hargs (fun e e' he => he.contains_eq) (fun e e' he name _ => ?_) name
  unfold Environment.SameBare
  rw [← Environment.erase_bare, ← Environment.erase_bare, he]

end Variables

theorem standard_respects_bare :
    RespectingTable Environment.SameBare SameBare Library.standard.functions := by
  refine (((Elementary.table_respects.append Matrices.table_respects).append ?_).append
    Sets.table_respects).append Plots.table_respects
  simp only [Variables.table, respectingTable_cons]
  exact ⟨List.forall_mem_cons.mpr ⟨Variables.clearAll_bare,
      List.forall_mem_singleton.mpr Variables.clearNames_bare⟩,
    List.forall_mem_singleton.mpr (Variables.doesExist_respects fun _ _ he => he.contains_eq),
    List.forall_mem_nil _⟩

namespace Forest

variable {f f' : Forest} {K : String → Prop} {R : Span → Span → Prop}

theorem get?_bare (f : Forest) (id : NodeId) :
    f.bare.get? id = (f.get? id).map fun node => ⟨node.kind, Span.none⟩ :=
  Array.getElem?_map

/-- Forests that are the same up to spans have the same nodes everywhere. -/
theorem mirrors_of_bare (h : f'.bare = f.bare) :
    f.Mirrors f' id (fun _ => True) (fun _ => True) fun _ _ => True where
  node i _ := by
    have hnodes : (f'.get? i).map (fun node => (⟨node.kind, Span.none⟩ : Node))
        = (f.get? i).map fun node => ⟨node.kind, Span.none⟩ := by
      rw [← get?_bare, ← get?_bare, h]
    change Option.Rel _ (f.get? i) (f'.get? i)
    cases hnode : f.get? i with
    | none =>
        rw [hnode, Option.map_none, Option.map_eq_none_iff] at hnodes
        rw [hnodes]
        exact .none
    | some node =>
        rw [hnode, Option.map_some] at hnodes
        obtain ⟨node', hnode', hsame⟩ := Option.map_eq_some_iff.mp hnodes
        rw [hnode']
        exact .some ⟨(Node.mk.inj hsame).1.trans node.kind.map_id.symm, trivial⟩
  guided _ _ _ _ _ _ := ⟨rfl, fun _ => trivial⟩
  known _ _ _ _ _ _ := trivial
  missing _ _ _ := rfl
  enough := .inl fun _ => rfl

theorem Alike.bare_eq (h : f.Alike K R f') : f'.bare = f.bare := by
  have hnodes : f'.nodes.toList.map (fun node => (⟨node.kind, Span.none⟩ : Node))
      = f.nodes.toList.map fun node => ⟨node.kind, Span.none⟩ := by
    rw [map_eq_map_iff_forall₂]
    exact List.Forall₂.imp (fun n n' hn => by rw [hn.kind]) h
  unfold Forest.bare
  rw [mk.injEq, ← Array.toList_inj, Array.toList_map, Array.toList_map]
  exact hnodes

end Forest

theorem forall₂_alike_iff_bare {vs vs' : List Value} :
    List.Forall₂ (Value.Alike SameBare) vs vs' ↔ vs'.map Value.bare = vs.map Value.bare := by
  rw [map_eq_map_iff_forall₂]
  exact ⟨List.Forall₂.imp fun _ _ => alike_iff_bare.mp,
    List.Forall₂.imp fun _ _ => alike_iff_bare.mpr⟩

/-- What a call binds, without spans. -/
theorem bare_bindings (captures : List Capture) (params : List String) (args : List Value) :
    Scope.bare (captures.map (fun c => (c.name, c.value)) ++ params.zip args)
      = (Capture.allBare captures).map (fun c => (c.name, c.value))
        ++ params.zip (args.map Value.bare) := by
  rw [Scope.bare, List.map_append, Capture.allBare_eq_map, List.map_map, List.map_map,
    List.zip_map_right]
  rfl

theorem SameBare.kinds {f f' : Callable} (h : SameBare f f') :
    (∃ name, f = .named name ∧ f' = .named name)
      ∨ ∃ code captures code' captures', f = .lambda code captures ∧ f' = .lambda code' captures'
        ∧ code'.params = code.params := by
  cases f with
  | named name =>
      cases f' <;> cases h
      exact .inl ⟨name, rfl, rfl⟩
  | lambda code captures =>
      cases f' with
      | named name => cases h
      | lambda code' captures' =>
          exact .inr ⟨code, captures, code', captures', rfl, rfl,
            (Lambda.mk.inj (Callable.lambda.inj h).1).1⟩

/-- Nothing that evaluation does depends on the spans in bodies. -/
theorem bareness_lawful (deadline : Option Deadline) : (bareness Library.standard deadline).Lawful where
  shown f f' h := by
    rcases SameBare.kinds h with
      ⟨name, rfl, rfl⟩ | ⟨code, captures, code', captures', rfl, rfl, hparams⟩
    · rfl
    · rw [Callable.text, Callable.text, hparams]
  kinds f f' h := SameBare.kinds h
  named _ := rfl
  constants name _ hv := .of_isPlain (Library.standard_constants name hv)
  lookup _ _ _ he name _ := he.lookup name
  define _ e e' he name v v' hv := by
    change (e'.define name v').bare = (e.define name v).bare
    rw [← Environment.define_bare, ← Environment.define_bare, he, alike_iff_bare.mp hv]
  call _ name _ _ hargs := Library.call_agrees standard_respects_bare name hargs
  enter _ e e' he code captures code' captures' hf args args' hargs _ := by
    obtain ⟨hcode, hcaptures⟩ := Callable.lambda.inj hf
    obtain ⟨hparams, hroot, hforest, -⟩ := Lambda.mk.inj hcode
    have hpush : e.push.SameBare e'.push := by
      unfold Environment.SameBare
      rw [← Environment.push_bare, ← Environment.push_bare, he]
    refine ⟨(), id, fun _ => True, hpush.defineAll ?_, fun x x' hx => ?_,
      Forest.mirrors_of_bare hforest, trivial, hroot⟩
    · rw [bare_bindings, bare_bindings, hcaptures, hparams, forall₂_alike_iff_bare.mp hargs]
    · change x'.pop.bare = x.pop.bare
      rw [← Environment.pop_bare, ← Environment.pop_bare, hx]
  fresh _ _ h := congrArg (· + 1) h
  close _ e e' he params root forest forest' n n' hn hforest := by
    cases hn
    change Callable.bare _ = Callable.bare _
    rw [Callable.bare, Callable.bare, hforest.bare_eq, hforest.namesIn_eq,
      ← Environment.capture_bare, ← Environment.capture_bare, he]

end MatrixScript
