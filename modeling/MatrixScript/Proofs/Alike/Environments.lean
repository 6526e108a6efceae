import MatrixScript.Proofs.Alike.Standard
import MatrixScript.Proofs.Hermetic

/-!
# Variables that differ in their functions

Two environments are alike if they bind the same names, scope by scope and in the same order, to
values that are alike. Whatever is done to variables keeps this, and so do the functions of the
standard library: none of them looks into a function that it is given.
-/

namespace MatrixScript

variable {F : Callable → Callable → Prop}

/-- The same name for values that are alike. -/
def BoundAlike (F : Callable → Callable → Prop) (b b' : String × Value) : Prop :=
  b'.1 = b.1 ∧ b.2.Alike F b'.2

inductive Capture.Alike (F : Callable → Callable → Prop) : Capture → Capture → Prop where
  | mk (name : String) {v v' : Value} (h : v.Alike F v') : Alike F (.mk name v) (.mk name v')

def Scope.Alike (F : Callable → Callable → Prop) (s s' : Scope) : Prop :=
  List.Forall₂ (BoundAlike F) s s'

structure Environment.Alike (F : Callable → Callable → Prop) (e e' : Environment) : Prop where
  innermost : e.innermost.Alike F e'.innermost
  outer : List.Forall₂ (Scope.Alike F) e.outer e'.outer

/-! ### Scopes -/

namespace Scope.Alike

variable {s s' : Scope}

theorem lookup (h : s.Alike F s') (name : String) :
    Option.Rel (Value.Alike F) (s.lookup name) (s'.lookup name) := by
  unfold Scope.lookup
  induction h with
  | nil => exact .none
  | cons hb _ ih =>
      rename_i b b' rest rest' _
      rw [List.find?_cons, List.find?_cons, hb.1]
      cases b.1 == name with
      | true => exact .some hb.2
      | false => exact ih

theorem erase (h : s.Alike F s') (name : String) : (s.erase name).Alike F (s'.erase name) := by
  refine List.rel_filter (fun b b' hb => ?_) h
  beta_reduce
  rw [hb.1]

theorem define (h : s.Alike F s') (name : String) {v v' : Value} (hv : v.Alike F v') :
    (s.define name v).Alike F (s'.define name v') :=
  .cons ⟨rfl, hv⟩ (h.erase name)

end Scope.Alike

theorem isSome_eq_of_rel {α β : Type} {P : α → β → Prop} {x : Option α} {y : Option β}
    (h : Option.Rel P x y) : y.isSome = x.isSome := by
  cases h <;> rfl

/-! ### Environments -/

namespace Environment

theorem Alike.refl (hF : ∀ f, F f f) (e : Environment) : e.Alike F e := by
  have hscope (s : Scope) : s.Alike F s :=
    List.forall₂_same.mpr fun b _ => ⟨rfl, .refl hF b.2⟩
  exact ⟨hscope e.innermost, List.forall₂_same.mpr fun s _ => hscope s⟩

variable {e e' : Environment} (h : e.Alike F e')
include h

namespace Alike

theorem scopes : List.Forall₂ (Scope.Alike F) e.scopes e'.scopes := .cons h.innermost h.outer

theorem lookup (name : String) :
    Option.Rel (Value.Alike F) (e.lookup name) (e'.lookup name) := by
  have hfirst {scopes scopes' : List Scope} (h : List.Forall₂ (Scope.Alike F) scopes scopes') :
      Option.Rel (Value.Alike F) (scopes.findSome? (Scope.lookup · name))
        (scopes'.findSome? (Scope.lookup · name)) := by
    induction h with
    | nil => exact .none
    | cons hs _ ih =>
        rename_i s s' _ _ _
        have hfound := hs.lookup name
        rw [List.findSome?_cons, List.findSome?_cons]
        generalize s.lookup name = x, s'.lookup name = x' at hfound
        cases hfound with
        | none => exact ih
        | some hv => exact .some hv
  exact hfirst h.scopes

theorem contains_eq (name : String) : e'.contains name = e.contains name :=
  isSome_eq_of_rel (h.lookup name)

theorem define (name : String) {v v' : Value} (hv : v.Alike F v') :
    (e.define name v).Alike F (e'.define name v') :=
  ⟨h.innermost.define name hv, h.outer⟩

theorem defineAll {bindings bindings' : List (String × Value)}
    (hbindings : List.Forall₂ (BoundAlike F) bindings bindings') :
    (e.defineAll bindings).Alike F (e'.defineAll bindings') := by
  induction hbindings generalizing e e' with
  | nil => exact h
  | cons hb _ ih =>
      rename_i b b' _ _ _
      obtain ⟨name, v⟩ := b
      obtain ⟨name', v'⟩ := b'
      obtain ⟨hname, hv⟩ := hb
      cases hname
      exact ih (h.define name hv)

theorem push : e.push.Alike F e'.push := ⟨.nil, h.scopes⟩

theorem pop : e.pop.Alike F e'.pop := by
  obtain ⟨innermost, outer⟩ := e
  obtain ⟨innermost', outer'⟩ := e'
  obtain ⟨hinnermost, houter⟩ := h
  cases houter with
  | nil => exact ⟨hinnermost, .nil⟩
  | cons hs hrest => exact ⟨hs, hrest⟩

theorem clear : e.clear.Alike F e'.clear := ⟨.nil, h.outer⟩

theorem erase (name : String) : (e.erase name).Alike F (e'.erase name) := by
  have hfirst {scopes scopes' : List Scope} (h : List.Forall₂ (Scope.Alike F) scopes scopes') :
      List.Forall₂ (Scope.Alike F) (eraseFirst name scopes) (eraseFirst name scopes') := by
    induction h with
    | nil => exact .nil
    | cons hs hrest ih =>
        unfold eraseFirst
        rw [isSome_eq_of_rel (hs.lookup name)]
        split
        · exact .cons (hs.erase name) hrest
        · exact .cons hs ih
  unfold Environment.erase
  rw [isSome_eq_of_rel (h.innermost.lookup name)]
  split
  · exact ⟨h.innermost.erase name, h.outer⟩
  · exact ⟨h.innermost, hfirst h.outer⟩

theorem capture (names : List String) :
    List.Forall₂ (Capture.Alike F) (e.capture names) (e'.capture names) := by
  unfold Environment.capture
  refine List.rel_filterMap (R := Eq) (fun name name' hname => ?_)
    (List.forall₂_same.mpr fun _ _ => rfl)
  subst hname
  have hfound := h.lookup name
  generalize e.lookup name = x, e'.lookup name = x' at hfound
  cases hfound with
  | none => exact .none
  | some hv => exact .some (.mk name hv)

end Alike

end Environment

/-- What a call binds. -/
theorem boundAlike_boundBy {code code' : Lambda} (hparams : code'.params = code.params)
    {captures captures' : List Capture}
    (hcaptures : List.Forall₂ (Capture.Alike F) captures captures') {args args' : List Value}
    (hargs : List.Forall₂ (Value.Alike F) args args') :
    List.Forall₂ (BoundAlike F) (boundBy code captures args) (boundBy code' captures' args') := by
  refine List.rel_append (List.rel_map (fun c c' hc => ?_) hcaptures) ?_
  · cases hc with
    | mk name hv => exact ⟨rfl, hv⟩
  · rw [hparams]
    generalize code.params = params
    induction hargs generalizing params with
    | nil =>
        rw [List.zip_nil_right]
        exact .nil
    | cons hv _ ih =>
        cases params with
        | nil => exact .nil
        | cons name params => exact .cons ⟨rfl, hv⟩ (ih params)

/-! ### The standard library -/

theorem Variables.table_respects : RespectingTable (Environment.Alike F) F table := by
  have hclear : Native.Respects (Environment.Alike F) F clearAll := by
    intro _ _ _ _
    refine paired_get.bind fun e e' he => ?_
    rw [← List.Forall₂.length_eq he.innermost]
    exact (paired_set he.clear).bind fun _ _ _ => paired_pure (.text _)
  have hnames : Native.Respects (Environment.Alike F) F clearNames := fun name _ _ hargs =>
    clearNames_agrees hargs (fun _ _ he => he.contains_eq) (fun _ _ he name _ => he.erase name) name
  simp only [table, respectingTable_cons]
  exact ⟨List.forall_mem_cons.mpr ⟨hclear, List.forall_mem_singleton.mpr hnames⟩,
    List.forall_mem_singleton.mpr (doesExist_respects fun _ _ he => he.contains_eq),
    List.forall_mem_nil _⟩

theorem Library.standard_respects :
    RespectingTable (Environment.Alike F) F Library.standard.functions :=
  (((Elementary.table_respects.append Matrices.table_respects).append
    Variables.table_respects).append Sets.table_respects).append Plots.table_respects

end MatrixScript
