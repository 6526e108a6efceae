import MatrixScript.Proofs.Values.Indexing
import Mathlib.Data.List.Forall2

/-!
# Values that differ in their functions

Two values are alike if they are the same but for the functions in them, and those are related in
some way of their own. Operations look into numbers, texts, ranges and sets only; of a function they
see its kind and how it is shown. So what they give is the same for values that are alike.
-/

namespace MatrixScript

variable {F : Callable → Callable → Prop}

inductive Series.Alike (F : Callable → Callable → Prop) : Series → Series → Prop where
  | points (x y : Matrix) : Alike F (.points x y) (.points x y)
  | curve {f g : Callable} (h : F f g) (start stop : Double) :
      Alike F (.curve f start stop) (.curve g start stop)

inductive Value.Alike (F : Callable → Callable → Prop) : Value → Value → Prop where
  | scalar (z : Complex) : Alike F (.scalar z) (.scalar z)
  | matrix (m : Matrix) : Alike F (.matrix m) (.matrix m)
  | text (t : String) : Alike F (.text t) (.text t)
  | range (r : Progression) : Alike F (.range r) (.range r)
  | set (s : ElementSet) : Alike F (.set s) (.set s)
  | function {f g : Callable} (h : F f g) : Alike F (.function f) (.function g)
  | plot (title : String) {xs ys : List Series} (h : List.Forall₂ (Series.Alike F) xs ys) :
      Alike F (.plot title xs) (.plot title ys)

/-- A value without functions in it. -/
def Value.IsPlain (v : Value) : Prop := v.kind ≠ .function ∧ v.kind ≠ .plot

/-- How functions are shown does not tell related ones apart. -/
def ShownAlike (F : Callable → Callable → Prop) : Prop := ∀ f g, F f g → f.text = g.text

namespace Value.Alike

variable {v v' w w' : Value}

theorem of_isPlain (h : v.IsPlain) : v.Alike F v := by
  cases v with
  | scalar z => exact .scalar z
  | matrix m => exact .matrix m
  | text t => exact .text t
  | range r => exact .range r
  | set s => exact .set s
  | function f => exact absurd rfl h.1
  | plot title series => exact absurd rfl h.2

theorem refl (hF : ∀ f, F f f) (v : Value) : v.Alike F v := by
  cases v with
  | function f => exact .function (hF f)
  | plot title series =>
      refine .plot title (List.forall₂_same.mpr fun s _ => ?_)
      cases s with
      | points x y => exact .points x y
      | curve f start stop => exact .curve (hF f) start stop
  | _ => exact .of_isPlain ⟨nofun, nofun⟩

theorem eq (h : v.Alike F v') (hF : ∀ f g, F f g → g = f) : v' = v := by
  cases h with
  | function h => rw [hF _ _ h]
  | plot title h =>
      refine congrArg (Value.plot title)
        (List.forall₂_eq_eq_eq ▸ List.Forall₂.imp (fun s s' hs => ?_) h).symm
      cases hs with
      | points x y => rfl
      | curve h start stop => rw [hF _ _ h]
  | _ => rfl

theorem eq_of_isPlain (h : v.Alike F v') (hv : v.IsPlain) : v' = v := by
  cases h with
  | function h => exact absurd rfl hv.1
  | plot title h => exact absurd rfl hv.2
  | _ => rfl

/-! ### What is seen of a value -/

theorem kind_eq (h : v.Alike F v') : v'.kind = v.kind := by cases h <;> rfl

theorem scalar?_eq (h : v.Alike F v') : v'.scalar? = v.scalar? := by cases h <;> rfl

theorem text?_eq (h : v.Alike F v') : v'.text? = v.text? := by cases h <;> rfl

theorem matrix?_eq (h : v.Alike F v') : v'.matrix? = v.matrix? := by cases h <;> rfl

theorem isTrue_eq (h : v.Alike F v') : v'.isTrue = v.isTrue := by cases h <;> rfl

theorem indexExtent?_eq (h : v.Alike F v') (position count : Nat) :
    v'.indexExtent? position count = v.indexExtent? position count := by cases h <;> rfl

theorem display_eq (hF : ShownAlike F) (h : v.Alike F v') : v'.display = v.display := by
  cases h with
  | function h => exact (hF _ _ h).symm
  | plot title h => rw [display, display, plotText, plotText, h.length_eq]
  | _ => rfl

theorem converts_eq (h : v.Alike F v') (k : Kind) : v'.converts k = v.converts k := by
  cases h <;> rfl

end Value.Alike

/-! ### Values without functions -/

namespace Value

variable {v w : Value}

theorem isPlain_scalar (z : Complex) : (scalar z).IsPlain := ⟨nofun, nofun⟩

theorem isPlain_matrix (m : Matrix) : (matrix m).IsPlain := ⟨nofun, nofun⟩

theorem isPlain_range (r : Progression) : (range r).IsPlain := ⟨nofun, nofun⟩

theorem isPlain_ofMatrix (m : Matrix) : (ofMatrix m).IsPlain := by
  unfold ofMatrix
  split <;> exact ⟨nofun, nofun⟩

theorem IsPlain.converted (h : v.IsPlain) (k : Kind) : (v.converted k).IsPlain := by
  unfold Value.converted
  split
  · rename_i m
    cases m.scalar? <;> exact ⟨nofun, nofun⟩
  · exact ⟨nofun, nofun⟩
  · rename_i r
    cases r.toMatrix? <;> exact ⟨nofun, nofun⟩
  · exact h

theorem Alike.converted {v' : Value} (h : v.Alike F v') (k : Kind) :
    (v.converted k).Alike F (v'.converted k) := by
  have hplain (hv : v.IsPlain) : (v.converted k).Alike F (v'.converted k) := by
    rw [h.eq_of_isPlain hv]
    exact .of_isPlain (hv.converted k)
  cases h with
  | function h => exact .function h
  | plot title h => exact .plot title h
  | _ => exact hplain ⟨nofun, nofun⟩

/-! ### Operators -/

theorem textBinary_isPlain (op : BinaryOp) (v w : Value) :
    Yields (textBinary op v w) IsPlain := by
  unfold textBinary
  split <;> first | exact yields_ok ⟨nofun, nofun⟩ | exact yields_error _

theorem setBinary_isPlain (op : BinaryOp) (s t : ElementSet) :
    Yields (setBinary op s t) IsPlain := by
  unfold setBinary
  split <;> first | exact yields_ok ⟨nofun, nofun⟩ | exact yields_error _

theorem matrix_isPlain (x : Result Matrix) : Yields (matrix <$> x) IsPlain :=
  Yields.map (P := fun _ => True) (fun _ _ => trivial) fun _ _ => ⟨nofun, nofun⟩

theorem scalar_isPlain (x : Result Complex) : Yields (scalar <$> x) IsPlain :=
  Yields.map (P := fun _ => True) (fun _ _ => trivial) fun _ _ => ⟨nofun, nofun⟩

theorem ofMatrix_isPlain (x : Result Matrix) : Yields (ofMatrix <$> x) IsPlain :=
  Yields.map (P := fun _ => True) (fun _ _ => trivial) fun m _ => isPlain_ofMatrix m

theorem numericBinary_isPlain (op : BinaryOp) (m n : Numeric) :
    Yields (numericBinary op m n) IsPlain := by
  cases m with
  | scalar z => cases n <;> exact yields_ok ⟨nofun, nofun⟩
  | matrix m =>
      cases n with
      | scalar w =>
          change Yields (matrixWithScalar op m w) IsPlain
          unfold matrixWithScalar
          split
          · split
            · exact matrix_isPlain _
            · exact yields_error _
          · exact yields_bind fun _ => yields_ok ⟨nofun, nofun⟩
          · exact yields_ok ⟨nofun, nofun⟩
      | matrix n =>
          change Yields (matrixWithMatrix op m n) IsPlain
          unfold matrixWithMatrix
          split
          · exact matrix_isPlain _
          · exact yields_bind fun _ => yields_bind fun _ => yields_ok ⟨nofun, nofun⟩
          · exact yields_bind fun _ => yields_bind fun _ => yields_ok ⟨nofun, nofun⟩
          · exact yields_error _
          · exact matrix_isPlain _

/-- Operators give no functions. -/
theorem binary_isPlain (op : BinaryOp) (v w : Value) : Yields (binary op v w) IsPlain := by
  unfold binary
  split
  · exact yields_ok ⟨nofun, nofun⟩
  · exact textBinary_isPlain _ _ _
  · exact textBinary_isPlain _ _ _
  · exact setBinary_isPlain _ _ _
  · split
    · exact numericBinary_isPlain _ _ _
    · exact yields_error _

theorem factorial_isPlain (n : Numeric) : Yields (factorial n) IsPlain := by
  cases n with
  | scalar z => exact scalar_isPlain _
  | matrix m => exact yields_bind fun _ => matrix_isPlain _

theorem isPlain_of_size? (h : v.size? = some w) : w.IsPlain := by
  unfold size? at h
  split at h
  · obtain rfl := Option.some.inj h
    exact ⟨nofun, nofun⟩
  · obtain rfl := Option.some.inj h
    exact ⟨nofun, nofun⟩
  · split at h
    · cases h
    · obtain rfl := Option.some.inj h
      exact ⟨nofun, nofun⟩
    · split at h
      · obtain rfl := Option.some.inj h
        exact ⟨nofun, nofun⟩
      · obtain ⟨z, -, rfl⟩ := Option.map_eq_some_iff.mp h
        exact ⟨nofun, nofun⟩

theorem isPlain_mapNumeric (f : Complex → Complex) (n : Numeric) : (mapNumeric f n).IsPlain := by
  cases n <;> exact ⟨nofun, nofun⟩

theorem unary_isPlain (op : UnaryOp) (v : Value) : Yields (unary op v) IsPlain := by
  cases op with
  | abs => exact yields_elim fun w hw => yields_ok (isPlain_of_size? hw)
  | plus =>
      cases v with
      | scalar z => exact yields_ok (isPlain_scalar z)
      | matrix m => exact yields_ok (isPlain_matrix m)
      | range r => exact yields_ok (isPlain_range r)
      | _ => exact yields_error _
  | factorial => exact yields_elim fun n _ => factorial_isPlain n
  | neg => exact yields_elim fun n _ => yields_ok (isPlain_mapNumeric _ n)
  | not => exact yields_elim fun n _ => yields_ok (isPlain_mapNumeric _ n)
  | transpose =>
      unfold unary
      dsimp only
      split
      · exact yields_error _
      · exact yields_ok (isPlain_scalar _)
      · exact yields_ok (isPlain_matrix _)

theorem makeRange_isPlain (left : Value) (right : Option Value) :
    Yields (makeRange left right) IsPlain := by
  have hmake (start step : Double) (stop : Bound) :
      Yields (range <$> Progression.make start step stop) IsPlain :=
    Yields.map (P := fun _ => True) (fun _ _ => trivial) fun _ _ => ⟨nofun, nofun⟩
  refine yields_bind fun start => ?_
  dsimp only
  split
  · exact yields_bind fun _ => hmake _ _ _
  · exact yields_bind fun _ => hmake _ _ _
  · exact yields_bind fun _ => yields_bind fun _ => hmake _ _ _

end Value

namespace Value.Alike

variable {v v' w w' : Value}

theorem binary_eq (hF : ShownAlike F) (op : BinaryOp) (h : v.Alike F v') (hw : w.Alike F w') :
    binary op v' w' = binary op v w := by
  have htext : textBinary op v' w' = textBinary op v w := by
    unfold textBinary
    rw [h.text?_eq, hw.text?_eq, h.display_eq hF, hw.display_eq hF, h.kind_eq, hw.kind_eq]
  cases h <;> cases hw <;> first | rfl | exact htext

theorem unary_eq (op : UnaryOp) (h : v.Alike F v') : unary op v' = unary op v := by
  cases h <;> rfl

theorem makeRange_eq (h : v.Alike F v') {x x' : Option Value}
    (hx : Option.Rel (Value.Alike F) x x') : makeRange v' x' = makeRange v x := by
  cases hx with
  | none => cases h <;> rfl
  | some hx => cases h <;> cases hx <;> rfl

end Value.Alike

/-! ### Indices -/

inductive IndexArg.Alike (F : Callable → Callable → Prop) : IndexArg → IndexArg → Prop where
  | all : Alike F .all .all
  | value {v w : Value} (h : v.Alike F w) : Alike F (.value v) (.value w)

theorem IndexArg.Alike.listsAlike {arg arg' : IndexArg} (h : arg.Alike F arg') :
    arg'.ListsAlike arg := by
  intro extent
  cases h with
  | all => rfl
  | value h => cases h <;> rfl

namespace Value

variable {v v' target target' : Value} {args args' : List IndexArg}

theorem forall₂_listsAlike (h : List.Forall₂ (IndexArg.Alike F) args args') :
    List.Forall₂ IndexArg.ListsAlike args' args :=
  (h.imp fun _ _ harg => harg.listsAlike).flip

theorem Alike.indexTarget_eq (h : v.Alike F v') : v'.indexTarget = v.indexTarget := by
  unfold indexTarget
  rw [h.matrix?_eq, h.kind_eq]

theorem Alike.index_eq (h : target.Alike F target')
    (hargs : List.Forall₂ (IndexArg.Alike F) args args') :
    target'.index args' = target.index args := by
  rw [index_congr (forall₂_listsAlike hargs)]
  have htarget := h.indexTarget_eq
  cases h with
  | text t => rfl
  | _ =>
      change (_ >>= _) = (_ >>= _)
      rw [htarget]

theorem Alike.assigned_eq (h : v.Alike F v') (count : Nat) :
    v'.assigned count = v.assigned count := by
  unfold assigned
  rw [h.matrix?_eq, h.kind_eq]

theorem Alike.assignIndex_eq (h : target.Alike F target')
    (hargs : List.Forall₂ (IndexArg.Alike F) args args') (hv : v.Alike F v') :
    target'.assignIndex args' v' = target.assignIndex args v := by
  unfold assignIndex
  rw [h.indexTarget_eq]
  exact bind_congr fun m => assignMatrix_congr (forall₂_listsAlike hargs) hv.assigned_eq m

theorem pickChars_isPlain (t : String) (arg : IndexArg) : Yields (pickChars t arg) IsPlain :=
  yields_bind fun _ => yields_ok ⟨nofun, nofun⟩

theorem index_isPlain (target : Value) (args : List IndexArg) :
    Yields (target.index args) IsPlain := by
  unfold index
  split
  · unfold indexText
    split
    · exact pickChars_isPlain _ _
    · exact yields_bind fun _ => pickChars_isPlain _ _
    · exact yields_error _
  · refine yields_bind fun m => ?_
    unfold indexMatrix
    split
    · exact yields_bind fun _ => yields_ok (isPlain_ofMatrix _)
    · exact yields_bind fun _ => yields_bind fun _ => yields_bind fun _ => yields_bind fun _ =>
        yields_bind fun _ => yields_ok (isPlain_ofMatrix _)
    · exact yields_error _

theorem assignIndex_isPlain (target : Value) (args : List IndexArg) (v : Value) :
    Yields (target.assignIndex args v) IsPlain := by
  refine yields_bind fun m => ?_
  unfold assignMatrix
  split
  · exact yields_bind fun _ => yields_bind fun _ => yields_bind fun _ =>
      yields_ok (isPlain_ofMatrix _)
  · exact yields_bind fun _ => yields_bind fun _ => yields_bind fun _ => yields_bind fun _ =>
      yields_ok (isPlain_ofMatrix _)
  · exact yields_error _

end Value

end MatrixScript
