import MatrixScript.Call.Signature
import MatrixScript.Proofs.Values.Progressions
import MatrixScript.Proofs.Values.Sets
import MatrixScript.Value.Operators
import MatrixScript.Value.Basic

/-!
# Operations on values

Reading a value as something else and combining it with another one gives well-formed values from
well-formed ones.
-/

namespace MatrixScript

theorem yields_elim {α β : Type} {x : Option α} {fault : Fault} {f : α → Result β} {Q : β → Prop}
    (h : ∀ a ∈ x, Yields (f a) Q) : Yields (x.elim (.error fault) f) Q := by
  cases x with
  | none => exact yields_error fault
  | some a => exact h a rfl

namespace Value

variable {v w : Value} {m n : Matrix}

/-! ### Reading a value as something else -/

theorem wellFormed_ofMatrix (h : m.WellFormed) : (ofMatrix m).WellFormed := by
  unfold ofMatrix
  split
  · trivial
  · exact h

theorem WellFormed.matrix? (h : v.WellFormed) (hm : v.matrix? = some m) : m.WellFormed := by
  cases v with
  | scalar z =>
      obtain rfl := Option.some.inj hm
      exact Matrix.wellFormed_scalar z
  | matrix m =>
      obtain rfl := Option.some.inj hm
      exact h
  | range r => exact Progression.WellFormed.toMatrix h hm
  | text s | set s | function f | plot title series => cases hm

theorem WellFormed.converted (h : v.WellFormed) (k : Kind) : (v.converted k).WellFormed := by
  unfold Value.converted
  split
  · rename_i m
    cases m.scalar? with
    | none => exact h
    | some z => trivial
  · exact Matrix.wellFormed_scalar _
  · rename_i r
    cases hm : r.toMatrix? with
    | none => exact h
    | some m => exact Progression.WellFormed.toMatrix h hm
  · exact h

theorem WellFormed.coerce (h : v.WellFormed) (k : ParamKind) : (k.coerce v).WellFormed := by
  cases k with
  | any => exact h
  | only k => exact h.converted k

end Value

/-! ### Operators -/

def Numeric.WellFormed : Numeric → Prop
  | .scalar _ => True
  | .matrix m => m.WellFormed

namespace Value

variable {v w : Value} {m n : Matrix}

theorem WellFormed.numeric? (h : v.WellFormed) {x : Numeric} (hx : x ∈ v.numeric?) :
    x.WellFormed := by
  obtain ⟨m, hm, rfl⟩ := Option.map_eq_some_iff.mp hx
  unfold Numeric.ofMatrix
  split
  · trivial
  · exact h.matrix? hm

theorem matrixWithScalar_yields (h : m.WellFormed) (op : BinaryOp) (z : Complex) :
    Yields (matrixWithScalar op m z) WellFormed := by
  unfold matrixWithScalar
  split
  · split
    · exact (Matrix.pow_yields m _).map fun _ hm => hm
    · exact yields_error _
  · exact (Matrix.inverse_yields m).bind fun _ hm => yields_ok (hm.map _)
  · exact yields_ok (h.map _)

theorem matrixWithMatrix_yields (hm : m.WellFormed) (hn : n.WellFormed) (op : BinaryOp) :
    Yields (matrixWithMatrix op m n) WellFormed := by
  unfold matrixWithMatrix
  split
  · exact (Matrix.mul_yields m n).map fun _ h => h
  · exact yields_bind fun _ => (Matrix.mul_yields m _).bind fun _ h => yields_ok h
  · exact yields_bind fun _ => (Matrix.mul_yields _ n).bind fun _ h => yields_ok h
  · exact yields_error _
  · exact (Matrix.zipWith_yields hm hn _ _).map fun _ h => h

theorem numericBinary_yields {x y : Numeric} (hx : x.WellFormed) (hy : y.WellFormed)
    (op : BinaryOp) : Yields (numericBinary op x y) WellFormed := by
  cases x with
  | scalar z =>
      cases y with
      | scalar w => exact yields_ok trivial
      | matrix n => exact yields_ok (Matrix.WellFormed.map hy _)
  | matrix m =>
      cases y with
      | scalar w => exact matrixWithScalar_yields hx op w
      | matrix n => exact matrixWithMatrix_yields hx hy op

theorem textBinary_yields (op : BinaryOp) (v w : Value) :
    Yields (textBinary op v w) WellFormed := by
  unfold textBinary
  split
  · exact yields_ok trivial
  · exact yields_ok trivial
  · exact yields_ok trivial
  · exact yields_ok trivial
  · exact yields_ok trivial
  · exact yields_ok trivial
  · exact yields_ok trivial
  · exact yields_error _

theorem setBinary_yields (op : BinaryOp) (s t : ElementSet) :
    Yields (setBinary op s t) WellFormed := by
  unfold setBinary
  split
  · exact yields_ok (ElementSet.wellFormed_union s t)
  · exact yields_ok (ElementSet.wellFormed_intersect s t)
  · exact yields_ok trivial
  · exact yields_ok trivial
  · exact yields_error _

theorem binary_yields (hv : v.WellFormed) (hw : w.WellFormed) (op : BinaryOp) :
    Yields (binary op v w) WellFormed := by
  unfold binary
  split
  · exact yields_ok trivial
  · exact textBinary_yields op _ _
  · exact textBinary_yields op _ _
  · exact setBinary_yields op _ _
  · split
    · rename_i hx hy
      exact numericBinary_yields (hv.numeric? hx) (hw.numeric? hy) op
    · exact yields_error _

theorem wellFormed_mapNumeric {x : Numeric} (hx : x.WellFormed) (f : Complex → Complex) :
    (mapNumeric f x).WellFormed := by
  cases x with
  | scalar z => trivial
  | matrix m => exact Matrix.WellFormed.map hx f

theorem factorial_yields (x : Numeric) : Yields (factorial x) WellFormed := by
  cases x with
  | scalar z => exact Yields.map (P := fun _ => True) (fun _ _ => trivial) fun _ _ => trivial
  | matrix m =>
      exact yields_bind fun data => (Matrix.ofData_yields m.rows m.cols _).map fun _ h => h

/-- What `|x|` gives is a number. -/
theorem wellFormed_of_size? (hw : v.size? = some w) : w.WellFormed := by
  unfold size? at hw
  split at hw
  · obtain rfl := Option.some.inj hw
    trivial
  · obtain rfl := Option.some.inj hw
    trivial
  · split at hw
    · cases hw
    · obtain rfl := Option.some.inj hw
      trivial
    · split at hw
      · obtain rfl := Option.some.inj hw
        trivial
      · obtain ⟨z, -, rfl⟩ := Option.map_eq_some_iff.mp hw
        trivial

theorem unary_yields (h : v.WellFormed) (op : UnaryOp) : Yields (unary op v) WellFormed := by
  cases op with
  | abs => exact yields_elim fun w hw => yields_ok (wellFormed_of_size? hw)
  | plus =>
      simp only [unary]
      split
      · exact yields_ok h
      · exact yields_ok h
      · exact yields_ok h
      · exact yields_error _
  | factorial => exact yields_elim fun x _ => factorial_yields x
  | neg => exact yields_elim fun x hx => yields_ok (wellFormed_mapNumeric (h.numeric? hx) _)
  | not => exact yields_elim fun x hx => yields_ok (wellFormed_mapNumeric (h.numeric? hx) _)
  | transpose =>
      simp only [unary]
      split
      · exact yields_error _
      · exact yields_ok trivial
      · rename_i m hm
        have hwf : m.WellFormed := h.numeric? hm
        exact yields_ok hwf.adjoint

/-- However its numbers are found, a range is made by a constructor that checks them. -/
theorem makeRange_yields (v : Value) (w : Option Value) : Yields (makeRange v w) WellFormed := by
  have hmake (start step : Double) (stop : Bound) :
      Yields (range <$> Progression.make start step stop) WellFormed :=
    (Progression.make_yields start step stop).map fun _ h => h
  refine yields_bind fun start => ?_
  dsimp only
  split
  · exact yields_bind fun _ => hmake _ _ _
  · exact yields_bind fun _ => hmake _ _ _
  · exact yields_bind fun _ => yields_bind fun _ => hmake _ _ _

end Value

end MatrixScript
