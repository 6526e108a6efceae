import MatrixScript.Proofs.Values.Indexing

/-!
# Numbers, matrices and ranges for one another

A number can be given as the matrix of this one element, and a bounded range as the column of its
elements. Operators and indices see no difference: whatever they do with a numeric value depends on
the matrix that it stands for. Only the unary plus hands its operand on as it is.
-/

namespace MatrixScript

namespace Value

/-- Values of which one may replace the other. -/
inductive Interchangeable : Value → Value → Prop where
  | refl (v : Value) : Interchangeable v v
  | scalar (z : Complex) : Interchangeable (.scalar z) (.matrix ⟨1, 1, #[z]⟩)
  | range {r : Progression} {values : Array Double} (hvalues : r.values? = some values) :
      Interchangeable (.range r) (.matrix (Matrix.columnVector (values.map Complex.ofReal)))
  | symm {v w : Value} (h : Interchangeable v w) : Interchangeable w v
  | trans {u v w : Value} (h : Interchangeable u v) (h' : Interchangeable v w) : Interchangeable u w

/-- A number, a matrix or a bounded range. -/
inductive IsNumeric : Value → Prop where
  | scalar (z : Complex) : IsNumeric (.scalar z)
  | matrix (m : Matrix) : IsNumeric (.matrix m)
  | range {r : Progression} {stop : Double} (hstop : r.stop = .at stop) : IsNumeric (.range r)

end Value

/-- Index arguments with interchangeable values. -/
inductive IndexArg.Interchangeable : IndexArg → IndexArg → Prop where
  | all : Interchangeable .all .all
  | value {v w : Value} (h : v.Interchangeable w) : Interchangeable (.value v) (.value w)

variable {v v' w w' : Value} {m n : Matrix}

theorem Matrix.det_of_isSquare (h : m.isSquare = true) : m.det = .ok (detFrom m.rows m .one) := by
  rw [det, requireSquare, if_pos h]
  rfl

namespace Value

theorem IsNumeric.exists_matrix? (h : v.IsNumeric) : ∃ m, v.matrix? = some m := by
  cases h with
  | scalar z => exact ⟨_, rfl⟩
  | matrix m => exact ⟨m, rfl⟩
  | range hstop =>
      obtain ⟨values, hvalues⟩ := Progression.exists_values? hstop
      exact ⟨_, congrArg (Option.map _) hvalues⟩

/-- Interchangeable values stand for the same matrix. -/
theorem Interchangeable.eq_or_matrix? (h : v.Interchangeable w) :
    v = w ∨ ∃ m, v.matrix? = some m ∧ w.matrix? = some m := by
  induction h with
  | refl => exact .inl rfl
  | scalar => exact .inr ⟨_, rfl, rfl⟩
  | range hvalues => exact .inr ⟨_, congrArg (Option.map _) hvalues, rfl⟩
  | symm _ ih =>
      rcases ih with rfl | ⟨m, hv, hw⟩
      · exact .inl rfl
      · exact .inr ⟨m, hw, hv⟩
  | trans _ _ ih ih' =>
      rcases ih with rfl | ⟨m, hu, hv⟩
      · exact ih'
      rcases ih' with rfl | ⟨m', hv', hw⟩
      · exact .inr ⟨m, hu, hv⟩
      · obtain rfl : m = m' := Option.some.inj (hv.symm.trans hv')
        exact .inr ⟨m, hu, hw⟩

theorem Interchangeable.matrix?_eq (h : v.Interchangeable w) : v.matrix? = w.matrix? := by
  rcases h.eq_or_matrix? with rfl | ⟨m, hv, hw⟩
  · rfl
  · rw [hv, hw]

/-! ### Operators -/

theorem numeric?_of_matrix? (h : v.matrix? = some m) : v.numeric? = some (.ofMatrix m) := by
  rw [numeric?, h]
  rfl

theorem binary_of_matrix? (hv : v.matrix? = some m) (hw : w.matrix? = some n) (op : BinaryOp) :
    binary op v w = numericBinary op (.ofMatrix m) (.ofMatrix n) := by
  have hm := numeric?_of_matrix? hv
  have hn := numeric?_of_matrix? hw
  cases v with
  | scalar z =>
      cases w with
      | scalar => cases hv; cases hw; rfl
      | matrix | range => simp only [binary, hm, hn]
      | _ => cases hw
  | matrix | range =>
      cases w with
      | scalar | matrix | range => simp only [binary, hm, hn]
      | _ => cases hw
  | _ => cases hv

theorem size?_congr (hv : v.matrix? = some m) (hw : w.matrix? = some m) : v.size? = w.size? := by
  have hm := numeric?_of_matrix? hv
  have hn := numeric?_of_matrix? hw
  cases v with
  | scalar | matrix | range =>
      cases w with
      | scalar | matrix | range => simp only [size?, hm, hn]
      | _ => cases hw
  | _ => cases hv

/-- A determinant is only asked for where the matrix is square, so there is always a size. -/
theorem exists_size? (h : v.matrix? = some m) : ∃ size, v.size? = some size := by
  have hnumeric := numeric?_of_matrix? h
  cases v with
  | scalar | matrix | range =>
      simp only [size?, hnumeric]
      cases Numeric.ofMatrix m with
      | scalar z => exact ⟨_, rfl⟩
      | matrix n =>
          dsimp only
          by_cases hshape : (n.isVector || !n.isSquare) = true
          · exact ⟨_, if_pos hshape⟩
          · have hsquare := hshape
            rw [Bool.not_eq_true, Bool.or_eq_false_iff, Bool.not_eq_false'] at hsquare
            rw [if_neg hshape, Matrix.det_of_isSquare hsquare.2]
            exact ⟨_, rfl⟩
  | _ => cases h

theorem unary_congr (hv : v.matrix? = some m) (hw : w.matrix? = some m) {op : UnaryOp}
    (hop : op ≠ .plus) : unary op v = unary op w := by
  have hm := numeric?_of_matrix? hv
  have hn := numeric?_of_matrix? hw
  cases op with
  | plus => exact absurd rfl hop
  | abs =>
      obtain ⟨size, hsize⟩ := exists_size? hv
      simp only [unary, hsize, (size?_congr hv hw).symm.trans hsize, Option.elim_some]
  | factorial | neg | not => simp only [unary, hm, hn, Option.elim_some]
  | transpose =>
      simp only [unary, hm, hn]
      cases Numeric.ofMatrix m <;> rfl

end Value

/-! ### Indices -/

namespace IndexArg

theorem numbers_of_matrix? (h : v.matrix? = some m) (extent : Nat) :
    numbers extent v = .ok m.data := by
  cases v with
  | scalar | matrix =>
      cases h
      rfl
  | range r =>
      obtain ⟨values, hvalues, rfl⟩ := Option.map_eq_some_iff.mp h
      rw [numbers, Progression.resolve_of_values? hvalues]
      change Except.ok ((r.values?.getD #[]).map Complex.ofReal) = _
      rw [hvalues]
      rfl
  | _ => cases h

theorem Interchangeable.listsAlike {arg arg' : IndexArg} (h : arg.Interchangeable arg') :
    arg.ListsAlike arg' := by
  intro extent
  cases h with
  | all => rfl
  | value h =>
      rcases h.eq_or_matrix? with rfl | ⟨m, hv, hw⟩
      · rfl
      · simp only [positions, numbers_of_matrix? hv, numbers_of_matrix? hw]

end IndexArg

namespace Value

variable {args args' : List IndexArg}

theorem Interchangeable.index_eq (hv : v.Interchangeable v') (args : List IndexArg) :
    v.index args = v'.index args := by
  rcases hv.eq_or_matrix? with rfl | ⟨m, hm, hm'⟩
  · rfl
  · rw [index_of_matrix? hm, index_of_matrix? hm']

theorem Interchangeable.indexTarget_eq (hv : v.Interchangeable v') :
    v.indexTarget = v'.indexTarget := by
  rcases hv.eq_or_matrix? with rfl | ⟨m, hm, hm'⟩
  · rfl
  · simp only [indexTarget, hm, hm']

theorem Interchangeable.assigned_eq (hw : w.Interchangeable w') (count : Nat) :
    w.assigned count = w'.assigned count := by
  rcases hw.eq_or_matrix? with rfl | ⟨m, hm, hm'⟩
  · rfl
  · simp only [assigned, hm, hm']

/-- Replacing values by interchangeable ones, as operands, as what is indexed, as indices or as what
is assigned, changes neither a result nor an error. -/
theorem outcome_of_interchangeable (hv : v.Interchangeable v') (hw : w.Interchangeable w')
    (hargs : List.Forall₂ IndexArg.Interchangeable args args') :
    (v.IsNumeric → w.IsNumeric → ∀ op, binary op v w = binary op v' w')
    ∧ (∀ op, op ≠ .plus → unary op v = unary op v')
    ∧ v.index args = v'.index args'
    ∧ v.assignIndex args w = v'.assignIndex args' w' := by
  have hlisted : List.Forall₂ IndexArg.ListsAlike args args' :=
    hargs.imp fun _ _ harg => harg.listsAlike
  refine ⟨fun hnumeric hnumeric' op => ?_, fun op hop => ?_, ?_, ?_⟩
  · obtain ⟨m, hm⟩ := hnumeric.exists_matrix?
    obtain ⟨n, hn⟩ := hnumeric'.exists_matrix?
    rw [binary_of_matrix? hm hn,
      binary_of_matrix? (hv.matrix?_eq.symm.trans hm) (hw.matrix?_eq.symm.trans hn)]
  · rcases hv.eq_or_matrix? with rfl | ⟨m, hm, hm'⟩
    · rfl
    · exact unary_congr hm hm' hop
  · rw [hv.index_eq, index_congr hlisted]
  · rw [assignIndex, assignIndex, hv.indexTarget_eq]
    exact bind_congr fun m => assignMatrix_congr hlisted hw.assigned_eq m

/-- The number two as a matrix, and `1:2` as a column. -/
theorem outcome_of_interchangeable_two :
    let two : Value := .ofNat 2
    let boxed : Value := .matrix ⟨1, 1, #[.ofReal (.ofNat 2)]⟩
    let counting : Value := .range ⟨.ofNat 1, .one, .at (.ofNat 2)⟩
    let column : Value := .matrix (.columnVector (#[.ofNat 1, .ofNat 2].map Complex.ofReal))
    (∀ op, binary op counting two = binary op column boxed)
    ∧ unary .abs counting = unary .abs column
    ∧ counting.index [.value two] = column.index [.value boxed]
    ∧ counting.assignIndex [.value two] two = column.assignIndex [.value boxed] boxed := by
  intro two boxed counting column
  have hcounting : counting.Interchangeable column := .range (by decide +kernel)
  have htwo : two.Interchangeable boxed := .scalar _
  obtain ⟨hbinary, hunary, hindex, hassign⟩ :=
    outcome_of_interchangeable hcounting htwo (.cons (.value htwo) .nil)
  exact ⟨hbinary (.range rfl) (.scalar _), hunary .abs nofun, hindex, hassign⟩

end Value

end MatrixScript
