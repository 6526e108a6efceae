import MatrixScript.Library.Matrices
import MatrixScript.Proofs.Construction
import MatrixScript.Proofs.Values.Keeping

/-!
# Operations on matrices

Whatever an operation on matrices gives fills its shape and is within the limit. Shapes that are
new are checked when they are made. A shape that is not checked is that of an operand, the same
with rows and columns exchanged, or a row or a column of no more elements than an operand has.
-/

namespace MatrixScript

/-- What each step of a counted loop keeps, the loop keeps. -/
theorem fold_keeps {α : Type} {P : α → Prop} {n : Nat} {f : (k : Nat) → k < n → α → α} {x : α}
    (hx : P x) (hf : ∀ k h x, P x → P (f k h x)) : P (n.fold f x) := by
  induction n with
  | zero => exact hx
  | succ n ih =>
      rw [Nat.fold_succ]
      exact hf n _ _ (ih fun k h => hf k _)

/-- The same where what holds depends on how many steps have been made. -/
theorem fold_counts {α : Type} {P : Nat → α → Prop} {n : Nat} {f : (k : Nat) → k < n → α → α} {x : α}
    (hx : P 0 x) (hf : ∀ k h x, P k x → P (k + 1) (f k h x)) : P n (n.fold f x) := by
  induction n with
  | zero => exact hx
  | succ n ih =>
      rw [Nat.fold_succ]
      exact hf n _ _ (ih fun k h => hf k _)

/-- What one step of a counted loop brings about and the others keep, holds behind the loop. -/
theorem fold_reaches {α : Type} {P Q : α → Prop} {n i : Nat} {f : (k : Nat) → k < n → α → α} {x : α}
    (hi : i < n) (hx : P x) (hf : ∀ k h x, P x → P (f k h x)) (hstep : ∀ x, P x → Q (f i hi x))
    (hkeep : ∀ k h x, Q x → Q (f k h x)) : Q (n.fold f x) := by
  induction n with
  | zero => exact absurd hi (Nat.not_lt_zero i)
  | succ n ih =>
      rw [Nat.fold_succ]
      by_cases hlast : i = n
      · subst hlast
        exact hstep _ (fold_keeps hx fun k h => hf k _)
      · exact hkeep n _ _ (ih (by omega) (fun k h => hf k _) hstep fun k h => hkeep k _)

theorem foldBetween_keeps {α : Type} {P : α → Prop} {start stop : Nat} {f : Nat → α → α} {x : α}
    (hx : P x) (hf : ∀ k x, P x → P (f k x)) : P (foldBetween start stop f x) :=
  fold_keeps hx fun _ _ => hf _

theorem elementCount_yields (rows cols : Nat) :
    Yields (elementCount rows cols) fun n => n = rows * cols ∧ rows * cols ≤ elementLimit :=
  fun _ => elementCount_eq_ok_iff.mp

namespace Matrix

variable {m n : Matrix} {rows cols : Nat}

/-! ### Making matrices -/

theorem wellFormed_generate (h : rows * cols ≤ elementLimit) (f : Nat → Nat → Complex) :
    (generate rows cols f).WellFormed :=
  ⟨Array.size_ofFn, h⟩

theorem ofCells_yields (rows cols : Nat) (f : Nat → Nat → Complex) :
    Yields (ofCells rows cols f) WellFormed :=
  (elementCount_yields rows cols).bind fun _ hcount => yields_ok (wellFormed_generate hcount.2 f)

theorem filled_yields (rows cols : Nat) (z : Complex) : Yields (filled rows cols z) WellFormed :=
  (elementCount_yields rows cols).bind fun _ hcount =>
    yields_ok ⟨Array.size_replicate.trans hcount.1, hcount.2⟩

theorem identity_yields (rows cols : Nat) : Yields (identity rows cols) WellFormed :=
  ofCells_yields rows cols _

theorem ofData_yields (rows cols : Nat) (data : Array Complex) :
    Yields (ofData rows cols data) WellFormed :=
  fun _ hm => (ofData_eq_ok_iff.mp hm).2

theorem wellFormed_empty : empty.WellFormed := ⟨rfl, by decide⟩

theorem wellFormed_scalar (z : Complex) : (scalar z).WellFormed :=
  ⟨rfl, show 1 * 1 ≤ elementLimit by decide⟩

theorem wellFormed_rowVector {data : Array Complex} (h : data.size ≤ elementLimit) :
    (rowVector data).WellFormed := by
  cases hdata : data.isEmpty with
  | true =>
      obtain rfl := Array.isEmpty_iff.mp hdata
      exact ⟨rfl, by decide⟩
  | false =>
      have hrows : (rowVector data).rows = 1 := if_neg (Bool.eq_false_iff.mp hdata)
      have hcols : (rowVector data).cols = data.size := rfl
      exact ⟨by rw [hrows, hcols, Nat.one_mul]; rfl, by rwa [hrows, hcols, Nat.one_mul]⟩

theorem wellFormed_columnVector {data : Array Complex} (h : data.size ≤ elementLimit) :
    (columnVector data).WellFormed := by
  cases hdata : data.isEmpty with
  | true =>
      obtain rfl := Array.isEmpty_iff.mp hdata
      exact ⟨rfl, by decide⟩
  | false =>
      have hcols : (columnVector data).cols = 1 := if_neg (Bool.eq_false_iff.mp hdata)
      have hrows : (columnVector data).rows = data.size := rfl
      exact ⟨by rw [hrows, hcols, Nat.mul_one]; rfl, by rwa [hrows, hcols, Nat.mul_one]⟩

/-! ### Shapes of operands -/

namespace WellFormed

theorem count_le (h : m.WellFormed) : m.count ≤ elementLimit :=
  Nat.le_trans (Nat.le_of_eq h.size_eq) h.size_le

theorem map (h : m.WellFormed) (f : Complex → Complex) : (m.map f).WellFormed :=
  ⟨Array.size_map.trans h.size_eq, h.size_le⟩

theorem transpose (h : m.WellFormed) : m.transpose.WellFormed :=
  wellFormed_generate (Nat.mul_comm m.rows m.cols ▸ h.size_le) _

theorem adjoint (h : m.WellFormed) : m.adjoint.WellFormed :=
  wellFormed_generate (Nat.mul_comm m.rows m.cols ▸ h.size_le) _

theorem setCell (h : m.WellFormed) (r c : Nat) (z : Complex) : (m.setCell r c z).WellFormed :=
  ⟨Array.size_setIfInBounds.trans h.size_eq, h.size_le⟩

theorem dims_pos (h : m.WellFormed) (hsome : m.isEmpty = false) : 0 < m.rows ∧ 0 < m.cols := by
  have hpos : 0 < m.rows * m.cols := by
    rw [← h.size_eq]
    exact Array.size_pos_iff.mpr (Array.isEmpty_eq_false_iff.mp hsome)
  exact ⟨Nat.pos_of_mul_pos_right hpos, Nat.pos_of_mul_pos_left hpos⟩

/-- A matrix that has elements has no more columns than elements. -/
theorem cols_le (h : m.WellFormed) (hsome : m.isEmpty = false) : m.cols ≤ elementLimit :=
  Nat.le_trans (Nat.le_mul_of_pos_left m.cols (h.dims_pos hsome).1) h.size_le

/-- A column is no longer than there are elements. -/
theorem column_size_le (h : m.WellFormed) (c : Nat) : (m.column c).size ≤ elementLimit := by
  unfold column
  split
  · rename_i hc
    have hcols : 0 < m.cols := Nat.zero_lt_of_lt hc
    rw [Array.size_ofFn]
    exact Nat.le_trans (Nat.le_mul_of_pos_right m.rows hcols) h.size_le
  · exact Nat.zero_le _

end WellFormed

theorem zipWith_yields (hm : m.WellFormed) (hn : n.WellFormed) (op : String)
    (f : Complex → Complex → Complex) : Yields (m.zipWith n op f) WellFormed := by
  unfold zipWith
  split
  · rename_i hshape
    obtain ⟨hrows, hcols⟩ := Prod.mk.inj hshape
    have hsize : m.data.size = n.data.size := by rw [hm.size_eq, hn.size_eq, hrows, hcols]
    refine yields_ok ⟨?_, hm.size_le⟩
    rw [Array.size_zipWith, ← hsize, Nat.min_self, hm.size_eq]
  · exact yields_error _

theorem mul_yields (m n : Matrix) : Yields (m.mul n) WellFormed := by
  unfold mul
  split
  · exact ofCells_yields _ _ _
  · exact yields_error _

theorem beside_yields (hm : m.WellFormed) (hn : n.WellFormed) : Yields (m.beside n) WellFormed := by
  unfold beside
  split
  · exact yields_ok hn
  · split
    · exact yields_ok hm
    · split
      · exact ofCells_yields _ _ _
      · exact yields_error _

theorem above_yields (hm : m.WellFormed) (hn : n.WellFormed) : Yields (m.above n) WellFormed := by
  unfold above
  split
  · exact yields_ok hn
  · split
    · exact yields_ok hm
    · split
      · rename_i hcols
        refine (elementCount_yields _ _).bind fun _ hcount => yields_ok ⟨?_, hcount.2⟩
        rw [Array.size_append, hm.size_eq, hn.size_eq, ← hcols, Nat.add_mul]
      · exact yields_error _

theorem resized_yields (m : Matrix) (rows cols : Nat) : Yields (m.resized rows cols) WellFormed :=
  ofCells_yields rows cols _

/-! ### Elimination -/

theorem WellFormed.swapRows (h : m.WellFormed) (a b : Nat) : (m.swapRows a b).WellFormed := by
  unfold Matrix.swapRows
  split
  · exact h
  · exact fold_keeps h fun c _ m hm => (hm.setCell a c _).setCell b c _

theorem WellFormed.subtractRow (h : m.WellFormed) (r source : Nat) (factor : Complex)
    (start : Nat) : (m.subtractRow r source factor start).WellFormed :=
  foldBetween_keeps h fun c _ hm => hm.setCell r c _

theorem WellFormed.divideRow (h : m.WellFormed) (r : Nat) (p : Complex) :
    (m.divideRow r p).WellFormed :=
  fold_keeps h fun c _ _ hm => hm.setCell r c _

theorem wellFormed_clearColumn (h : n.WellFormed) (col : Nat) (m : Matrix) :
    (clearColumn col m n).2.WellFormed := by
  unfold clearColumn
  refine fold_keeps (P := fun p : Matrix × Matrix => p.2.WellFormed) h fun r _ p hp => ?_
  dsimp only
  split
  · exact hp
  · exact hp.subtractRow r col _ 0

theorem inverseFrom_yields (left : Nat) (m : Matrix) (h : n.WellFormed) :
    Yields (inverseFrom left m n) WellFormed := by
  induction left generalizing m n with
  | zero => exact yields_ok h
  | succ left ih =>
      simp only [inverseFrom]
      split
      · exact yields_error _
      · exact ih _ (wellFormed_clearColumn ((h.swapRows _ _).divideRow _ _) _ _)

theorem inverse_yields (m : Matrix) : Yields m.inverse WellFormed := by
  refine yields_bind fun _ => ?_
  exact (identity_yields m.rows m.rows).bind fun one hone => inverseFrom_yields m.rows m hone

theorem powFrom_yields (fuel k : Nat) (hm : m.WellFormed) (n : Matrix) :
    Yields (powFrom fuel k m n) WellFormed := by
  induction fuel generalizing k m n with
  | zero => exact yields_ok hm
  | succ fuel ih =>
      unfold powFrom
      split
      · exact yields_ok hm
      · have hrest (product : Matrix) (hproduct : product.WellFormed) :
            Yields (do powFrom fuel (k / 2) product (← n.mul n)) WellFormed :=
          yields_bind fun square => ih _ hproduct square
        dsimp only
        split
        · exact (mul_yields m n).bind hrest
        · exact hrest m hm

theorem pow_yields (m : Matrix) (k : Int) : Yields (m.pow k) WellFormed := by
  have hrest (base : Matrix) : Yields (do
      let one ← identity m.rows m.cols
      powFrom (k.natAbs.log2 + 1) k.natAbs one base) WellFormed :=
    (identity_yields m.rows m.cols).bind fun one hone => powFrom_yields _ _ hone base
  refine yields_bind fun _ => ?_
  dsimp only
  split
  · exact yields_bind hrest
  · exact hrest m

end Matrix

/-! ### Eigenvalues -/

theorem Square.eigenvalues?_length {tolerance : Double} {n : Nat} {a : Square n}
    {values : List Complex} (h : a.eigenvalues? tolerance = some values) : values.length = n := by
  induction n using Nat.strongRecOn generalizing values with
  | ind n ih =>
      match n, a with
      | 0, a =>
          obtain rfl := Option.some.inj h
          rfl
      | 1, a =>
          obtain rfl := Option.some.inj h
          rfl
      | n + 2, a =>
          rw [eigenvalues?] at h
          obtain ⟨b, -, h⟩ := Option.bind_eq_some_iff.mp h
          obtain ⟨rest, hrest, h⟩ := Option.bind_eq_some_iff.mp h
          obtain rfl := Option.some.inj h
          exact congrArg (· + 1) (ih (n + 1) (Nat.lt_succ_self _) hrest)

namespace Matrix

variable {m : Matrix}

theorem requireSquare_yields (m : Matrix) (op : String) :
    Yields (m.requireSquare op) fun _ => m.rows = m.cols := by
  unfold requireSquare
  split
  · rename_i h
    exact yields_ok (of_decide_eq_true h)
  · exact yields_error _

/-- A matrix has as many eigenvalues as rows. -/
theorem eigenvalues_yields (m : Matrix) :
    Yields m.eigenvalues fun values => values.length = m.rows ∧ m.rows = m.cols := by
  refine (requireSquare_yields m "eig").bind fun _ hsquare => ?_
  dsimp only
  split
  · exact yields_error _
  · rename_i values hvalues
    refine yields_ok ⟨?_, hsquare⟩
    rw [List.length_mergeSort, List.length_map, Square.eigenvalues?_length hvalues]

theorem eigenvectors_yields (m : Matrix) (values : List Complex) :
    Yields (m.eigenvectors values) WellFormed :=
  yields_bind fun _ => ofCells_yields _ _ _

/-- A square has fewer rows than elements. -/
theorem WellFormed.rows_le_of_square (h : m.WellFormed) (hsquare : m.rows = m.cols) :
    m.rows ≤ elementLimit :=
  Nat.le_trans (hsquare ▸ Nat.le_mul_self m.rows) h.size_le

theorem magic_yields (n : Nat) : Yields (magic n) WellFormed := by
  unfold magic
  split
  · exact yields_error _
  · exact yields_bind fun _ => ofCells_yields _ _ _

end Matrix

end MatrixScript
