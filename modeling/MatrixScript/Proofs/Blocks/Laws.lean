import Mathlib.Order.Nat
import MatrixScript.Proofs.Blocks

/-!
# Laws of joined matrices

Transposing exchanges the two ways of joining matrices, a product is taken row by row, and four
blocks that meet in a point may be joined rows first or columns first. Both sides of such a law fill
the same cells of the same shape. They check other shapes on the way, but the last one is the
largest of them, so one side is refused for its size exactly when the other one is.
-/

namespace MatrixScript

/-- The fault of a shape that has too many elements. -/
def Fault.IsTooLarge (fault : Fault) : Prop :=
  ∃ rows cols, elementLimit < rows * cols ∧ elementCount rows cols = .error fault

theorem Fault.IsTooLarge.code {fault : Fault} (h : fault.IsTooLarge) :
    fault.code = .argumentRange := by
  obtain ⟨rows, cols, hlimit, hfault⟩ := h
  rw [elementCount, if_neg (Nat.not_le.mpr hlimit)] at hfault
  cases hfault
  rfl

theorem elementCount_tooLarge {rows cols : Nat} (h : elementLimit < rows * cols) :
    ∃ fault, elementCount rows cols = .error fault ∧ fault.IsTooLarge := by
  cases hcount : elementCount rows cols with
  | ok count => exact absurd (elementCount_eq_ok_iff.mp hcount).2 h.not_ge
  | error fault => exact ⟨fault, rfl, rows, cols, h, hcount⟩

namespace Matrix

/-- Two ways to one matrix: both give it, or both are refused, for reasons that go together. -/
inductive Concurs (together : Fault → Fault → Prop) : Result Matrix → Result Matrix → Prop
  | given (m : Matrix) : Concurs together (.ok m) (.ok m)
  | refused {fault fault' : Fault} (h : together fault fault') :
      Concurs together (.error fault) (.error fault')

/-- Both are shapes of too many elements. -/
def BothTooLarge (fault fault' : Fault) : Prop := fault.IsTooLarge ∧ fault'.IsTooLarge

/-- The matrix with these cells is made, unless it has too many elements. -/
structure Makes (result : Result Matrix) (rows cols : Nat) (f : Nat → Nat → Complex) : Prop where
  eq_ok : rows * cols ≤ elementLimit → result = .ok (generate rows cols f)
  refused : elementLimit < rows * cols → ∃ fault, result = .error fault ∧ fault.IsTooLarge

variable {m n : Matrix} {x y : Result Matrix} {rows cols rows' cols' : Nat}
  {f g : Nat → Nat → Complex}

theorem Concurs.imp {p q : Fault → Fault → Prop} (h : Concurs p x y) (hpq : ∀ s t, p s t → q s t) :
    Concurs q x y := by
  cases h with
  | given m => exact .given m
  | refused h => exact .refused (hpq _ _ h)

theorem Concurs.eq_ok {p : Fault → Fault → Prop} (h : Concurs p x y) (hx : x = .ok m) :
    y = .ok m := by
  cases h with
  | given m => exact hx
  | refused h => cases hx

theorem generate_cell (h : m.WellFormed) : generate m.rows m.cols m.cell = m := by
  refine ext_cells (wellFormed_generate h.size_le _) h rfl rfl fun r hr c hc => ?_
  rw [cell?_generate _ hr hc, cell?_eq_some_cell h hr hc]

theorem isEmpty_generate (hrows : 0 < rows) (hcols : 0 < cols) :
    (generate rows cols f).isEmpty = false :=
  Array.isEmpty_eq_false_iff.mpr <| Array.size_pos_iff.mp <| by
    rw [generate, Array.size_ofFn]
    exact Nat.mul_pos hrows hcols

theorem sumTo_congr {f g : Nat → Complex} (h : ∀ k < rows, f k = g k) :
    sumTo rows f = sumTo rows g := by
  have hsteps : (fun k (_ : k < rows) sum => sum + f k) = fun k _ sum => sum + g k := by
    funext k hk sum
    rw [h k hk]
  rw [sumTo, sumTo, hsteps]

theorem beside_misfit (hsome : m.isEmpty = false) (hsome' : n.isEmpty = false)
    (hrows : m.rows ≠ n.rows) :
    m.beside n = .error (.dimensionMismatch "," m.shape n.shape) := by
  rw [beside, hsome, hsome', if_neg Bool.false_ne_true, if_neg Bool.false_ne_true, if_neg hrows]

theorem above_misfit (hsome : m.isEmpty = false) (hsome' : n.isEmpty = false)
    (hcols : m.cols ≠ n.cols) :
    m.above n = .error (.dimensionMismatch ";" m.shape n.shape) := by
  rw [above, hsome, hsome', if_neg Bool.false_ne_true, if_neg Bool.false_ne_true, if_neg hcols]

theorem isEmpty_transpose (h : m.WellFormed) : m.transpose.isEmpty = m.isEmpty := by
  rw [Bool.eq_iff_iff, isEmpty_iff_count, isEmpty_iff_count, count, count, h.transpose.size_eq,
    h.size_eq, Nat.mul_comm]
  rfl

namespace Makes

theorem ofCells (rows cols : Nat) (f : Nat → Nat → Complex) :
    Makes (Matrix.ofCells rows cols f) rows cols f := by
  constructor
  · intro hlimit
    rw [Matrix.ofCells, elementCount_of_le hlimit]
    rfl
  · intro hlimit
    obtain ⟨fault, hcount, hlarge⟩ := elementCount_tooLarge hlimit
    rw [Matrix.ofCells, hcount]
    exact ⟨fault, rfl, hlarge⟩

/-- What is done with two matrices that may be too large, where the result is larger still. -/
theorem bind₂ {op : Matrix → Matrix → Result Matrix} {rows₁ cols₁ rows₂ cols₂ : Nat}
    {f₁ f₂ : Nat → Nat → Complex} (hx : Makes x rows₁ cols₁ f₁) (hy : Makes y rows₂ cols₂ f₂)
    (hle₁ : rows₁ * cols₁ ≤ rows * cols) (hle₂ : rows₂ * cols₂ ≤ rows * cols)
    (hop : rows₁ * cols₁ ≤ elementLimit → rows₂ * cols₂ ≤ elementLimit →
      Makes (op (generate rows₁ cols₁ f₁) (generate rows₂ cols₂ f₂)) rows cols f) :
    Makes (do op (← x) (← y)) rows cols f := by
  by_cases h₁ : rows₁ * cols₁ ≤ elementLimit
  · rw [hx.eq_ok h₁]
    by_cases h₂ : rows₂ * cols₂ ≤ elementLimit
    · rw [hy.eq_ok h₂]
      exact hop h₁ h₂
    · obtain ⟨fault, hfault, hlarge⟩ := hy.refused (Nat.not_le.mp h₂)
      rw [hfault]
      exact ⟨fun hlimit => absurd (hle₂.trans hlimit) h₂, fun _ => ⟨fault, rfl, hlarge⟩⟩
  · obtain ⟨fault, hfault, hlarge⟩ := hx.refused (Nat.not_le.mp h₁)
    rw [hfault]
    exact ⟨fun hlimit => absurd (hle₁.trans hlimit) h₁, fun _ => ⟨fault, rfl, hlarge⟩⟩

theorem congr (h : Makes x rows cols f) (hfg : ∀ r < rows, ∀ c < cols, f r c = g r c) :
    Makes x rows cols g :=
  ⟨fun hlimit => (h.eq_ok hlimit).trans (congrArg _ (generate_congr hfg)), h.refused⟩

theorem concurs (hx : Makes x rows cols f) (hy : Makes y rows cols f) :
    Concurs BothTooLarge x y := by
  by_cases hlimit : rows * cols ≤ elementLimit
  · rw [hx.eq_ok hlimit, hy.eq_ok hlimit]
    exact .given _
  · obtain ⟨fault, hfault, hlarge⟩ := hx.refused (Nat.not_le.mp hlimit)
    obtain ⟨fault', hfault', hlarge'⟩ := hy.refused (Nat.not_le.mp hlimit)
    rw [hfault, hfault']
    exact .refused ⟨hlarge, hlarge'⟩

theorem transpose (h : Makes x rows cols f) :
    Makes (x.map Matrix.transpose) cols rows fun r c => f c r := by
  constructor
  · intro hlimit
    rw [h.eq_ok (Nat.mul_comm cols rows ▸ hlimit)]
    refine congrArg Except.ok (generate_congr fun r hr c hc => ?_)
    exact cell_generate f hc hr
  · intro hlimit
    obtain ⟨fault, hfault, hlarge⟩ := h.refused (Nat.mul_comm cols rows ▸ hlimit)
    rw [hfault]
    exact ⟨fault, rfl, hlarge⟩

theorem beside_of_eq (hsome : m.isEmpty = false) (hsome' : n.isEmpty = false)
    (hrows : m.rows = n.rows) : Makes (m.beside n) m.rows (m.cols + n.cols)
      fun r c => if c < m.cols then m.cell r c else n.cell r (c - m.cols) := by
  rw [Matrix.beside, hsome, hsome', if_neg Bool.false_ne_true, if_neg Bool.false_ne_true,
    if_pos hrows]
  exact ofCells _ _ _

theorem above_of_eq (hm : m.WellFormed) (hn : n.WellFormed) (hsome : m.isEmpty = false)
    (hsome' : n.isEmpty = false) (hcols : m.cols = n.cols) :
    Makes (m.above n) (m.rows + n.rows) m.cols
      fun r c => if r < m.rows then m.cell r c else n.cell (r - m.rows) c := by
  constructor
  · intro hlimit
    have hcount : m.count + n.count ≤ elementLimit := by
      rwa [count, count, hm.size_eq, hn.size_eq, ← hcols, ← Nat.add_mul]
    obtain ⟨joined, hjoined, hwf, hheight, hwidth, -, hcell⟩ :=
      exists_above hm hn hsome hsome' hcols hcount
    rw [hjoined]
    refine congrArg _ (ext_cells hwf (wellFormed_generate hlimit _) hheight hwidth ?_)
    intro r (hr : r < m.rows + n.rows) c (hc : c < m.cols)
    rw [hcell, cell?_generate _ hr hc]
    by_cases htop : r < m.rows
    · rw [if_pos htop, if_pos htop, cell?_eq_some_cell hm htop hc]
    · rw [if_neg htop, if_neg htop, cell?_eq_some_cell hn (by omega) (hcols ▸ hc)]
  · intro hlimit
    obtain ⟨fault, hcount, hlarge⟩ := elementCount_tooLarge hlimit
    rw [Matrix.above, hsome, hsome', if_neg Bool.false_ne_true, if_neg Bool.false_ne_true,
      if_pos hcols, hcount]
    exact ⟨fault, rfl, hlarge⟩

/-- Matrices of one height side by side. -/
theorem beside (hx : Makes x rows cols f) (hy : Makes y rows cols' g) (hrows : 0 < rows)
    (hcols : 0 < cols) (hcols' : 0 < cols') : Makes (do (← x).beside (← y)) rows (cols + cols')
      fun r c => if c < cols then f r c else g r (c - cols) := by
  refine hx.bind₂ hy (Nat.mul_le_mul_left _ (by omega)) (Nat.mul_le_mul_left _ (by omega))
    fun _ _ => ?_
  have hjoined := beside_of_eq (isEmpty_generate (f := f) hrows hcols)
    (isEmpty_generate (f := g) hrows hcols') rfl
  refine hjoined.congr fun r hr c hc => ite_congr rfl (fun hleft => ?_) fun hright => ?_
  · exact cell_generate f hr hleft
  · exact cell_generate g hr (Nat.sub_lt_left_of_lt_add (Nat.not_lt.mp hright) hc)

/-- Matrices of one width above one another. -/
theorem above (hx : Makes x rows cols f) (hy : Makes y rows' cols g) (hrows : 0 < rows)
    (hrows' : 0 < rows') (hcols : 0 < cols) : Makes (do (← x).above (← y)) (rows + rows') cols
      fun r c => if r < rows then f r c else g (r - rows) c := by
  refine hx.bind₂ hy (Nat.mul_le_mul_right _ (by omega)) (Nat.mul_le_mul_right _ (by omega))
    fun h₁ h₂ => ?_
  have hjoined := above_of_eq (wellFormed_generate h₁ f) (wellFormed_generate h₂ g)
    (isEmpty_generate hrows hcols) (isEmpty_generate hrows' hcols) rfl
  refine hjoined.congr fun r hr c hc => ite_congr rfl (fun htop => ?_) fun hbottom => ?_
  · exact cell_generate f htop hc
  · exact cell_generate g (Nat.sub_lt_left_of_lt_add (Nat.not_lt.mp hbottom) hr) hc

theorem mul (h : m.cols = n.rows) :
    Makes (m.mul n) m.rows n.cols fun r c => sumTo m.cols fun k => m.cell r k * n.cell k c := by
  rw [Matrix.mul, if_pos h]
  exact ofCells _ _ _

end Makes

/-! ### The laws -/

theorem transpose_transpose (h : m.WellFormed) : m.transpose.transpose = m := by
  have hcells : m.transpose.transpose = generate m.rows m.cols m.cell :=
    generate_congr fun r hr c hc => cell_generate (fun c r => m.cell r c) hc hr
  rw [hcells, generate_cell h]

/-- The transpose of two matrices side by side is one transpose above the other. -/
theorem concurs_transpose_beside (hm : m.WellFormed) (hn : n.WellFormed) :
    Concurs (fun fault fault' => fault.code = fault'.code)
      ((m.beside n).map transpose) (m.transpose.above n.transpose) := by
  cases hsome : m.isEmpty with
  | true =>
      rw [beside_of_isEmpty_left hsome, above_of_isEmpty_left ((isEmpty_transpose hm).trans hsome)]
      exact .given _
  | false =>
      have htsome := (isEmpty_transpose hm).trans hsome
      cases hsome' : n.isEmpty with
      | true =>
          rw [beside_of_isEmpty_right hsome hsome',
            above_of_isEmpty_right htsome ((isEmpty_transpose hn).trans hsome')]
          exact .given _
      | false =>
          have htsome' := (isEmpty_transpose hn).trans hsome'
          by_cases hrows : m.rows = n.rows
          · have hbeside := (Makes.beside_of_eq hsome hsome' hrows).transpose
            have habove := Makes.above_of_eq hm.transpose hn.transpose htsome htsome' hrows
            refine (hbeside.concurs (habove.congr fun c hc r hr => ?_)).imp
              fun _ _ h => h.1.code.trans h.2.code.symm
            refine ite_congr rfl (fun hleft => ?_) fun hright => ?_
            · exact cell_generate (fun c r => m.cell r c) hleft hr
            · exact cell_generate (fun c r => n.cell r c)
                (Nat.sub_lt_left_of_lt_add (Nat.not_lt.mp hright) hc) (hrows ▸ hr)
          · have hcols : m.transpose.cols ≠ n.transpose.cols := hrows
            rw [beside_misfit hsome hsome' hrows, above_misfit htsome htsome' hcols]
            exact .refused rfl

/-- The rows of a product are the products of the rows. -/
theorem concurs_mul_above (hm : m.WellFormed) (hn : n.WellFormed) (hsome : m.isEmpty = false)
    (hsome' : n.isEmpty = false) {stacked k : Matrix} (hk : k.WellFormed)
    (hksome : k.isEmpty = false) (hstacked : m.above n = .ok stacked) (hrows : m.cols = k.rows) :
    Concurs BothTooLarge (stacked.mul k) (do (← m.mul k).above (← n.mul k)) := by
  have hcols : m.cols = n.cols := by
    by_contra hcols
    rw [above_misfit hsome hsome' hcols] at hstacked
    cases hstacked
  have hmakes := Makes.above_of_eq hm hn hsome hsome' hcols
  have hlimit : (m.rows + n.rows) * m.cols ≤ elementLimit := by
    by_contra hlimit
    obtain ⟨fault, hfault, -⟩ := hmakes.refused (Nat.not_le.mp hlimit)
    cases hstacked.symm.trans hfault
  obtain rfl := Except.ok.inj (hstacked.symm.trans (hmakes.eq_ok hlimit))
  have hproducts := (Makes.mul hrows).above (Makes.mul (hcols.symm.trans hrows))
    (hm.dims_pos hsome).1 (hn.dims_pos hsome').1 (hk.dims_pos hksome).2
  refine Makes.concurs (Makes.mul hrows) (hproducts.congr fun r hr c _ => ?_)
  by_cases htop : r < m.rows
  · rw [if_pos htop]
    refine sumTo_congr fun j hj => ?_
    rw [cell_generate _ hr hj, if_pos htop]
  · rw [if_neg htop, ← hcols]
    refine sumTo_congr fun j hj => ?_
    rw [cell_generate _ hr hj, if_neg htop]

/-- Four blocks that meet in a point. -/
structure Quarters (a b c d : Matrix) : Prop where
  wellFormed : a.WellFormed ∧ b.WellFormed ∧ c.WellFormed ∧ d.WellFormed
  nonempty : a.isEmpty = false ∧ b.isEmpty = false ∧ c.isEmpty = false ∧ d.isEmpty = false
  top : a.rows = b.rows
  bottom : c.rows = d.rows
  left : a.cols = c.cols
  right : b.cols = d.cols

/-- Four blocks may be joined rows first or columns first. -/
theorem Quarters.concurs {a b c d : Matrix} (h : Quarters a b c d) :
    Concurs BothTooLarge (do (← a.beside b).above (← c.beside d))
      (do (← a.above c).beside (← b.above d)) := by
  obtain ⟨⟨ha, hb, hc, hd⟩, ⟨ha', hb', hc', hd'⟩, htop, hbottom, hleft, hright⟩ := h
  obtain ⟨hrows, hcols⟩ := ha.dims_pos ha'
  obtain ⟨hrows', hcols'⟩ := hd.dims_pos hd'
  have hbelow := Makes.beside_of_eq hc' hd' hbottom
  have hbeyond := Makes.above_of_eq hb hd hb' hd' hright
  rw [← hleft, ← hright] at hbelow
  rw [← htop, ← hbottom] at hbeyond
  rw [← hbottom] at hrows'
  rw [← hright] at hcols'
  have hrowsFirst := (Makes.beside_of_eq ha' hb' htop).above hbelow hrows hrows'
    (Nat.add_pos_left hcols _)
  have hcolsFirst := (Makes.above_of_eq ha hc ha' hc' hleft).beside hbeyond
    (Nat.add_pos_left hrows _) hcols hcols'
  refine hrowsFirst.concurs (hcolsFirst.congr fun i _ j _ => ?_)
  by_cases hi : i < a.rows <;> by_cases hj : j < a.cols <;> simp only [hi, hj, if_true, if_false]

/-- Transposing is undone by transposing, and exchanges the ways of joining two matrices. A product
with a matrix that is put together from two is put together from their products, and four blocks may
be joined rows first or columns first. Where one side of these laws is refused the other one is: for
the same kind of fault, and in the last two laws because both have too many elements. -/
theorem joining_laws :
    (∀ m : Matrix, m.WellFormed →
      m.transpose.transpose = m ∧ m.transpose.shape = (m.cols, m.rows))
    ∧ (∀ m n : Matrix, m.WellFormed → n.WellFormed →
      Concurs (fun fault fault' => fault.code = fault'.code)
        ((m.beside n).map transpose) (m.transpose.above n.transpose))
    ∧ (∀ m n k stacked : Matrix, m.WellFormed → n.WellFormed → k.WellFormed → m.isEmpty = false →
      n.isEmpty = false → k.isEmpty = false → m.above n = .ok stacked → m.cols = k.rows →
      Concurs BothTooLarge (stacked.mul k) (do (← m.mul k).above (← n.mul k)))
    ∧ ∀ a b c d : Matrix, Quarters a b c d →
      Concurs BothTooLarge (do (← a.beside b).above (← c.beside d))
        (do (← a.above c).beside (← b.above d)) :=
  ⟨fun _ hm => ⟨transpose_transpose hm, rfl⟩,
    fun _ _ hm hn => concurs_transpose_beside hm hn,
    fun _ _ _ _ hm hn hk hsome hsome' hksome hstacked hrows =>
      concurs_mul_above hm hn hsome hsome' hk hksome hstacked hrows,
    fun _ _ _ _ h => h.concurs⟩

/-- Three columns without rows, and four blocks of different shapes, one of which has a NaN. -/
theorem joining_laws_quarters :
    let flat : Matrix := ⟨0, 3, #[]⟩
    let a : Matrix := ⟨1, 1, #[.one]⟩
    let b : Matrix := ⟨1, 2, #[.i, .ofReal .nan]⟩
    let c : Matrix := ⟨2, 1, #[.zero, .ofReal .negativeZero]⟩
    let d : Matrix := ⟨2, 2, #[.one, .zero, .i, .one]⟩
    let stacked : Matrix := ⟨3, 1, #[.one, .zero, .ofReal .negativeZero]⟩
    (flat.WellFormed ∧ flat.transpose.transpose = flat)
      ∧ (a.WellFormed ∧ b.WellFormed
        ∧ a.transpose.above b.transpose = .ok ⟨3, 1, #[.one, .i, .ofReal .nan]⟩)
      ∧ (a.above c = .ok stacked ∧ a.cols = b.rows
        ∧ Concurs BothTooLarge (stacked.mul b) (do (← a.mul b).above (← c.mul b)))
      ∧ Quarters a b c d
      ∧ (do (← a.above c).beside (← b.above d))
        = .ok ⟨3, 3, #[.one, .i, .ofReal .nan, .zero, .one, .zero,
          .ofReal .negativeZero, .i, .one]⟩ := by
  intro flat a b c d stacked
  have hflat : flat.WellFormed := ⟨rfl, by decide⟩
  have ha : a.WellFormed := ⟨rfl, by decide⟩
  have hb : b.WellFormed := ⟨rfl, by decide⟩
  have hc : c.WellFormed := ⟨rfl, by decide⟩
  have hquarters : Quarters a b c d :=
    ⟨⟨ha, hb, hc, ⟨rfl, by decide⟩⟩, ⟨rfl, rfl, rfl, rfl⟩, rfl, rfl, rfl, rfl⟩
  obtain ⟨hinvolution, htranspose, hmul, hinterchange⟩ := joining_laws
  refine ⟨⟨hflat, (hinvolution flat hflat).1⟩, ⟨ha, hb, ?_⟩, ⟨rfl, rfl, ?_⟩, hquarters, ?_⟩
  · exact (htranspose a b ha hb).eq_ok (by decide +kernel)
  · exact hmul a c b stacked ha hc hb rfl rfl rfl rfl rfl
  · exact (hinterchange a b c d hquarters).eq_ok (by decide +kernel)

end Matrix

end MatrixScript
