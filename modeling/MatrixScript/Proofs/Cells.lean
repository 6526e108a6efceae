import MatrixScript.Proofs.Construction

/-!
# The cells of a matrix

Elements are stored row by row, so a cell has its place among them, and different cells have
different places. A matrix that is filled is given by its shape and by what its cells hold.
-/

namespace MatrixScript

namespace Matrix

variable {m n : Matrix} {rows cols r c r' c' : Nat} {z : Complex}

/-! ### Places -/

theorem place_lt (hr : r < rows) (hc : c < cols) : r * cols + c < rows * cols :=
  calc r * cols + c < r * cols + cols := Nat.add_lt_add_left hc _
    _ = (r + 1) * cols := (Nat.succ_mul r cols).symm
    _ ≤ rows * cols := Nat.mul_le_mul_right cols hr

theorem place_div (hc : c < cols) : (r * cols + c) / cols = r := by
  rw [Nat.mul_comm, Nat.mul_add_div (Nat.zero_lt_of_lt hc), Nat.div_eq_of_lt hc, Nat.add_zero]

theorem place_mod (hc : c < cols) : (r * cols + c) % cols = c := by
  rw [Nat.mul_comm, Nat.mul_add_mod, Nat.mod_eq_of_lt hc]

/-- A cell from its place. -/
theorem eq_of_place_eq (hc : c < cols) (hc' : c' < cols)
    (h : r * cols + c = r' * cols + c') : r = r' ∧ c = c' := by
  constructor
  · rw [← place_div (r := r) hc, h, place_div hc']
  · rw [← place_mod (r := r) hc, h, place_mod hc']

/-- The cell at a place. -/
theorem div_lt_of_place {p : Nat} (h : p < rows * cols) : p / cols < rows :=
  Nat.div_lt_of_lt_mul (Nat.mul_comm rows cols ▸ h)

theorem mod_lt_of_place {p : Nat} (h : p < rows * cols) : p % cols < cols :=
  Nat.mod_lt p (Nat.pos_of_mul_pos_left (Nat.zero_lt_of_lt h))

/-! ### Reading cells -/

theorem cell?_of_lt (hr : r < m.rows) (hc : c < m.cols) :
    m.cell? r c = m.data[r * m.cols + c]? :=
  if_pos ⟨hr, hc⟩

theorem cell?_of_not_lt (h : ¬(r < m.rows ∧ c < m.cols)) : m.cell? r c = none := if_neg h

theorem cell?_eq_some_cell (h : m.WellFormed) (hr : r < m.rows) (hc : c < m.cols) :
    m.cell? r c = some (m.cell r c) := by
  have hplace : r * m.cols + c < m.data.size := by
    rw [h.size_eq]
    exact place_lt hr hc
  rw [cell?_of_lt hr hc, cell, Array.getD_eq_getD_getElem?, Array.getElem?_eq_getElem hplace,
    Option.getD_some]

theorem WellFormed.exists_cell? (h : m.WellFormed) (hr : r < m.rows) (hc : c < m.cols) :
    ∃ z, m.cell? r c = some z :=
  ⟨m.cell r c, cell?_eq_some_cell h hr hc⟩

theorem cell?_generate (f : Nat → Nat → Complex) (hr : r < rows) (hc : c < cols) :
    (generate rows cols f).cell? r c = some (f r c) := by
  have hplace := place_lt hr hc
  rw [cell?_of_lt (m := generate rows cols f) hr hc]
  change (Array.ofFn fun k : Fin (rows * cols) => f (k / cols) (k % cols))[r * cols + c]? = _
  rw [Array.getElem?_ofFn, dif_pos hplace]
  dsimp only
  rw [place_div hc, place_mod hc]

theorem cell_generate (f : Nat → Nat → Complex) (hr : r < rows)
    (hc : c < cols) : (generate rows cols f).cell r c = f r c := by
  have hcell := cell?_generate f hr hc
  rw [cell?_of_lt (m := generate rows cols f) hr hc] at hcell
  rw [cell, Array.getD_eq_getD_getElem?, hcell, Option.getD_some]

theorem generate_congr {rows cols : Nat} {f g : Nat → Nat → Complex}
    (h : ∀ r < rows, ∀ c < cols, f r c = g r c) : generate rows cols f = generate rows cols g := by
  refine congrArg (Matrix.mk rows cols) (congrArg Array.ofFn (funext fun k => ?_))
  exact h _ (div_lt_of_place k.isLt) _ (mod_lt_of_place k.isLt)

/-- Matrices of one shape that hold the same in every cell. -/
theorem ext_cells (hm : m.WellFormed) (hn : n.WellFormed) (hrows : m.rows = n.rows)
    (hcols : m.cols = n.cols)
    (hcells : ∀ r < n.rows, ∀ c < n.cols, m.cell? r c = n.cell? r c) : m = n := by
  obtain ⟨rows, cols, data⟩ := m
  obtain ⟨_, _, data'⟩ := n
  obtain rfl : rows = _ := hrows
  obtain rfl : cols = _ := hcols
  refine congrArg (Matrix.mk rows cols) (Array.ext (hm.size_eq.trans hn.size_eq.symm) ?_)
  intro p hp hp'
  have hplace : p < rows * cols := Nat.lt_of_lt_of_eq hp hm.size_eq
  have hr := div_lt_of_place hplace
  have hc := mod_lt_of_place hplace
  have hcell := hcells (p / cols) hr (p % cols) hc
  rw [cell?_of_lt (m := ⟨rows, cols, data⟩) hr hc,
    cell?_of_lt (m := ⟨rows, cols, data'⟩) hr hc] at hcell
  change data[p / cols * cols + p % cols]? = data'[p / cols * cols + p % cols]? at hcell
  rw [Nat.mul_comm, Nat.div_add_mod, Array.getElem?_eq_getElem hp,
    Array.getElem?_eq_getElem hp'] at hcell
  exact Option.some.inj hcell

/-! ### Writing cells -/

theorem cell?_setCell (h : m.WellFormed) (hr : r < m.rows) (hc : c < m.cols) (z : Complex)
    (r' c' : Nat) :
    (m.setCell r c z).cell? r' c' = if r' = r ∧ c' = c then some z else m.cell? r' c' := by
  have hsize : r * m.cols + c < m.data.size := by
    rw [h.size_eq]
    exact place_lt hr hc
  by_cases hinside : r' < m.rows ∧ c' < m.cols
  · rw [cell?_of_lt (m := m.setCell r c z) hinside.1 hinside.2, cell?_of_lt hinside.1 hinside.2]
    change (m.data.setIfInBounds (r * m.cols + c) z)[r' * m.cols + c']? = _
    rw [Array.getElem?_setIfInBounds]
    by_cases hsame : r' = r ∧ c' = c
    · rw [hsame.1, hsame.2, if_pos rfl, if_pos hsize, if_pos ⟨rfl, rfl⟩]
    · rw [if_neg hsame, if_neg]
      intro hplace
      obtain ⟨hrow, hcol⟩ := eq_of_place_eq hc hinside.2 hplace
      exact hsame ⟨hrow.symm, hcol.symm⟩
  · rw [cell?_of_not_lt (m := m.setCell r c z) hinside, cell?_of_not_lt hinside, if_neg]
    rintro ⟨rfl, rfl⟩
    exact hinside ⟨hr, hc⟩

end Matrix

end MatrixScript
