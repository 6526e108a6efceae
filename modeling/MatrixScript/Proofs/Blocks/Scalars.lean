import MatrixScript.Proofs.Blocks

/-!
# Blocks of one element

A number stands for a matrix of one element. Equally long rows of numbers always fit, unless there
are too many, and the number at a cell is the one in its row and column.
-/

namespace MatrixScript

namespace Matrix

/-- Numbers as the matrices that they stand for. -/
def scalars (row : List Complex) : List Matrix := row.map scalar

variable {row : List Complex} {rows : List (List Complex)} {m : Matrix}

/-- Equally long rows together. -/
theorem sum_length_of_forall {α : Type} {rows : List (List α)} {n : Nat}
    (h : ∀ row ∈ rows, row.length = n) : (rows.map List.length).sum = rows.length * n := by
  have hconst : rows.map List.length = List.replicate rows.length n := by
    rw [List.eq_replicate_iff, List.length_map]
    refine ⟨rfl, fun k hk => ?_⟩
    obtain ⟨row, hrow, rfl⟩ := List.mem_map.mp hk
    exact h row hrow
  rw [hconst, List.sum_replicate_nat]

theorem blocks_scalars (row : List Complex) : blocks (scalars row) = scalars row := by
  apply List.filter_eq_self.mpr
  intro b hb
  obtain ⟨z, -, rfl⟩ := List.mem_map.mp hb
  rfl

theorem blockRows_scalars (h : ∀ row ∈ rows, row ≠ []) :
    blockRows (rows.map scalars) = rows.map scalars := by
  have hblocks : (rows.map scalars).map blocks = rows.map scalars := by
    rw [List.map_map]
    exact List.map_congr_left fun row _ => blocks_scalars row
  rw [blockRows, hblocks]
  apply List.filter_eq_self.mpr
  intro bs hbs
  obtain ⟨row, hrow, rfl⟩ := List.mem_map.mp hbs
  simpa [scalars] using h row hrow

theorem width_scalars (row : List Complex) : width (scalars row) = row.length := by
  induction row with
  | nil => rfl
  | cons z row ih =>
      calc width (scalars (z :: row)) = 1 + width (scalars row) := rfl
        _ = (z :: row).length := by rw [ih, List.length_cons, Nat.add_comm]

theorem height_scalars (h : row ≠ []) : height (scalars row) = 1 := by
  obtain ⟨z, zs, rfl⟩ := List.exists_cons_of_ne_nil h
  rfl

theorem rowCount_scalars (row : List Complex) : rowCount (scalars row) = row.length := by
  induction row with
  | nil => rfl
  | cons z row ih =>
      calc rowCount (scalars (z :: row)) = 1 + rowCount (scalars row) := rfl
        _ = (z :: row).length := by rw [ih, List.length_cons, Nat.add_comm]

theorem gridCount_scalars (rows : List (List Complex)) :
    gridCount (rows.map scalars) = (rows.map List.length).sum := by
  rw [gridCount, List.map_map]
  congr 1
  exact List.map_congr_left fun row _ => rowCount_scalars row

theorem rowCell?_scalars (row : List Complex) (c : Nat) :
    rowCell? (scalars row) 0 c = row[c]? := by
  induction row generalizing c with
  | nil => rfl
  | cons z row ih =>
      cases c with
      | zero => rfl
      | succ c =>
          have hcols : (scalar z).cols = 1 := rfl
          have htail : row.map scalar = scalars row := rfl
          rw [scalars, List.map_cons, rowCell?, hcols, if_neg (by omega), Nat.add_sub_cancel,
            htail, ih, List.getElem?_cons_succ]

/-- The number in its row and column. -/
theorem gridCell?_scalars (h : ∀ row ∈ rows, row ≠ []) (r c : Nat) :
    gridCell? (rows.map scalars) r c = rows[r]?.bind (·[c]?) := by
  induction rows generalizing r with
  | nil => rfl
  | cons row rows ih =>
      have hrow := height_scalars (h row List.mem_cons_self)
      rw [List.map_cons, gridCell?, hrow]
      cases r with
      | zero => rw [if_pos Nat.zero_lt_one, rowCell?_scalars]; rfl
      | succ r =>
          rw [if_neg (by omega), Nat.add_sub_cancel, ih fun row hmem =>
            h row (List.mem_cons_of_mem _ hmem), List.getElem?_cons_succ]

/-- Equally long rows of numbers fit. -/
theorem fits_scalars (h : ∀ row ∈ rows, row ≠ []) {n : Nat} (hn : ∀ row ∈ rows, row.length = n)
    (hcount : rows.length * n ≤ elementLimit) : Fits (rows.map scalars) := by
  constructor
  · rw [blockRows_scalars h]
    intro bs hbs b hb c hc
    obtain ⟨row, -, rfl⟩ := List.mem_map.mp hbs
    obtain ⟨z, -, rfl⟩ := List.mem_map.mp hb
    obtain ⟨w, -, rfl⟩ := List.mem_map.mp hc
    rfl
  · rw [blockRows_scalars h]
    intro bs hbs cs hcs
    obtain ⟨row, hrow, rfl⟩ := List.mem_map.mp hbs
    obtain ⟨row', hrow', rfl⟩ := List.mem_map.mp hcs
    rw [width_scalars, width_scalars, hn row hrow, hn row' hrow']
  · rw [gridCount_scalars, sum_length_of_forall hn]
    exact hcount

/-- What rows of numbers are assembled to. -/
theorem Assembles.of_scalars (hm : Assembles (rows.map scalars) m) (hne : rows ≠ [])
    (h : ∀ row ∈ rows, row ≠ []) {n : Nat} (hn : ∀ row ∈ rows, row.length = n) :
    m.rows = rows.length ∧ m.cols = n ∧ ∀ r c, m.cell? r c = rows[r]?.bind (·[c]?) := by
  have hblocks := blockRows_scalars h
  refine ⟨?_, ?_, fun r c => ?_⟩
  · have hheights : ((rows.map scalars).map Matrix.height).sum = rows.length := by
      clear hm hblocks hne hn
      induction rows with
      | nil => rfl
      | cons row rows ih =>
          rw [List.map_cons, List.map_cons, List.sum_cons,
            height_scalars (h row List.mem_cons_self),
            ih fun row hmem => h row (List.mem_cons_of_mem _ hmem), List.length_cons, Nat.add_comm]
    rw [hm.height (by simpa [hblocks] using hne), hblocks, hheights]
  · obtain ⟨row, hrow⟩ := List.exists_mem_of_ne_nil rows hne
    have hmem : scalars row ∈ blockRows (rows.map scalars) := by
      rw [hblocks]
      exact List.mem_map_of_mem hrow
    rw [hm.width _ hmem, width_scalars, hn row hrow]
  · rw [hm.entry, hblocks, gridCell?_scalars h]

end Matrix

end MatrixScript
