import Mathlib.Algebra.GroupWithZero.Nat
import Mathlib.Data.List.Induction
import Mathlib.Logic.Basic
import MatrixScript.Proofs.Cells
import MatrixScript.Proofs.Values.Matrices

/-!
# Block matrices

Matrices that are put side by side into rows, and rows that are put above one another, make one
matrix of blocks. Those without elements leave no trace, so what counts are the blocks, which have
some, and the rows in which there are any. The blocks fit if those of a row are equally high and the
rows equally wide. Joining two at a time finds out step by step whether they do, and then each cell
holds what the block that covers it has there.
-/

namespace MatrixScript

/-- Faults of shapes that do not go together, or that are too large. -/
def Fault.IsShapeFault (fault : Fault) : Prop :=
  fault.code = .dimensionMismatch ∨ fault.code = .argumentRange

namespace Matrix

/-- The matrices of a row that have elements. -/
def blocks (row : List Matrix) : List Matrix := row.filter (!·.isEmpty)

/-- The rows as rows of blocks, without those in which there are none. -/
def blockRows (rows : List (List Matrix)) : List (List Matrix) :=
  (rows.map blocks).filter (!·.isEmpty)

def width (row : List Matrix) : Nat := (row.map (·.cols)).sum

/-- The height of the first block. -/
def height (row : List Matrix) : Nat := row.head?.elim 0 (·.rows)

/-- The number of elements of all matrices of a row. -/
def rowCount (row : List Matrix) : Nat := (row.map count).sum

/-- The number of elements of all matrices of all rows. -/
def gridCount (rows : List (List Matrix)) : Nat := (rows.map rowCount).sum

/-- What the block that covers column `c` of a row of blocks has in row `r`. -/
def rowCell? : List Matrix → Nat → Nat → Option Complex
  | [], _, _ => none
  | b :: bs, r, c => if c < b.cols then b.cell? r c else rowCell? bs r (c - b.cols)

/-- What the block that covers a cell has at the place of the cell in it. -/
def gridCell? : List (List Matrix) → Nat → Nat → Option Complex
  | [], _, _ => none
  | row :: rows, r, c =>
    if r < height row then rowCell? row r c else gridCell? rows (r - height row) c

/-- The blocks of every row are equally high and the rows equally wide, and there are not too many
elements. -/
structure Fits (rows : List (List Matrix)) : Prop where
  level : ∀ row ∈ blockRows rows, ∀ b ∈ row, ∀ c ∈ row, b.rows = c.rows
  flush : ∀ row ∈ blockRows rows, ∀ other ∈ blockRows rows, width row = width other
  count_le : gridCount rows ≤ elementLimit

/-- The matrix that has the blocks in their places. Without blocks it has no elements. -/
structure Assembles (rows : List (List Matrix)) (m : Matrix) : Prop where
  wellFormed : m.WellFormed
  height : blockRows rows ≠ [] → m.rows = ((blockRows rows).map height).sum
  width : ∀ row ∈ blockRows rows, m.cols = width row
  count : m.count = gridCount rows
  entry : ∀ r c, m.cell? r c = gridCell? (blockRows rows) r c

/-! ### Cells of two joined matrices -/

variable {m n : Matrix} {row : List Matrix} {rows : List (List Matrix)} {r c : Nat}

theorem isEmpty_iff_count : m.isEmpty = true ↔ m.count = 0 := by
  rw [isEmpty, count, Array.isEmpty_iff_size_eq_zero]

theorem cell?_of_isEmpty (h : m.isEmpty = true) (r c : Nat) : m.cell? r c = none := by
  rw [isEmpty, Array.isEmpty_iff] at h
  simp [cell?, h]

theorem beside_of_isEmpty_left (h : m.isEmpty = true) : m.beside n = .ok n := if_pos h

theorem beside_of_isEmpty_right (hm : m.isEmpty = false) (h : n.isEmpty = true) :
    m.beside n = .ok m := by
  simp [beside, hm, h]

theorem above_of_isEmpty_left (h : m.isEmpty = true) : m.above n = .ok n := if_pos h

theorem above_of_isEmpty_right (hm : m.isEmpty = false) (h : n.isEmpty = true) :
    m.above n = .ok m := by
  simp [above, hm, h]

theorem elementCount_of_le {rows cols : Nat} (h : rows * cols ≤ elementLimit) :
    elementCount rows cols = .ok (rows * cols) := if_pos h

theorem elementCount_of_lt {rows cols : Nat} (h : elementLimit < rows * cols) :
    ∃ fault, elementCount rows cols = .error fault ∧ fault.IsShapeFault := by
  rw [elementCount, if_neg (Nat.not_le.mpr h)]
  exact ⟨_, rfl, .inr rfl⟩

section Joining

variable (hm : m.WellFormed) (hn : n.WellFormed) (hsome : m.isEmpty = false)
  (hsome' : n.isEmpty = false)

include hm hn hsome hsome'

/-- Two blocks of one height that are not too large are joined side by side. -/
theorem exists_beside (hrows : m.rows = n.rows) (hcount : m.count + n.count ≤ elementLimit) :
    ∃ joined, m.beside n = .ok joined ∧ joined.WellFormed ∧ joined.rows = m.rows
      ∧ joined.cols = m.cols + n.cols ∧ joined.count = m.count + n.count
      ∧ ∀ r c, joined.cell? r c = if c < m.cols then m.cell? r c else n.cell? r (c - m.cols) := by
  have hsum : m.rows * (m.cols + n.cols) = m.count + n.count := by
    rw [Nat.mul_add, count, count, hm.size_eq, hn.size_eq, hrows]
  have hlimit : m.rows * (m.cols + n.cols) ≤ elementLimit := hsum ▸ hcount
  let f (r c : Nat) : Complex := if c < m.cols then m.cell r c else n.cell r (c - m.cols)
  have hwf := wellFormed_generate hlimit f
  refine ⟨generate m.rows (m.cols + n.cols) f, ?_, hwf, rfl, rfl, hwf.size_eq.trans hsum, ?_⟩
  · simp only [beside, hsome, hsome', hrows, Bool.false_eq_true, if_false, if_true]
    rw [ofCells, ← hrows, elementCount_of_le hlimit]
    rfl
  · intro r c
    by_cases hinside : r < m.rows ∧ c < m.cols + n.cols
    · rw [cell?_generate f hinside.1 hinside.2]
      by_cases hc : c < m.cols
      · simp only [f, hc, if_true]
        exact (cell?_eq_some_cell hm hinside.1 hc).symm
      · simp only [f, hc, if_false]
        exact (cell?_eq_some_cell hn (hrows ▸ hinside.1) (by omega)).symm
    · rw [cell?_of_not_lt (m := generate m.rows (m.cols + n.cols) f) hinside]
      by_cases hc : c < m.cols
      · rw [if_pos hc, cell?_of_not_lt]
        omega
      · rw [if_neg hc, cell?_of_not_lt]
        omega

/-- Otherwise they are refused. -/
theorem exists_beside_error (h : ¬(m.rows = n.rows ∧ m.count + n.count ≤ elementLimit)) :
    ∃ fault, m.beside n = .error fault ∧ fault.IsShapeFault := by
  simp only [beside, hsome, hsome', Bool.false_eq_true, if_false]
  by_cases hrows : m.rows = n.rows
  · have hlimit : elementLimit < m.rows * (m.cols + n.cols) := by
      have hsum : m.rows * (m.cols + n.cols) = m.count + n.count := by
        rw [Nat.mul_add, count, count, hm.size_eq, hn.size_eq, hrows]
      rw [hsum]
      exact Nat.not_le.mp fun hle => h ⟨hrows, hle⟩
    obtain ⟨fault, hfault, hshape⟩ := elementCount_of_lt hlimit
    rw [if_pos hrows, ofCells, hfault]
    exact ⟨fault, rfl, hshape⟩
  · rw [if_neg hrows]
    exact ⟨_, rfl, .inl rfl⟩

/-- Two blocks of one width that are not too large are put above one another. -/
theorem exists_above (hcols : m.cols = n.cols) (hcount : m.count + n.count ≤ elementLimit) :
    ∃ joined, m.above n = .ok joined ∧ joined.WellFormed ∧ joined.rows = m.rows + n.rows
      ∧ joined.cols = m.cols ∧ joined.count = m.count + n.count
      ∧ ∀ r c, joined.cell? r c = if r < m.rows then m.cell? r c else n.cell? (r - m.rows) c := by
  have hsum : (m.rows + n.rows) * m.cols = m.count + n.count := by
    rw [Nat.add_mul, count, count, hm.size_eq, hn.size_eq, hcols]
  have hlimit : (m.rows + n.rows) * m.cols ≤ elementLimit := hsum ▸ hcount
  let joined : Matrix := ⟨m.rows + n.rows, m.cols, m.data ++ n.data⟩
  have hsize : joined.count = m.count + n.count := Array.size_append
  refine ⟨joined, ?_, ⟨hsize.trans hsum.symm, hlimit⟩, rfl, rfl, hsize, ?_⟩
  · simp only [above, hsome, hsome', ← hcols, Bool.false_eq_true, if_false, if_true]
    rw [elementCount_of_le hlimit]
    rfl
  · intro r c
    by_cases hinside : r < m.rows + n.rows ∧ c < m.cols
    · rw [cell?_of_lt (m := joined) hinside.1 hinside.2]
      change (m.data ++ n.data)[r * m.cols + c]? = _
      by_cases hr : r < m.rows
      · have hplace : r * m.cols + c < m.data.size := by
          rw [hm.size_eq]
          exact place_lt hr hinside.2
        rw [if_pos hr, cell?_of_lt hr hinside.2, Array.getElem?_append_left hplace]
      · have hsplit : r * m.cols + c = m.data.size + ((r - m.rows) * n.cols + c) := by
          rw [hm.size_eq, ← hcols, ← Nat.add_assoc, ← Nat.add_mul,
            Nat.add_sub_cancel' (Nat.not_lt.mp hr)]
        rw [if_neg hr, cell?_of_lt (by omega) (hcols ▸ hinside.2), hsplit,
          Array.getElem?_append_right (Nat.le_add_right _ _), Nat.add_sub_cancel_left]
    · rw [cell?_of_not_lt (m := joined) hinside]
      by_cases hr : r < m.rows
      · rw [if_pos hr, cell?_of_not_lt]
        omega
      · rw [if_neg hr, cell?_of_not_lt]
        omega

theorem exists_above_error (h : ¬(m.cols = n.cols ∧ m.count + n.count ≤ elementLimit)) :
    ∃ fault, m.above n = .error fault ∧ fault.IsShapeFault := by
  simp only [above, hsome, hsome', Bool.false_eq_true, if_false]
  by_cases hcols : m.cols = n.cols
  · have hlimit : elementLimit < (m.rows + n.rows) * m.cols := by
      have hsum : (m.rows + n.rows) * m.cols = m.count + n.count := by
        rw [Nat.add_mul, count, count, hm.size_eq, hn.size_eq, hcols]
      rw [hsum]
      exact Nat.not_le.mp fun hle => h ⟨hcols, hle⟩
    obtain ⟨fault, hfault, hshape⟩ := elementCount_of_lt hlimit
    rw [if_pos hcols, hfault]
    exact ⟨fault, rfl, hshape⟩
  · rw [if_neg hcols]
    exact ⟨_, rfl, .inl rfl⟩

end Joining

/-! ### A row -/

/-- The matrices of a row put side by side, from left to right. -/
def joinAll (row : List Matrix) : Result Matrix := row.foldlM beside empty

/-- The blocks of a row are equally high, and there are not too many elements. -/
structure RowFits (row : List Matrix) : Prop where
  level : ∀ b ∈ blocks row, ∀ c ∈ blocks row, b.rows = c.rows
  count_le : rowCount row ≤ elementLimit

/-- What a row has been joined to. -/
structure RowAssembles (row : List Matrix) (m : Matrix) : Prop where
  wellFormed : m.WellFormed
  rows : ∀ b ∈ blocks row, m.rows = b.rows
  cols : blocks row ≠ [] → m.cols = width (blocks row)
  count : m.count = rowCount row
  entry : ∀ r c, m.cell? r c = rowCell? (blocks row) r c

theorem joinAll_concat (row : List Matrix) (n : Matrix) :
    joinAll (row ++ [n]) = joinAll row >>= (·.beside n) := by
  rw [joinAll, List.foldlM_append]
  apply bind_congr
  intro m
  rw [List.foldlM_cons]
  exact bind_pure _

theorem blocks_concat_of_isEmpty (row : List Matrix) (h : n.isEmpty = true) :
    blocks (row ++ [n]) = blocks row := by
  simp [blocks, h]

theorem blocks_concat (row : List Matrix) (h : n.isEmpty = false) :
    blocks (row ++ [n]) = blocks row ++ [n] := by
  simp [blocks, h]

theorem rowCount_concat (row : List Matrix) (n : Matrix) :
    rowCount (row ++ [n]) = rowCount row + n.count := by
  simp [rowCount]

theorem width_concat (row : List Matrix) (n : Matrix) :
    width (row ++ [n]) = width row + n.cols := by
  simp [width]

/-- A block at the end of a row covers the columns behind the others. -/
theorem rowCell?_concat (row : List Matrix) (n : Matrix) (r c : Nat) :
    rowCell? (row ++ [n]) r c
      = if c < width row then rowCell? row r c else n.cell? r (c - width row) := by
  induction row generalizing c with
  | nil =>
      by_cases hc : c < n.cols
      · simp [rowCell?, width, hc]
      · simp [rowCell?, width, hc, cell?]
  | cons b row ih =>
      have hwidth : width (b :: row) = b.cols + width row := by simp [width]
      by_cases hc : c < b.cols
      · simp [rowCell?, hwidth, hc, Nat.lt_add_right]
      · have hless : c - b.cols < width row ↔ c < b.cols + width row := by omega
        simp [rowCell?, hwidth, hc, ih, hless, Nat.sub_sub]

/-- A row has no elements exactly if it has no blocks. -/
theorem rowCount_eq_zero_iff : rowCount row = 0 ↔ blocks row = [] := by
  have hempty (b : Matrix) : b.count = 0 ↔ b.isEmpty = true := isEmpty_iff_count.symm
  induction row with
  | nil => simp [rowCount, blocks]
  | cons b row ih =>
      rw [rowCount, blocks] at ih
      simp [rowCount, blocks, hempty, ih]

theorem RowFits.of_concat (h : RowFits (row ++ [n])) : RowFits row := by
  have hsub : blocks row ⊆ blocks (row ++ [n]) := by
    rw [blocks, blocks, List.filter_append]
    exact List.subset_append_left _ _
  refine ⟨fun b hb c hc => h.level b (hsub hb) c (hsub hc), ?_⟩
  have hcount := h.count_le
  rw [rowCount_concat] at hcount
  omega

theorem RowFits.concat_of_isEmpty (h : RowFits row) (hn : n.isEmpty = true) :
    RowFits (row ++ [n]) := by
  refine ⟨?_, ?_⟩
  · rw [blocks_concat_of_isEmpty row hn]
    exact h.level
  · rw [rowCount_concat, isEmpty_iff_count.mp hn, Nat.add_zero]
    exact h.count_le

namespace RowAssembles

theorem isEmpty_iff (h : RowAssembles row m) : m.isEmpty = true ↔ blocks row = [] := by
  rw [isEmpty_iff_count, h.count, rowCount_eq_zero_iff]

theorem blocks_ne_nil (h : RowAssembles row m) (hsome : m.isEmpty = false) : blocks row ≠ [] := by
  intro hnone
  rw [h.isEmpty_iff.mpr hnone] at hsome
  cases hsome

/-- A matrix without elements changes nothing but, at the front, the shape of what has none. -/
theorem concat_of_isEmpty (h : RowAssembles row m) (hn : n.isEmpty = true)
    {joined : Matrix} (hjoined : joined.WellFormed)
    (hsame : m.isEmpty = true ∧ joined.isEmpty = true ∨ joined = m) :
    RowAssembles (row ++ [n]) joined := by
  have hblocks := blocks_concat_of_isEmpty row hn
  have hcount : rowCount (row ++ [n]) = rowCount row := by
    rw [rowCount_concat, isEmpty_iff_count.mp hn, Nat.add_zero]
  rcases hsame with ⟨hm, hempty⟩ | rfl
  · have hnone := h.isEmpty_iff.mp hm
    constructor
    · exact hjoined
    · simp [hblocks, hnone]
    · simp [hblocks, hnone]
    · rw [hcount, rowCount_eq_zero_iff.mpr hnone, isEmpty_iff_count.mp hempty]
    · intro r c
      rw [hblocks, hnone, cell?_of_isEmpty hempty]
      rfl
  · constructor
    · exact hjoined
    · rw [hblocks]
      exact h.rows
    · rw [hblocks]
      exact h.cols
    · rw [hcount, h.count]
    · rw [hblocks]
      exact h.entry

/-- The first block of a row. -/
theorem concat_first (h : RowAssembles row m) (hn : n.WellFormed) (hempty : m.isEmpty = true)
    (hsome : n.isEmpty = false) : RowAssembles (row ++ [n]) n := by
  have hblocks : blocks (row ++ [n]) = [n] := by
    rw [blocks_concat row hsome, h.isEmpty_iff.mp hempty, List.nil_append]
  constructor
  · exact hn
  · simp [hblocks]
  · simp [hblocks, width]
  · rw [rowCount_concat, rowCount_eq_zero_iff.mpr (h.isEmpty_iff.mp hempty), Nat.zero_add]
  · intro r c
    rw [hblocks]
    have hentry := rowCell?_concat [] n r c
    simpa [width] using hentry.symm

/-- One more block at the end. -/
theorem concat (h : RowAssembles row m) (hm : m.isEmpty = false) (hsome : n.isEmpty = false)
    {joined : Matrix} (hwf : joined.WellFormed) (hrows : m.rows = n.rows)
    (hrows' : joined.rows = m.rows) (hcols : joined.cols = m.cols + n.cols)
    (hcount : joined.count = m.count + n.count)
    (hcells : ∀ r c, joined.cell? r c
      = if c < m.cols then m.cell? r c else n.cell? r (c - m.cols)) :
    RowAssembles (row ++ [n]) joined := by
  have hblocks := blocks_concat row hsome
  have hwidth : m.cols = width (blocks row) := h.cols (h.blocks_ne_nil hm)
  constructor
  · exact hwf
  · intro b hb
    rw [hblocks, List.mem_append, List.mem_singleton] at hb
    rcases hb with hb | rfl
    · rw [hrows', h.rows b hb]
    · rw [hrows', hrows]
  · intro _
    rw [hcols, hblocks, width_concat, hwidth]
  · rw [hcount, rowCount_concat, h.count]
  · intro r c
    rw [hcells, hblocks, rowCell?_concat, ← hwidth, h.entry]

end RowAssembles

theorem rowAssembles_nil : RowAssembles [] empty where
  wellFormed := wellFormed_empty
  rows := by simp [blocks]
  cols := by simp [blocks]
  count := rfl
  entry r c := by
    rw [cell?_of_isEmpty rfl]
    rfl

/-- The blocks of a row are level with another one exactly if what they are joined to is. -/
theorem rowFits_concat_iff (h : RowAssembles row m) (hm : m.isEmpty = false)
    (hsome : n.isEmpty = false) :
    RowFits (row ++ [n]) ↔ m.rows = n.rows ∧ m.count + n.count ≤ elementLimit := by
  obtain ⟨b, hb⟩ := List.exists_mem_of_ne_nil _ (h.blocks_ne_nil hm)
  have hblocks := blocks_concat row hsome
  constructor
  · intro hall
    constructor
    · rw [h.rows b hb]
      apply hall.level <;> simp [hblocks, hb]
    · have hcount := hall.count_le
      rwa [rowCount_concat, ← h.count] at hcount
  · rintro ⟨hrows, hcount⟩
    constructor
    · have hheight : ∀ c ∈ blocks (row ++ [n]), c.rows = m.rows := by
        intro c hc
        rw [hblocks, List.mem_append, List.mem_singleton] at hc
        rcases hc with hc | rfl
        · exact (h.rows c hc).symm
        · exact hrows.symm
      intro c hc d hd
      rw [hheight c hc, hheight d hd]
    · rwa [rowCount_concat, ← h.count]

theorem rowFits_concat_first (h : RowAssembles row m) (hempty : m.isEmpty = true)
    (hn : n.WellFormed) (hsome : n.isEmpty = false) : RowFits (row ++ [n]) := by
  have hblocks : blocks (row ++ [n]) = [n] := by
    rw [blocks_concat row hsome, h.isEmpty_iff.mp hempty, List.nil_append]
  exact ⟨by simp [hblocks], (h.concat_first hn hempty hsome).count ▸ hn.count_le⟩

/-- A matrix is joined to a row exactly if it fits with the blocks there. -/
theorem beside_outcome (h : RowAssembles row m) (hfits : RowFits row) (hn : n.WellFormed) :
    (RowFits (row ++ [n]) → ∃ joined, m.beside n = .ok joined ∧ RowAssembles (row ++ [n]) joined)
    ∧ (¬RowFits (row ++ [n]) → ∃ fault, m.beside n = .error fault ∧ fault.IsShapeFault) := by
  cases hempty : m.isEmpty with
  | true =>
      rw [beside_of_isEmpty_left hempty]
      cases hsome : n.isEmpty with
      | true =>
          refine ⟨fun _ => ⟨n, rfl, ?_⟩, fun hnot => absurd (hfits.concat_of_isEmpty hsome) hnot⟩
          exact h.concat_of_isEmpty hsome hn (.inl ⟨hempty, hsome⟩)
      | false =>
          exact ⟨fun _ => ⟨n, rfl, h.concat_first hn hempty hsome⟩,
            fun hnot => absurd (rowFits_concat_first h hempty hn hsome) hnot⟩
  | false =>
      cases hsome : n.isEmpty with
      | true =>
          rw [beside_of_isEmpty_right hempty hsome]
          refine ⟨fun _ => ⟨m, rfl, ?_⟩, fun hnot => absurd (hfits.concat_of_isEmpty hsome) hnot⟩
          exact h.concat_of_isEmpty hsome h.wellFormed (.inr rfl)
      | false =>
          have hiff := rowFits_concat_iff h hempty hsome
          constructor
          · intro hall
            obtain ⟨hrows, hcount⟩ := hiff.mp hall
            obtain ⟨joined, hjoined, hwf, hrows', hcols, hsum, hcells⟩ :=
              exists_beside h.wellFormed hn hempty hsome hrows hcount
            exact ⟨joined, hjoined, h.concat hempty hsome hwf hrows hrows' hcols hsum hcells⟩
          · intro hnot
            exact exists_beside_error h.wellFormed hn hempty hsome (hiff.not.mp hnot)

/-- Matrices are joined to a row exactly if their blocks fit. -/
theorem joinAll_outcome (hrow : ∀ b ∈ row, b.WellFormed) :
    (RowFits row → ∃ m, joinAll row = .ok m ∧ RowAssembles row m)
    ∧ (¬RowFits row → ∃ fault, joinAll row = .error fault ∧ fault.IsShapeFault) := by
  induction row using List.reverseRecOn with
  | nil =>
      refine ⟨fun _ => ⟨empty, rfl, rowAssembles_nil⟩, fun h => absurd ?_ h⟩
      exact ⟨by simp [blocks], Nat.zero_le _⟩
  | append_singleton row n ih =>
      obtain ⟨hok, herror⟩ := ih fun b hb => hrow b (List.mem_append_left _ hb)
      rw [joinAll_concat]
      by_cases hfits : RowFits row
      · obtain ⟨m, hm, hassembles⟩ := hok hfits
        rw [hm]
        exact beside_outcome hassembles hfits (hrow n (by simp))
      · obtain ⟨fault, hfault, hshape⟩ := herror hfits
        rw [hfault]
        exact ⟨fun h => absurd h.of_concat hfits, fun _ => ⟨fault, rfl, hshape⟩⟩

/-! ### Rows above one another -/

/-- The rows joined, and put above one another from top to bottom. -/
def stackAll (rows : List (List Matrix)) : Result Matrix :=
  rows.foldlM (fun m row => do m.above (← joinAll row)) empty

theorem stackAll_concat (rows : List (List Matrix)) (row : List Matrix) :
    stackAll (rows ++ [row]) = stackAll rows >>= fun m => joinAll row >>= m.above := by
  rw [stackAll, List.foldlM_append]
  apply bind_congr
  intro m
  rw [List.foldlM_cons]
  exact bind_pure _

theorem gridCount_concat (rows : List (List Matrix)) (row : List Matrix) :
    gridCount (rows ++ [row]) = gridCount rows + rowCount row := by
  simp [gridCount]

theorem blockRows_concat_of_eq_nil (rows : List (List Matrix)) (h : blocks row = []) :
    blockRows (rows ++ [row]) = blockRows rows := by
  simp [blockRows, h]

theorem blockRows_concat (rows : List (List Matrix)) (h : blocks row ≠ []) :
    blockRows (rows ++ [row]) = blockRows rows ++ [blocks row] := by
  simp [blockRows, h]

theorem blockRows_subset_concat (rows : List (List Matrix)) (row : List Matrix) :
    blockRows rows ⊆ blockRows (rows ++ [row]) := by
  rw [blockRows, blockRows, List.map_append, List.filter_append]
  exact List.subset_append_left _ _

/-- A row at the bottom covers what is below the others. -/
theorem gridCell?_concat (rows : List (List Matrix)) (row : List Matrix) (r c : Nat) :
    gridCell? (rows ++ [row]) r c
      = if r < (rows.map height).sum then gridCell? rows r c
        else gridCell? [row] (r - (rows.map height).sum) c := by
  induction rows generalizing r with
  | nil => simp
  | cons first rows ih =>
      by_cases hr : r < height first
      · simp [gridCell?, hr, Nat.lt_add_right]
      · have hless : r - height first < (rows.map height).sum
            ↔ r < height first + (rows.map height).sum := by omega
        simp only [List.cons_append, gridCell?, hr, if_false, ih, hless, List.map_cons,
          List.sum_cons, Nat.sub_sub]

theorem Fits.of_concat (h : Fits (rows ++ [row])) : Fits rows := by
  have hsub := blockRows_subset_concat rows row
  refine ⟨fun bs hbs => h.level bs (hsub hbs), fun bs hbs cs hcs =>
    h.flush bs (hsub hbs) cs (hsub hcs), ?_⟩
  have hcount := h.count_le
  rw [gridCount_concat] at hcount
  omega

theorem Fits.rowFits_of_concat (h : Fits (rows ++ [row])) : RowFits row := by
  constructor
  · intro b hb
    have hne : blocks row ≠ [] := List.ne_nil_of_mem hb
    apply h.level _ _ b hb
    simp [blockRows_concat rows hne]
  · have hcount := h.count_le
    rw [gridCount_concat] at hcount
    omega

/-- All blocks of a level row are as high as the first. -/
theorem RowAssembles.rows_eq_height (h : RowAssembles row m) (hne : blocks row ≠ []) :
    m.rows = height (blocks row) := by
  obtain ⟨b, bs, hbs⟩ := List.exists_cons_of_ne_nil hne
  rw [h.rows b (by simp [hbs]), hbs]
  rfl

/-- One row of blocks covers what the row does. -/
theorem RowAssembles.entry_single (h : RowAssembles row m) (hne : blocks row ≠ []) (r c : Nat) :
    m.cell? r c = gridCell? [blocks row] r c := by
  rw [gridCell?, ← h.rows_eq_height hne]
  by_cases hr : r < m.rows
  · rw [if_pos hr, h.entry]
  · rw [if_neg hr]
    exact cell?_of_not_lt fun hinside => hr hinside.1

/-- Rows have no elements exactly if there are no blocks in them. -/
theorem gridCount_eq_zero_iff : gridCount rows = 0 ↔ blockRows rows = [] := by
  induction rows with
  | nil => simp [gridCount, blockRows]
  | cons row rows ih =>
      rw [gridCount, blockRows] at ih
      simp only [gridCount, blockRows, List.map_cons, List.sum_cons, Nat.add_eq_zero_iff, ih,
        rowCount_eq_zero_iff, List.filter_cons]
      by_cases hrow : blocks row = [] <;> simp [hrow]

namespace Assembles

theorem isEmpty_iff (h : Assembles rows m) : m.isEmpty = true ↔ blockRows rows = [] := by
  rw [isEmpty_iff_count, h.count, gridCount_eq_zero_iff]

theorem blockRows_ne_nil (h : Assembles rows m) (hsome : m.isEmpty = false) :
    blockRows rows ≠ [] := by
  intro hnone
  rw [h.isEmpty_iff.mpr hnone] at hsome
  cases hsome

/-- A row without blocks changes nothing but the shape of what has no elements. -/
theorem concat_of_eq_nil (h : Assembles rows m) (hrow : blocks row = []) {stacked : Matrix}
    (hwf : stacked.WellFormed) (hsame : m.isEmpty = true ∧ stacked.isEmpty = true ∨ stacked = m) :
    Assembles (rows ++ [row]) stacked := by
  have hrows := blockRows_concat_of_eq_nil rows hrow
  have hcount : gridCount (rows ++ [row]) = gridCount rows := by
    rw [gridCount_concat, rowCount_eq_zero_iff.mpr hrow, Nat.add_zero]
  rcases hsame with ⟨hm, hempty⟩ | rfl
  · have hnone := h.isEmpty_iff.mp hm
    constructor
    · exact hwf
    · simp [hrows, hnone]
    · simp [hrows, hnone]
    · rw [hcount, gridCount_eq_zero_iff.mpr hnone, isEmpty_iff_count.mp hempty]
    · intro r c
      rw [hrows, hnone, cell?_of_isEmpty hempty]
      rfl
  · constructor
    · exact hwf
    · rw [hrows]
      exact h.height
    · rw [hrows]
      exact h.width
    · rw [hcount, h.count]
    · rw [hrows]
      exact h.entry

/-- The first row of blocks. -/
theorem concat_first (h : Assembles rows m) (hempty : m.isEmpty = true)
    (hjoined : RowAssembles row n) (hsome : n.isEmpty = false) : Assembles (rows ++ [row]) n := by
  have hne := hjoined.blocks_ne_nil hsome
  have hrows : blockRows (rows ++ [row]) = [blocks row] := by
    rw [blockRows_concat rows hne, h.isEmpty_iff.mp hempty, List.nil_append]
  constructor
  · exact hjoined.wellFormed
  · intro _
    simp [hrows, hjoined.rows_eq_height hne]
  · simp [hrows, hjoined.cols hne]
  · rw [gridCount_concat, gridCount_eq_zero_iff.mpr (h.isEmpty_iff.mp hempty), Nat.zero_add,
      hjoined.count]
  · intro r c
    rw [hrows, hjoined.entry_single hne]

/-- One more row of blocks at the bottom. -/
theorem concat (h : Assembles rows m) (hm : m.isEmpty = false) (hjoined : RowAssembles row n)
    (hsome : n.isEmpty = false) {stacked : Matrix} (hwf : stacked.WellFormed)
    (hcols : m.cols = n.cols) (hcols' : stacked.cols = m.cols)
    (hrows : stacked.rows = m.rows + n.rows) (hcount : stacked.count = m.count + n.count)
    (hcells : ∀ r c, stacked.cell? r c
      = if r < m.rows then m.cell? r c else n.cell? (r - m.rows) c) :
    Assembles (rows ++ [row]) stacked := by
  have hne := hjoined.blocks_ne_nil hsome
  have hblocks := blockRows_concat rows hne
  have hheight : m.rows = ((blockRows rows).map Matrix.height).sum :=
    h.height (h.blockRows_ne_nil hm)
  constructor
  · exact hwf
  · intro _
    simp [hblocks, hrows, ← hheight, hjoined.rows_eq_height hne]
  · intro bs hbs
    rw [hblocks, List.mem_append, List.mem_singleton] at hbs
    rcases hbs with hbs | rfl
    · rw [hcols', h.width bs hbs]
    · rw [hcols', hcols, hjoined.cols hne]
  · rw [hcount, gridCount_concat, h.count, hjoined.count]
  · intro r c
    rw [hcells, hblocks, gridCell?_concat, ← hheight, h.entry, hjoined.entry_single hne]

end Assembles

theorem assembles_nil : Assembles [] empty where
  wellFormed := wellFormed_empty
  height h := absurd rfl h
  width := by simp [blockRows]
  count := rfl
  entry r c := by
    rw [cell?_of_isEmpty rfl]
    rfl

theorem Fits.concat_of_eq_nil (h : Fits rows) (hrow : blocks row = []) : Fits (rows ++ [row]) := by
  have hrows := blockRows_concat_of_eq_nil rows hrow
  constructor
  · rw [hrows]
    exact h.level
  · rw [hrows]
    exact h.flush
  · rw [gridCount_concat, rowCount_eq_zero_iff.mpr hrow, Nat.add_zero]
    exact h.count_le

/-- A row of blocks goes below others exactly if it is as wide as what they make. -/
theorem fits_concat_iff (h : Assembles rows m) (hfits : Fits rows) (hm : m.isEmpty = false)
    (hjoined : RowAssembles row n) (hrow : RowFits row) (hsome : n.isEmpty = false) :
    Fits (rows ++ [row]) ↔ m.cols = n.cols ∧ m.count + n.count ≤ elementLimit := by
  have hne := hjoined.blocks_ne_nil hsome
  obtain ⟨bs, hbs⟩ := List.exists_mem_of_ne_nil _ (h.blockRows_ne_nil hm)
  have hblocks := blockRows_concat rows hne
  constructor
  · intro hall
    constructor
    · rw [h.width bs hbs, hjoined.cols hne]
      apply hall.flush <;> simp [hblocks, hbs]
    · have hcount := hall.count_le
      rwa [gridCount_concat, ← h.count, ← hjoined.count] at hcount
  · rintro ⟨hcols, hcount⟩
    constructor
    · intro cs hcs
      rw [hblocks, List.mem_append, List.mem_singleton] at hcs
      rcases hcs with hcs | rfl
      · exact hfits.level cs hcs
      · exact hrow.level
    · have hwidth : ∀ cs ∈ blockRows (rows ++ [row]), width cs = m.cols := by
        intro cs hcs
        rw [hblocks, List.mem_append, List.mem_singleton] at hcs
        rcases hcs with hcs | rfl
        · exact (h.width cs hcs).symm
        · rw [hcols, hjoined.cols hne]
      intro cs hcs ds hds
      rw [hwidth cs hcs, hwidth ds hds]
    · rwa [gridCount_concat, ← h.count, ← hjoined.count]

/-- The first row of blocks fits with rows that have none. -/
theorem fits_concat_first (h : Assembles rows m) (hempty : m.isEmpty = true) (hrow : RowFits row)
    (hne : blocks row ≠ []) : Fits (rows ++ [row]) := by
  have hnone := h.isEmpty_iff.mp hempty
  have hrows : blockRows (rows ++ [row]) = [blocks row] := by
    rw [blockRows_concat rows hne, hnone, List.nil_append]
  constructor
  · simpa [hrows] using hrow.level
  · simp [hrows]
  · rw [gridCount_concat, gridCount_eq_zero_iff.mpr hnone, Nat.zero_add]
    exact hrow.count_le

/-- A row goes below others exactly if it fits with the blocks there. -/
theorem above_outcome (h : Assembles rows m) (hfits : Fits rows) (hjoined : RowAssembles row n)
    (hrow : RowFits row) :
    (Fits (rows ++ [row]) → ∃ stacked, m.above n = .ok stacked ∧ Assembles (rows ++ [row]) stacked)
    ∧ (¬Fits (rows ++ [row]) → ∃ fault, m.above n = .error fault ∧ fault.IsShapeFault) := by
  cases hempty : m.isEmpty with
  | true =>
      rw [above_of_isEmpty_left hempty]
      cases hsome : n.isEmpty with
      | true =>
          have hnone := hjoined.isEmpty_iff.mp hsome
          refine ⟨fun _ => ⟨n, rfl, ?_⟩, fun hnot => absurd (hfits.concat_of_eq_nil hnone) hnot⟩
          exact h.concat_of_eq_nil hnone hjoined.wellFormed (.inl ⟨hempty, hsome⟩)
      | false =>
          have hne := hjoined.blocks_ne_nil hsome
          exact ⟨fun _ => ⟨n, rfl, h.concat_first hempty hjoined hsome⟩,
            fun hnot => absurd (fits_concat_first h hempty hrow hne) hnot⟩
  | false =>
      cases hsome : n.isEmpty with
      | true =>
          have hnone := hjoined.isEmpty_iff.mp hsome
          rw [above_of_isEmpty_right hempty hsome]
          refine ⟨fun _ => ⟨m, rfl, ?_⟩, fun hnot => absurd (hfits.concat_of_eq_nil hnone) hnot⟩
          exact h.concat_of_eq_nil hnone h.wellFormed (.inr rfl)
      | false =>
          have hiff := fits_concat_iff h hfits hempty hjoined hrow hsome
          constructor
          · intro hall
            obtain ⟨hcols, hcount⟩ := hiff.mp hall
            obtain ⟨stacked, hstacked, hwf, hrows, hcols', hsum, hcells⟩ :=
              exists_above h.wellFormed hjoined.wellFormed hempty hsome hcols hcount
            exact ⟨stacked, hstacked,
              h.concat hempty hjoined hsome hwf hcols hcols' hrows hsum hcells⟩
          · intro hnot
            exact exists_above_error h.wellFormed hjoined.wellFormed hempty hsome (hiff.not.mp hnot)

/-- Rows are joined and put above one another exactly if their blocks fit. -/
theorem stackAll_outcome (hwf : ∀ row ∈ rows, ∀ b ∈ row, b.WellFormed) :
    (Fits rows → ∃ m, stackAll rows = .ok m ∧ Assembles rows m)
    ∧ (¬Fits rows → ∃ fault, stackAll rows = .error fault ∧ fault.IsShapeFault) := by
  induction rows using List.reverseRecOn with
  | nil =>
      refine ⟨fun _ => ⟨empty, rfl, assembles_nil⟩, fun h => absurd ?_ h⟩
      exact ⟨by simp [blockRows], by simp [blockRows], Nat.zero_le _⟩
  | append_singleton rows row ih =>
      obtain ⟨hok, herror⟩ := ih fun r hr => hwf r (List.mem_append_left _ hr)
      obtain ⟨hjoin, hjoinError⟩ := joinAll_outcome (hwf row (by simp))
      rw [stackAll_concat]
      by_cases hfits : Fits rows
      · obtain ⟨m, hm, hassembles⟩ := hok hfits
        by_cases hrow : RowFits row
        · obtain ⟨n, hn, hjoined⟩ := hjoin hrow
          rw [hm, hn]
          exact above_outcome hassembles hfits hjoined hrow
        · obtain ⟨fault, hfault, hshape⟩ := hjoinError hrow
          rw [hm, hfault]
          exact ⟨fun h => absurd h.rowFits_of_concat hrow, fun _ => ⟨fault, rfl, hshape⟩⟩
      · obtain ⟨fault, hfault, hshape⟩ := herror hfits
        rw [hfault]
        exact ⟨fun h => absurd h.of_concat hfits, fun _ => ⟨fault, rfl, hshape⟩⟩

end Matrix

end MatrixScript
