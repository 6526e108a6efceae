import Mathlib.Data.List.ProdSigma
import Mathlib.Data.Nat.Find
import Mathlib.Order.Bounds.Basic
import Mathlib.Order.MinMax
import Mathlib.Order.Nat
import MatrixScript.Proofs.Cells
import MatrixScript.Proofs.Values.Indexing

/-!
# Writing one cell after another

An indexed assignment addresses a sequence of cells, in which a cell may occur several times. What
is in the cells afterwards can be said without the order in which they were written: a cell has the
value that belongs to its last occurrence, and one that does not occur has what it had before. This
is kept while the sequence is worked off.

Before anything is written the matrix grows just as far as the positions need. The cells that it has
keep their elements, and the new ones are zero: this is what an assignment that writes nothing gives.
-/

namespace MatrixScript

namespace Matrix

/-- The place `k` of the sequence is the last one at which the cell occurs. -/
structure LastAt (addressed : List (Nat × Nat)) (cell : Nat × Nat) (k : Nat) : Prop where
  here : addressed[k]? = some cell
  later : ∀ j, k < j → addressed[j]? ≠ some cell

/-- What is in the cells after the `k`-th of the addressed ones got `values k`, for one `k` after
another. Cells that are new and not addressed are zero. -/
structure Written (old : Matrix) (addressed : List (Nat × Nat)) (values : Nat → Complex)
    (new : Matrix) : Prop where
  inside : ∀ cell ∈ addressed, cell.1 < new.rows ∧ cell.2 < new.cols
  last : ∀ r c k, LastAt addressed (r, c) k → new.cell? r c = some (values k)
  kept : ∀ r < new.rows, ∀ c < new.cols, (r, c) ∉ addressed →
    new.cell? r c = some ((old.cell? r c).getD Complex.zero)

variable {old m n : Matrix} {addressed : List (Nat × Nat)} {values values' : Nat → Complex}
  {cell : Nat × Nat} {rows cols k : Nat}

/-! ### Last occurrences -/

theorem LastAt.lt (h : LastAt addressed cell k) : k < addressed.length :=
  (List.getElem?_eq_some_iff.mp h.here).1

theorem exists_lastAt (h : cell ∈ addressed) : ∃ k, LastAt addressed cell k := by
  obtain ⟨i, hi⟩ := List.mem_iff_getElem?.mp h
  have hlt := (List.getElem?_eq_some_iff.mp hi).1
  refine ⟨Nat.findGreatest (fun k => addressed[k]? = some cell) addressed.length, ?_, ?_⟩
  · exact Nat.findGreatest_spec (P := fun k => addressed[k]? = some cell) hlt.le hi
  · intro j hj hcell
    exact Nat.findGreatest_is_greatest hj (List.getElem?_eq_some_iff.mp hcell).1.le hcell

theorem lastAt_append (h : LastAt (addressed ++ [cell]) cell k) : k = addressed.length := by
  have hend : (addressed ++ [cell])[addressed.length]? = some cell := List.getElem?_concat_length
  have hle : k ≤ addressed.length := by
    have hlt := h.lt
    rw [List.length_append, List.length_singleton] at hlt
    omega
  by_contra hne
  exact h.later addressed.length (by omega) hend

theorem LastAt.of_append {other : Nat × Nat} (h : LastAt (addressed ++ [other]) cell k)
    (hne : cell ≠ other) : LastAt addressed cell k := by
  have hlt : k < addressed.length := by
    have hle := h.lt
    rw [List.length_append, List.length_singleton] at hle
    by_contra hnot
    have hend : k = addressed.length := by omega
    have hcell := h.here
    rw [hend, List.getElem?_concat_length] at hcell
    exact hne (Option.some.inj hcell).symm
  constructor
  · rw [← List.getElem?_append_left hlt]
    exact h.here
  · intro j hj hcell
    have hjlt := (List.getElem?_eq_some_iff.mp hcell).1
    apply h.later j hj
    rw [List.getElem?_append_left hjlt]
    exact hcell

/-! ### One write -/

/-- The state of an assignment that has worked off a part of its sequence. -/
structure Writing (old : Matrix) (rows cols : Nat) (done : List (Nat × Nat))
    (values : Nat → Complex) (m : Matrix) : Prop where
  wellFormed : m.WellFormed
  rows_eq : m.rows = rows
  cols_eq : m.cols = cols
  written : Written old done values m

theorem Written.setCell {done : List (Nat × Nat)} {r c : Nat} (h : Written old done values m)
    (hm : m.WellFormed) (hr : r < m.rows) (hc : c < m.cols) :
    Written old (done ++ [(r, c)]) values (m.setCell r c (values done.length)) := by
  constructor
  · intro cell hcell
    rcases List.mem_append.mp hcell with hdone | hlast
    · exact h.inside cell hdone
    · rw [List.mem_singleton.mp hlast]
      exact ⟨hr, hc⟩
  · intro r' c' k hk
    rw [cell?_setCell hm hr hc]
    by_cases hsame : r' = r ∧ c' = c
    · obtain ⟨rfl, rfl⟩ := hsame
      rw [if_pos ⟨rfl, rfl⟩, lastAt_append hk]
    · rw [if_neg hsame]
      exact h.last r' c' k (hk.of_append fun heq => hsame (Prod.mk.inj heq))
  · intro r' hr' c' hc' hnot
    rw [List.mem_append, not_or, List.mem_singleton] at hnot
    rw [cell?_setCell hm hr hc, if_neg fun hsame => hnot.2 (Prod.mk.injEq .. ▸ hsame)]
    exact h.kept r' hr' c' hc' hnot.1

theorem Writing.setCell {done : List (Nat × Nat)} {r c : Nat}
    (h : Writing old rows cols done values m) (hr : r < rows) (hc : c < cols) :
    Writing old rows cols (done ++ [(r, c)]) values (m.setCell r c (values done.length)) where
  wellFormed := h.wellFormed.setCell r c _
  rows_eq := h.rows_eq
  cols_eq := h.cols_eq
  written := h.written.setCell h.wellFormed (h.rows_eq.symm ▸ hr) (h.cols_eq.symm ▸ hc)

/-- What is written is determined by the sequence and its values. -/
theorem Writing.unique (hm : Writing old rows cols addressed values m)
    (hn : Writing old rows cols addressed values' n)
    (hvalues : ∀ k < addressed.length, values k = values' k) : m = n := by
  refine ext_cells hm.wellFormed hn.wellFormed (hm.rows_eq.trans hn.rows_eq.symm)
    (hm.cols_eq.trans hn.cols_eq.symm) fun r hr c hc => ?_
  by_cases hmem : (r, c) ∈ addressed
  · obtain ⟨k, hk⟩ := exists_lastAt hmem
    rw [hm.written.last r c k hk, hn.written.last r c k hk, hvalues k hk.lt]
  · have hrm : r < m.rows := hm.rows_eq.trans hn.rows_eq.symm ▸ hr
    have hcm : c < m.cols := hm.cols_eq.trans hn.cols_eq.symm ▸ hc
    rw [hm.written.kept r hrm c hcm hmem, hn.written.kept r hr c hc hmem]

end Matrix

/-! ### All writes -/

open MatrixScript.Matrix (Writing)

namespace Value

variable {old m : Matrix} {rows cols : Nat} {elements : Assigned}

theorem take_size {α : Type} (xs : Array α) : xs.toList.take xs.size = xs.toList :=
  List.take_of_length_le Array.length_toList.le

theorem writeLinear_writing {picked : Array Nat} (h : Writing old rows cols [] elements.get m)
    (hpicked : ∀ p ∈ picked.toList, p < rows * cols) :
    Writing old rows cols (picked.toList.map fun p => (p / cols, p % cols)) elements.get
      (writeLinear m picked elements) := by
  have hrun := fold_counts
    (P := fun k m =>
      Writing old rows cols ((picked.toList.take k).map fun p => (p / cols, p % cols)) elements.get m)
    (n := picked.size)
    (f := fun k _ m => m.setCell (picked[k] / m.cols) (picked[k] % m.cols) (elements.get k))
    h fun k hk m hm => ?_
  · rwa [take_size] at hrun
  · have hlength : ((picked.toList.take k).map fun p => (p / cols, p % cols)).length = k := by
      rw [List.length_map, List.length_take, Array.length_toList]
      omega
    have hplace := hpicked picked[k] (Array.getElem_mem_toList hk)
    have hstep := hm.setCell (Matrix.div_lt_of_place hplace) (Matrix.mod_lt_of_place hplace)
    rw [hlength] at hstep
    rw [hm.cols_eq, List.take_succ_eq_append_getElem (hk.trans_eq Array.length_toList.symm),
      List.map_append, List.map_singleton, Array.getElem_toList]
    exact hstep

theorem writeRow_writing {done : List (Nat × Nat)} {r : Nat} {cs : Array Nat}
    (h : Writing old rows cols done elements.get m) (hr : r < rows)
    (hcs : ∀ c ∈ cs.toList, c < cols) :
    Writing old rows cols (done ++ cs.toList.map fun c => (r, c)) elements.get
      (cs.size.fold (fun j _ m => m.setCell r cs[j] (elements.get (done.length + j))) m) := by
  have hrun := fold_counts
    (P := fun j m =>
      Writing old rows cols (done ++ (cs.toList.take j).map fun c => (r, c)) elements.get m)
    (n := cs.size) (f := fun j _ m => m.setCell r cs[j] (elements.get (done.length + j)))
    (by rwa [List.take_zero, List.map_nil, List.append_nil]) fun j hj m hm => ?_
  · rwa [take_size] at hrun
  · have hlength : (done ++ (cs.toList.take j).map fun c => (r, c)).length = done.length + j := by
      rw [List.length_append, List.length_map, List.length_take, min_eq_left]
      exact (hj.trans_eq Array.length_toList.symm).le
    have hstep := hm.setCell hr (hcs cs[j] (Array.getElem_mem_toList hj))
    rw [hlength] at hstep
    rw [List.take_succ_eq_append_getElem (hj.trans_eq Array.length_toList.symm), List.map_append,
      List.map_singleton, Array.getElem_toList, ← List.append_assoc]
    exact hstep

theorem writeCells_writing {rs cs : Array Nat} (h : Writing old rows cols [] elements.get m)
    (hrs : ∀ r ∈ rs.toList, r < rows) (hcs : ∀ c ∈ cs.toList, c < cols) :
    Writing old rows cols (rs.toList ×ˢ cs.toList) elements.get (writeCells m rs cs elements) := by
  have hrun := fold_counts
    (P := fun i m => Writing old rows cols (rs.toList.take i ×ˢ cs.toList) elements.get m)
    (n := rs.size)
    (f := fun i _ m =>
      cs.size.fold (fun j _ m => m.setCell rs[i] cs[j] (elements.get (i * cs.size + j))) m)
    h fun i hi m hm => ?_
  · rwa [take_size] at hrun
  · have hlength : (rs.toList.take i ×ˢ cs.toList).length = i * cs.size := by
      rw [List.length_product, List.length_take, Array.length_toList, Array.length_toList,
        Nat.min_eq_left hi.le]
    have hstep := writeRow_writing hm (hrs rs[i] (Array.getElem_mem_toList hi)) hcs
    rw [hlength] at hstep
    have hnext : rs.toList.take (i + 1) ×ˢ cs.toList
        = rs.toList.take i ×ˢ cs.toList ++ cs.toList.map fun c => (rs[i], c) := by
      rw [List.take_succ_eq_append_getElem (hi.trans_eq Array.length_toList.symm),
        Array.getElem_toList]
      exact List.flatMap_append.trans (congrArg _ (List.flatMap_singleton _ _))
    rw [hnext]
    exact hstep

end Value

/-! ### Making room -/

/-- The extent from `a` on that has all positions in it. -/
theorem foldl_extent_least (positions : List Nat) (a : Nat) :
    IsLeast {n | a ≤ n ∧ ∀ p ∈ positions, p < n} (positions.foldl (fun n p => max n (p + 1)) a) := by
  induction positions generalizing a with
  | nil => exact ⟨⟨le_rfl, fun _ hp => absurd hp List.not_mem_nil⟩, fun _ hn => hn.1⟩
  | cons p rest ih =>
      obtain ⟨⟨hle, hrest⟩, hleast⟩ := ih (max a (p + 1))
      constructor
      · refine ⟨le_of_max_le_left hle, fun q hq => ?_⟩
        rcases List.mem_cons.mp hq with rfl | hq
        · exact le_of_max_le_right hle
        · exact hrest q hq
      · intro n hn
        obtain ⟨hp, hall⟩ := List.forall_mem_cons.mp hn.2
        exact hleast ⟨max_le hn.1 hp, hall⟩

namespace Value

theorem extentOf_least (positions : Array Nat) :
    IsLeast {n | ∀ p ∈ positions.toList, p < n} (extentOf positions) := by
  have hleast := foldl_extent_least positions.toList 0
  rw [Array.foldl_toList] at hleast
  exact ⟨hleast.1.2, fun n hn => hleast.2 ⟨Nat.zero_le n, hn⟩⟩

theorem max_extentOf_least (positions : Array Nat) (extent : Nat) :
    IsLeast {n | extent ≤ n ∧ ∀ p ∈ positions.toList, p < n} (max (extentOf positions) extent) := by
  obtain ⟨hall, hleast⟩ := extentOf_least positions
  refine ⟨⟨le_max_right _ _, fun p hp => ?_⟩, fun n hn => max_le (hleast hn.2) hn.1⟩
  exact lt_of_lt_of_le (hall p hp) (le_max_left _ _)

end Value

/-! ### Shapes -/

/-- The shape that a matrix needs for linear positions. It changes if one of them is past the end,
and then only a row or a column can be made longer. -/
inductive Matrix.Lengthened (m : Matrix) (positions : List Nat) (rows cols : Nat) : Prop where
  | kept (hall : ∀ p ∈ positions, p < m.count) (hrows : rows = m.rows) (hcols : cols = m.cols)
  | row (hpast : ∃ p ∈ positions, m.count ≤ p) (hshape : m.count = 0 ∨ m.rows = 1)
      (hrows : rows = 1) (hcols : IsLeast {n | ∀ p ∈ positions, p < n} cols)
  | column (hpast : ∃ p ∈ positions, m.count ≤ p) (hnot : ¬(m.count = 0 ∨ m.rows = 1))
      (hshape : m.cols = 1) (hrows : IsLeast {n | ∀ p ∈ positions, p < n} rows) (hcols : cols = 1)

namespace Matrix

variable {m n : Matrix} {rows cols : Nat}

theorem WellFormed.writing_nil (h : m.WellFormed) (values : Nat → Complex) :
    Writing m m.rows m.cols [] values m := by
  refine ⟨h, rfl, rfl, fun _ hcell => absurd hcell List.not_mem_nil, fun r c k hk => ?_,
    fun r hr c hc _ => ?_⟩
  · exact absurd hk.lt (Nat.not_lt_zero k)
  · obtain ⟨z, hz⟩ := h.exists_cell? hr hc
    rw [hz, Option.getD_some]

theorem writing_generate (hlimit : rows * cols ≤ elementLimit) (values : Nat → Complex) :
    Writing m rows cols [] values
      (generate rows cols fun r c => (m.cell? r c).getD Complex.zero) := by
  refine ⟨wellFormed_generate hlimit _, rfl, rfl, fun _ hcell => absurd hcell List.not_mem_nil,
    fun r c k hk => absurd hk.lt (Nat.not_lt_zero k), fun r hr c hc _ => ?_⟩
  exact cell?_generate _ hr hc

theorem resized_eq_ok_iff (values : Nat → Complex) :
    m.resized rows cols = .ok n ↔ Writing m rows cols [] values n := by
  constructor
  · intro h
    cases hcount : elementCount rows cols with
    | error fault =>
        rw [resized, ofCells, hcount] at h
        cases h
    | ok count =>
        rw [resized, ofCells, hcount] at h
        cases h
        exact writing_generate (elementCount_eq_ok_iff.mp hcount).2 values
  · intro h
    have hlimit : rows * cols ≤ elementLimit := by
      rw [← h.rows_eq, ← h.cols_eq]
      exact h.wellFormed.size_le
    rw [resized, ofCells, elementCount_eq_ok_iff.mpr ⟨rfl, hlimit⟩,
      h.unique (writing_generate hlimit values) fun _ _ => rfl]
    rfl

end Matrix

namespace Value

variable {m n : Matrix} {picked : Array Nat} {rows cols : Nat}

theorem past_iff : (∃ p ∈ picked.toList, m.count ≤ p) ↔ ¬extentOf picked ≤ m.count := by
  obtain ⟨hall, hleast⟩ := extentOf_least picked
  constructor
  · rintro ⟨p, hp, hpast⟩ hfits
    exact absurd ((hall p hp).trans_le hfits) (not_lt.mpr hpast)
  · intro h
    by_contra hnone
    refine h (hleast fun p hp => ?_)
    by_contra hpast
    exact hnone ⟨p, hp, not_lt.mp hpast⟩

theorem lengthened_kept_iff (hfits : extentOf picked ≤ m.count) :
    m.Lengthened picked.toList rows cols ↔ rows = m.rows ∧ cols = m.cols := by
  constructor
  · intro h
    cases h with
    | kept _ hrows hcols => exact ⟨hrows, hcols⟩
    | row hpast | column hpast => exact absurd hfits (past_iff.mp hpast)
  · rintro ⟨hrows, hcols⟩
    exact .kept (fun p hp => ((extentOf_least picked).1 p hp).trans_le hfits) hrows hcols

theorem lengthened_row_iff (hpast : ¬extentOf picked ≤ m.count)
    (hshape : m.count = 0 ∨ m.rows = 1) :
    m.Lengthened picked.toList rows cols ↔ rows = 1 ∧ cols = extentOf picked := by
  constructor
  · intro h
    cases h with
    | kept hall => exact absurd ((extentOf_least picked).2 hall) hpast
    | row _ _ hrows hcols => exact ⟨hrows, hcols.unique (extentOf_least picked)⟩
    | column _ hnot => exact absurd hshape hnot
  · rintro ⟨hrows, rfl⟩
    exact .row (past_iff.mpr hpast) hshape hrows (extentOf_least picked)

theorem lengthened_column_iff (hpast : ¬extentOf picked ≤ m.count)
    (hnot : ¬(m.count = 0 ∨ m.rows = 1)) :
    m.Lengthened picked.toList rows cols ↔ m.cols = 1 ∧ rows = extentOf picked ∧ cols = 1 := by
  constructor
  · intro h
    cases h with
    | kept hall => exact absurd ((extentOf_least picked).2 hall) hpast
    | row _ hshape => exact absurd hshape hnot
    | column _ _ hshape hrows hcols =>
        exact ⟨hshape, hrows.unique (extentOf_least picked), hcols⟩
  · rintro ⟨hshape, rfl, hcols⟩
    exact .column (past_iff.mpr hpast) hnot hshape (extentOf_least picked) hcols

/-- A matrix of a shape that is known. -/
theorem writing_shape_iff {values : Nat → Complex} :
    (n.rows = rows ∧ n.cols = cols) ∧ Writing m n.rows n.cols [] values n
      ↔ Writing m rows cols [] values n := by
  constructor
  · rintro ⟨⟨hrows, hcols⟩, h⟩
    exact ⟨h.wellFormed, hrows, hcols, h.written⟩
  · intro h
    exact ⟨⟨h.rows_eq, h.cols_eq⟩, h.wellFormed, rfl, rfl, h.written⟩

theorem growLinear_eq_ok_iff (hm : m.WellFormed) (values : Nat → Complex) :
    growLinear m (extentOf picked) = .ok n
      ↔ m.Lengthened picked.toList n.rows n.cols ∧ Writing m n.rows n.cols [] values n := by
  have hempty : (m.isEmpty || decide (m.rows = 1)) = true ↔ m.count = 0 ∨ m.rows = 1 := by
    rw [Bool.or_eq_true, decide_eq_true_iff]
    exact or_congr_left Array.isEmpty_iff_size_eq_zero
  unfold growLinear
  by_cases hfits : extentOf picked ≤ m.count
  · rw [if_pos hfits, lengthened_kept_iff hfits, writing_shape_iff]
    have hkept := hm.writing_nil values
    constructor
    · intro h
      cases h
      exact hkept
    · intro h
      exact congrArg Except.ok (hkept.unique h fun _ _ => rfl)
  · rw [if_neg hfits]
    by_cases hrow : m.count = 0 ∨ m.rows = 1
    · rw [if_pos (hempty.mpr hrow), lengthened_row_iff hfits hrow, writing_shape_iff]
      exact Matrix.resized_eq_ok_iff values
    · rw [if_neg (mt hempty.mp hrow), lengthened_column_iff hfits hrow]
      by_cases hcolumn : m.cols = 1
      · rw [if_pos hcolumn, and_iff_right hcolumn, writing_shape_iff]
        exact Matrix.resized_eq_ok_iff values
      · rw [if_neg hcolumn]
        constructor
        · intro h
          cases h
        · rintro ⟨⟨h, -⟩, -⟩
          exact absurd h hcolumn

theorem exists_growLinear (hm : m.WellFormed) (h : m.Lengthened picked.toList rows cols)
    (hlimit : rows * cols ≤ elementLimit) (values : Nat → Complex) :
    ∃ n, growLinear m (extentOf picked) = .ok n ∧ Writing m rows cols [] values n :=
  have hwriting := Matrix.writing_generate hlimit values
  ⟨_, (growLinear_eq_ok_iff hm values).mpr ⟨h, hwriting⟩, hwriting⟩

theorem growTo_eq_ok_iff (hm : m.WellFormed) (values : Nat → Complex) :
    growTo m rows cols = .ok n ↔ Writing m rows cols [] values n := by
  unfold growTo
  by_cases hsame : (rows, cols) = m.shape
  · obtain ⟨rfl, rfl⟩ := Prod.mk.inj hsame
    have hkept := hm.writing_nil values
    rw [if_pos hsame]
    constructor
    · intro h
      cases h
      exact hkept
    · intro h
      exact congrArg Except.ok (hkept.unique h fun _ _ => rfl)
  · rw [if_neg hsame]
    exact Matrix.resized_eq_ok_iff values

end Value

end MatrixScript
