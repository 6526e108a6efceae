import MatrixScript.Proofs.Blocks.Literals
import MatrixScript.Proofs.Blocks.Scalars
import MatrixScript.Proofs.Display.Rows
import MatrixScript.Value.Equality

/-!
# Displayed values as queries

What is shown for a real number or for a matrix of real numbers is itself a text of the language.
Reading it gives the node of a number, or that of a matrix literal with one such node for each
element, and the literal puts the elements back where they were.
-/

namespace MatrixScript

open Evaluation

variable {s : Setting} {fuel : Nat} {x y : Double} {m : Machine} {id : NodeId}

/-! ### Equal numbers -/

/-- What is read for a number is equal to it if reading gives its magnitude back. -/
theorem Double.eq_reread (hx : x.isFinite = true)
    (hread : Decimal.toDouble x.abs.text.toList = x.abs) : x.reread.eq x = true := by
  rw [reread, hread]
  by_cases hsign : (x.isNegative && !x.isZero) = true
  · rw [if_pos hsign, neg_abs (Bool.and_eq_true_iff.mp hsign).1]
    exact eq_self (isNaN_of_isFinite hx)
  · rw [if_neg hsign]
    by_cases hzero : x.isZero = true
    · have habs : x.abs.isZero = true := by rwa [isZero, magnitude_abs]
      exact eq_of_isZero habs hzero
    · have hpos : x.isNegative = false := by simpa [hzero] using hsign
      rw [abs_of_not_negative hpos]
      exact eq_self (isNaN_of_isFinite hx)

theorem Double.eq_comm (x y : Double) : x.eq y = y.eq x := by
  rw [eq, eq, Bool.and_comm (!x.isNaN), Bool.beq_comm, Bool.and_comm x.isZero]

/-- Matrices of one shape with equal elements are equal. -/
theorem Matrix.eq_of_cells {a b : Matrix} (ha : a.WellFormed) (hb : b.WellFormed)
    (hrows : a.rows = b.rows) (hcols : a.cols = b.cols)
    (h : ∀ r c z w, a.cell? r c = some z → b.cell? r c = some w → z.eq w = true) :
    a.eq b = true := by
  have hsize : a.data.size = b.data.size := by rw [ha.size_eq, hb.size_eq, hrows, hcols]
  have hcells {k : Nat} (hka : k < a.data.size) (hkb : k < b.data.size) :
      a.data[k].eq b.data[k] = true := by
    have hplace : k < a.rows * a.cols := ha.size_eq ▸ hka
    have hr := div_lt_of_place hplace
    have hc := mod_lt_of_place hplace
    have hk : k / a.cols * a.cols + k % a.cols = k := Nat.div_add_mod' k a.cols
    have hza := cell?_of_lt hr hc
    have hwb := cell?_of_lt (m := b) (hrows ▸ hr) (hcols ▸ hc)
    rw [hk, Array.getElem?_eq_getElem hka] at hza
    rw [← hcols, hk, Array.getElem?_eq_getElem hkb] at hwb
    exact h _ _ _ _ hza hwb
  rw [eq, hrows, hcols, hsize]
  simp only [BEq.rfl, Bool.true_and]
  rw [Array.all_eq_true]
  intro k hk
  rw [Array.getElem_zip]
  exact hcells _ _

/-! ### Evaluation -/

/-- A number with this real part, and with either zero as its imaginary part. -/
def Complex.Stands (x : Double) (z : Complex) : Prop := z.re = x ∧ z.isReal = true

namespace Setting

theorem evaluate_writes (h : s.forest.Writes x id) :
    ∃ z, Complex.Stands x z
      ∧ ∀ fuel m, (evaluate (fuel + 2) s id).run.run m = (.ok (.scalar z), m) := by
  cases h with
  | number h =>
      refine ⟨.ofReal x, ⟨rfl, ?_⟩, fun fuel m => ?_⟩
      · have hzero : Double.zero.isZero = true := by decide
        exact hzero
      · exact run_evaluate_ofResult (r := .ok (.real x)) h rfl
  | @negated operand y span inner h hoperand hx =>
      refine ⟨-(Complex.ofReal y), ⟨hx.symm, ?_⟩, fun fuel m => ?_⟩
      · have hzero : (-Double.zero).isZero = true := by decide
        exact hzero
      · have hinner : (evaluate (fuel + 1) s operand).run.run m = (.ok (.real y), m) :=
          run_evaluate_ofResult (r := .ok (.real y)) hoperand rfl
        refine run_evaluate_ofResult (r := .ok (.scalar (-(Complex.ofReal y)))) h ?_
        exact run_bind_of_ok hinner

theorem exists_row {xs : List Double} {ids : List NodeId}
    (h : List.Forall₂ s.forest.Writes xs ids) :
    ∃ zs, List.Forall₂ Complex.Stands xs zs
      ∧ ∀ fuel m, s.Row (evaluate (fuel + 2)) ids m (Matrix.scalars zs) m := by
  induction h with
  | nil => exact ⟨[], .nil, fun fuel m => .nil m⟩
  | cons hwrites _ ih =>
      obtain ⟨zs, hzs, hrow⟩ := ih
      obtain ⟨z, hz, hrun⟩ := evaluate_writes hwrites
      exact ⟨z :: zs, .cons hz hzs, fun fuel m => .cons (hrun fuel m) trivial rfl (hrow fuel m)⟩

theorem exists_grid {xss : List (List Double)} {idss : List (List NodeId)}
    (h : List.Forall₂ (List.Forall₂ s.forest.Writes) xss idss) :
    ∃ zss, List.Forall₂ (List.Forall₂ Complex.Stands) xss zss
      ∧ ∀ fuel m, s.Grid (evaluate (fuel + 2)) idss m (zss.map Matrix.scalars) m := by
  induction h with
  | nil => exact ⟨[], .nil, fun fuel m => .nil m⟩
  | cons hwrites _ ih =>
      obtain ⟨zss, hzss, hgrid⟩ := ih
      obtain ⟨zs, hzs, hrow⟩ := exists_row hwrites
      exact ⟨zs :: zss, .cons hzs hzss, fun fuel m => .cons (hrow fuel m) (hgrid fuel m)⟩

/-- A matrix literal of written numbers has these as its elements. -/
theorem evaluate_written {xss : List (List Double)} {idss : List (List NodeId)} {span : Span}
    (hid : s.forest.get? id = some ⟨.matrix idss, span⟩)
    (h : List.Forall₂ (List.Forall₂ s.forest.Writes) xss idss) (hne : xss ≠ []) {n : Nat}
    (hpos : 0 < n) (hn : ∀ row ∈ xss, row.length = n) (hcount : xss.length * n ≤ elementLimit) :
    ∃ a : Matrix, a.WellFormed ∧ a.rows = xss.length ∧ a.cols = n
      ∧ (∀ r c z row x, a.cell? r c = some z → xss[r]? = some row → row[c]? = some x →
        Complex.Stands x z)
      ∧ ∀ fuel m, (evaluate (fuel + 3) s id).run.run m = (.ok (.ofMatrix a), m) := by
  obtain ⟨zss, hstands, hgrid⟩ := exists_grid h
  have hlength : zss.length = xss.length := hstands.length_eq.symm
  have hlengths : zss.map List.length = xss.map List.length := by
    clear hgrid hlength hne hn hcount h
    induction hstands with
    | nil => rfl
    | cons hrow _ ih => rw [List.map_cons, List.map_cons, hrow.length_eq, ih]
  have hzn : ∀ zs ∈ zss, zs.length = n := by
    intro zs hzs
    have hmem : zs.length ∈ xss.map List.length := hlengths ▸ List.mem_map_of_mem hzs
    obtain ⟨row, hrow, hrowlen⟩ := List.mem_map.mp hmem
    rw [← hrowlen, hn row hrow]
  have hzne : ∀ zs ∈ zss, zs ≠ [] := by
    rintro zs hzs rfl
    have hzero := hzn [] hzs
    rw [List.length_nil] at hzero
    omega
  have hfits : Matrix.Fits (zss.map Matrix.scalars) :=
    Matrix.fits_scalars hzne hzn (by rw [hlength]; exact hcount)
  have hsome : zss ≠ [] := by
    rintro rfl
    exact hne (List.length_eq_zero_iff.mp hlength.symm)
  have hwell := (hgrid 0 ⟨Environment.empty, 0, 0, []⟩).wellFormed
  obtain ⟨a, hstacked, ha⟩ := (Matrix.stackAll_outcome hwell).1 hfits
  obtain ⟨hrows, hcols, hcells⟩ := ha.of_scalars hsome hzne hzn
  refine ⟨a, ha.wellFormed, hrows.trans hlength, hcols, ?_, fun fuel m => ?_⟩
  · intro r c z row x hz hrow hx
    rw [hcells, Option.bind_eq_some_iff] at hz
    obtain ⟨zs, hzs, hz⟩ := hz
    obtain ⟨hr, rfl⟩ := List.getElem?_eq_some_iff.mp hrow
    obtain ⟨hr', rfl⟩ := List.getElem?_eq_some_iff.mp hzs
    obtain ⟨hc, rfl⟩ := List.getElem?_eq_some_iff.mp hx
    obtain ⟨hc', rfl⟩ := List.getElem?_eq_some_iff.mp hz
    exact (hstands.get hr hr').get hc hc'
  · refine run_evaluate_ofResult (r := .ok (.ofMatrix a)) hid ?_
    exact run_literal_of_stackAll (hgrid fuel m) hstacked

end Setting

/-! ### What is shown -/

namespace Matrix

variable {a m : Matrix}

/-- The real parts of the elements, row by row. -/
def reals (m : Matrix) : List (List Double) :=
  (List.range m.rows).map fun r => (List.range m.cols).map fun c => (m.cell r c).re

/-- Elements that are real and finite. -/
def IsFinite (m : Matrix) : Prop :=
  ∀ r c z, m.cell? r c = some z → z.re.isFinite = true ∧ z.isReal = true

theorem exists_reals (hm : m.WellFormed) {r c : Nat} {z : Complex} (hz : m.cell? r c = some z) :
    ∃ row, m.reals[r]? = some row ∧ row[c]? = some z.re := by
  have hinside : r < m.rows ∧ c < m.cols := by
    by_contra hout
    rw [cell?_of_not_lt hout] at hz
    cases hz
  rw [cell?_eq_some_cell hm hinside.1 hinside.2, Option.some.injEq] at hz
  refine ⟨(List.range m.cols).map fun c => (m.cell r c).re, ?_, ?_⟩
  · rw [reals, List.getElem?_map, List.getElem?_range hinside.1, Option.map_some]
  · rw [List.getElem?_map, List.getElem?_range hinside.2, Option.map_some, hz]

theorem length_reals (m : Matrix) : m.reals.length = m.rows := by simp [reals]

theorem length_of_mem_reals {row : List Double} (h : row ∈ m.reals) : row.length = m.cols := by
  obtain ⟨r, -, rfl⟩ := List.mem_map.mp h
  rw [List.length_map, List.length_range]

theorem isFinite_of_mem_reals (hm : m.WellFormed) (hfinite : m.IsFinite) {row : List Double}
    (h : row ∈ m.reals) : ∀ x ∈ row, x.isFinite = true := by
  obtain ⟨r, hr, rfl⟩ := List.mem_map.mp h
  intro x hx
  obtain ⟨c, hc, rfl⟩ := List.mem_map.mp hx
  have hcell := cell?_eq_some_cell hm (List.mem_range.mp hr) (List.mem_range.mp hc)
  exact (hfinite r c _ hcell).1

/-- A matrix is shown as the real parts of its elements, between brackets. -/
theorem text_eq (hm : m.WellFormed) (hsome : m.isEmpty = false) (hfinite : m.IsFinite) :
    m.text.toList = '[' :: (Display.gridChars m.reals ++ [']']) := by
  have hrow (r : Nat) (hr : r < m.rows) :
      (m.rowText r).toList
        = Display.rowChars ((List.range m.cols).map fun c => (m.cell r c).re) := by
    rw [rowText, String.toList_intercalate, Display.rowChars, List.map_map, List.map_map]
    have hseparator : ", ".toList = [',', ' '] := rfl
    rw [hseparator]
    congr 1
    apply List.map_congr_left
    intro c hc
    have hcell := cell?_eq_some_cell hm hr (List.mem_range.mp hc)
    have himag : (m.cell r c).im.isZero = true := (hfinite r c _ hcell).2
    simp [Complex.text, himag]
  have hopen : "[".toList = ['['] := rfl
  have hclose : "]".toList = [']'] := rfl
  have hseparator : "; ".toList = [';', ' '] := rfl
  rw [text, hsome, if_neg Bool.false_ne_true, String.toList_append, String.toList_append,
    String.toList_intercalate, hopen, hclose, hseparator, Display.gridChars, reals, List.map_map,
    List.map_map, List.singleton_append, List.cons_append]
  congr 3
  apply List.map_congr_left
  intro r hr
  exact hrow r (List.mem_range.mp hr)

end Matrix

theorem Matrix.scalar?_eq_some_iff {m : Matrix} {z : Complex} :
    m.scalar? = some z ↔ m.rows = 1 ∧ m.cols = 1 ∧ m.cell? 0 0 = some z := by
  rw [scalar?]
  by_cases hshape : m.rows = 1 ∧ m.cols = 1
  · have hcell : m.cell? 0 0 = m.data[0]? := by
      rw [cell?_of_lt (by omega) (by omega), Nat.zero_mul, Nat.zero_add]
    rw [if_pos hshape, hcell]
    tauto
  · rw [if_neg hshape]
    simp only [reduceCtorEq, false_iff]
    tauto

/-- A matrix with equal elements is equal, also if it is unwrapped. -/
theorem Value.eq_ofMatrix {a m : Matrix} (ha : a.WellFormed) (hm : m.WellFormed)
    (hrows : a.rows = m.rows) (hcols : a.cols = m.cols)
    (h : ∀ r c z w, a.cell? r c = some z → m.cell? r c = some w → z.eq w = true) :
    (ofMatrix a).eq (.matrix m) = true := by
  cases hz : a.scalar? with
  | none =>
      have hvalue : ofMatrix a = .matrix a := by rw [ofMatrix, hz]
      rw [hvalue, Value.eq]
      exact Matrix.eq_of_cells ha hm hrows hcols h
  | some z =>
      have hvalue : ofMatrix a = .scalar z := by rw [ofMatrix, hz]
      obtain ⟨hrow, hcol, hcell⟩ := Matrix.scalar?_eq_some_iff.mp hz
      obtain ⟨w, hw⟩ := hm.exists_cell? (show 0 < m.rows by omega) (show 0 < m.cols by omega)
      have hscalar : m.scalar? = some w :=
        Matrix.scalar?_eq_some_iff.mpr ⟨hrows ▸ hrow, hcols ▸ hcol, hw⟩
      have heq := h 0 0 z w hcell hw
      rw [Complex.eq, Double.eq_comm, Double.eq_comm z.im] at heq
      rw [hvalue, Value.eq, hscalar, Option.any_some, Complex.eq, heq]

theorem Complex.Stands.eq {x : Double} {z w : Complex} (h : Stands x z)
    (hx : x.eq w.re = true) (hw : w.isReal = true) : z.eq w = true := by
  rw [Complex.eq, h.1, hx, Double.eq_of_isZero h.2 hw, Bool.and_true]

namespace Session

variable {s : Session} {fuel : Nat}

section Query

variable (hgrammar : s.grammar = Grammar.standard) (hclock : s.InTime)

include hgrammar hclock

theorem query_number {z : Complex} (hfinite : z.re.isFinite = true) (hreal : z.isReal = true)
    (hread : Decimal.toDouble z.re.abs.text.toList = z.re.abs) (hfuel : 2 ≤ fuel) :
    ∃ w : Complex, s.query fuel z.text = (.ok [some (.scalar w)], s) ∧ w.eq z = true := by
  obtain ⟨fuel, rfl⟩ := Nat.exists_eq_add_of_le' hfuel
  have himag : z.im.isZero = true := hreal
  have htext : z.text = z.re.text := by simp [Complex.text, himag]
  obtain ⟨forest, id, hparse, hwrites⟩ := Display.parse_number hfinite
  obtain ⟨w, hw, hrun⟩ := Setting.evaluate_writes (s := s.setting forest) hwrites
  refine ⟨w, ?_, hw.eq (Double.eq_reread hfinite hread) hreal⟩
  rw [htext, query_of_parse (hgrammar ▸ hparse), execute_single hclock _ fun checks => hrun fuel _]
  rfl

theorem query_matrix {m : Matrix} (hm : m.WellFormed) (hsome : m.isEmpty = false)
    (hfinite : m.IsFinite)
    (hread : ∀ r c z, m.cell? r c = some z → Decimal.toDouble z.re.abs.text.toList = z.re.abs)
    (hfuel : 3 ≤ fuel) :
    ∃ a : Matrix, s.query fuel m.text = (.ok [some (.ofMatrix a)], s)
      ∧ (Value.ofMatrix a).eq (.matrix m) = true ∧ a.rows = m.rows ∧ a.cols = m.cols := by
  obtain ⟨fuel, rfl⟩ := Nat.exists_eq_add_of_le' hfuel
  have hcount : m.rows * m.cols ≠ 0 := by
    rw [← hm.size_eq]
    simpa [Matrix.isEmpty] using hsome
  obtain ⟨hrows, hcols⟩ := Nat.mul_ne_zero_iff.mp hcount
  have hne : m.reals ≠ [] := by
    rw [← List.length_pos_iff, Matrix.length_reals]
    omega
  have hrow : ∀ row ∈ m.reals, row ≠ [] ∧ ∀ x ∈ row, x.isFinite = true := by
    intro row hmem
    refine ⟨?_, Matrix.isFinite_of_mem_reals hm hfinite hmem⟩
    rw [← List.length_pos_iff, Matrix.length_of_mem_reals hmem]
    omega
  have hroom : 2 * (m.reals.map List.length).sum < 4294967295 := by
    have hle := hm.size_le
    rw [Matrix.sum_length_of_forall fun _ => Matrix.length_of_mem_reals, Matrix.length_reals]
    have hlimit : elementLimit = 134217728 := rfl
    omega
  obtain ⟨forest, id, idss, span, hparse, hid, hwrites⟩ := Display.parse_grid hne hrow hroom
  rw [← Matrix.text_eq hm hsome hfinite] at hparse
  obtain ⟨a, ha, harows, hacols, hcells, hrun⟩ := Setting.evaluate_written (s := s.setting forest)
    (n := m.cols) hid hwrites (by simpa using hne) (by omega)
    (by
      intro row hmem
      obtain ⟨row', hrow', rfl⟩ := List.mem_map.mp hmem
      rw [List.length_map, Matrix.length_of_mem_reals hrow'])
    (by
      rw [List.length_map, Matrix.length_reals]
      exact hm.size_le)
  rw [List.length_map, Matrix.length_reals] at harows
  refine ⟨a, ?_, Value.eq_ofMatrix ha hm harows hacols ?_, harows, hacols⟩
  · rw [query_of_parse (hgrammar ▸ hparse), execute_single hclock _ fun checks => hrun fuel _]
    rfl
  · intro r c z w hz hw
    obtain ⟨row, hr, hc⟩ := Matrix.exists_reals hm hw
    obtain ⟨hentry, hreal⟩ := hfinite r c w hw
    have hrow' : (m.reals.map fun row => row.map Double.reread)[r]?
        = some (row.map Double.reread) := by
      rw [List.getElem?_map, hr, Option.map_some]
    have hx : (row.map Double.reread)[c]? = some w.re.reread := by
      rw [List.getElem?_map, hc, Option.map_some]
    exact (hcells r c z _ _ hz hrow' hx).eq (Double.eq_reread hentry (hread r c w hw)) hreal

end Query

/-- What is shown for a number or a matrix of numbers that are real and finite is a query for a
value that is equal to it and has its shape, if the decimals of the magnitudes read back. -/
theorem query_display {v : Value} {m : Matrix}
    (hv : v = .matrix m ∨ ∃ z, v = .scalar z ∧ m = .scalar z) (hm : m.WellFormed)
    (hsome : m.isEmpty = false) (hfinite : m.IsFinite)
    (hread : ∀ r c z, m.cell? r c = some z → Decimal.toDouble z.re.abs.text.toList = z.re.abs)
    (hfuel : 3 ≤ fuel) :
    ∃ a : Matrix, Session.standard.query fuel v.display
        = (.ok [some (.ofMatrix a)], Session.standard)
      ∧ (Value.ofMatrix a).eq v = true ∧ a.rows = m.rows ∧ a.cols = m.cols := by
  obtain rfl | ⟨z, rfl, rfl⟩ := hv
  · exact query_matrix rfl inTime_standard hm hsome hfinite hread hfuel
  · have hcell : (Matrix.scalar z).cell? 0 0 = some z := rfl
    obtain ⟨hz, hreal⟩ := hfinite 0 0 z hcell
    obtain ⟨w, hquery, heq⟩ :=
      query_number rfl inTime_standard hz hreal (hread 0 0 z hcell) (Nat.le_of_succ_le hfuel)
    refine ⟨.scalar w, hquery, ?_, rfl, rfl⟩
    have hvalue : Value.ofMatrix (.scalar w) = .scalar w := rfl
    rw [hvalue, Value.eq]
    exact heq

/-- Two rows with a fraction, a negative number, a zero and a large number. -/
theorem query_display_square :
    let m : Matrix := ⟨2, 2, #[.ofReal ⟨0x3FB999999999999A⟩, .ofReal ⟨0xC004000000000000⟩,
      .ofReal Double.negativeZero, .ofReal ⟨0x46293E5939A08CEA⟩]⟩
    (Value.matrix m).display = "[0.1, -2.5; 0, 1000000000000000000000000000000]"
      ∧ ∃ a : Matrix, Session.standard.query 3 (Value.matrix m).display
          = (.ok [some (.ofMatrix a)], Session.standard)
        ∧ (Value.ofMatrix a).eq (.matrix m) = true ∧ a.rows = m.rows ∧ a.cols = m.cols := by
  intro m
  have hm : m.WellFormed := ⟨rfl, by decide⟩
  have hcell : ∀ r c z, m.cell? r c = some z → z ∈ m.data.toList := by
    intro r c z hz
    by_cases hinside : r < m.rows ∧ c < m.cols
    · rw [Matrix.cell?_of_lt hinside.1 hinside.2] at hz
      exact Array.mem_toList_iff.mpr (Array.mem_of_getElem? hz)
    · rw [Matrix.cell?_of_not_lt hinside] at hz
      cases hz
  have hfinite : ∀ z ∈ m.data.toList, z.re.isFinite = true ∧ z.isReal = true := by decide +kernel
  have hread : ∀ z ∈ m.data.toList, Decimal.toDouble z.re.abs.text.toList = z.re.abs := by
    decide +kernel
  have hquery := query_display (.inl rfl) hm rfl (fun r c z hz => hfinite z (hcell r c z hz))
    (fun r c z hz => hread z (hcell r c z hz)) (Nat.le_refl 3)
  exact ⟨by decide +kernel, hquery⟩

end Session

end MatrixScript
