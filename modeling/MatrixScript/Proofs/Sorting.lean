import MatrixScript.Library.Standard
import MatrixScript.Proofs.Selections
import MatrixScript.Proofs.Sets.Elements

/-!
# Sorting and extreme entries

All doubles are ordered by sign and magnitude: NaNs have the largest magnitudes, so they are at both
ends, and the signed zero is below the other one. Complex numbers are ordered by their real parts,
then by their imaginary parts. No two different numbers are level.

So there is just one ascending order of the entries of a row or a column, and the largest and the
smallest entry are the ends of it, in whatever order the entries are looked at.
-/

namespace MatrixScript

/-- The total order of doubles. -/
inductive Double.Below (x y : Double) : Prop where
  | signs (hx : x.isNegative = true) (hy : y.isNegative = false)
  | unsigned (hx : x.isNegative = false) (hy : y.isNegative = false)
      (h : x.magnitude < y.magnitude)
  | signed (hx : x.isNegative = true) (hy : y.isNegative = true) (h : y.magnitude < x.magnitude)

/-- The total order of complex numbers. -/
def Complex.Below (z w : Complex) : Prop := z.re.Below w.re ∨ z.re = w.re ∧ z.im.Below w.im

/-! ### The order -/

theorem Double.totalCompare_eq_lt_iff {x y : Double} : x.totalCompare y = .lt ↔ x.Below y := by
  have hx := x.magnitude_toNat_lt
  have hy := y.magnitude_toNat_lt
  rw [totalCompare_eq_lt, UInt64.lt_iff_toNat_lt, orderKey_toNat_eq, orderKey_toNat_eq]
  constructor
  · intro h
    cases hxn : x.isNegative <;> cases hyn : y.isNegative <;>
      simp only [hxn, hyn, Bool.false_eq_true, if_true, if_false] at h
    case true.false => exact .signs hxn hyn
    case false.false =>
      exact .unsigned hxn hyn (UInt64.lt_iff_toNat_lt.mpr (Nat.lt_of_add_lt_add_left h))
    case true.true => exact .signed hxn hyn (UInt64.lt_iff_toNat_lt.mpr (by omega))
    case false.true => omega
  · rintro (⟨hxn, hyn⟩ | ⟨hxn, hyn, h⟩ | ⟨hxn, hyn, h⟩)
    · rw [hxn, hyn, if_pos rfl, if_neg Bool.false_ne_true]
      omega
    · rw [hxn, hyn, if_neg Bool.false_ne_true, if_neg Bool.false_ne_true]
      exact Nat.add_lt_add_left (UInt64.lt_iff_toNat_lt.mp h) _
    · have hlt := UInt64.lt_iff_toNat_lt.mp h
      rw [hxn, hyn, if_pos rfl, if_pos rfl]
      omega

namespace Complex

variable {z w : Complex}

theorem totalCompare_eq_lt_iff : z.totalCompare w = .lt ↔ z.Below w := by
  rw [totalCompare, Ordering.then_eq_lt, Double.totalCompare_eq_lt_iff,
    Double.totalCompare_eq_lt_iff, Double.totalCompare_eq_eq]
  exact or_congr_right (and_congr_left' ⟨Double.orderKey_inj, congrArg _⟩)

theorem totalCompare_swap (z w : Complex) : (w.totalCompare z).swap = z.totalCompare w := by
  rw [totalCompare, totalCompare, Ordering.swap_then]
  exact congr (congrArg _ Std.OrientedOrd.eq_swap.symm) Std.OrientedOrd.eq_swap.symm

theorem totalCompare_eq_gt_iff : z.totalCompare w = .gt ↔ w.Below z := by
  rw [← totalCompare_swap, Ordering.swap_eq_gt, totalCompare_eq_lt_iff]

instance : IsStrictTotalOrder Complex Below where
  irrefl z h := by
    have hlt := totalCompare_eq_lt_iff.mpr h
    have hgt := totalCompare_eq_gt_iff.mpr h
    cases hlt.symm.trans hgt
  trans x y z hxy hyz := by
    rw [← totalCompare_eq_lt_iff] at *
    exact totalCompare_lt_trans hxy hyz
  trichotomous z w hzw hwz := by
    by_contra hne
    rcases totalCompare_lt_or hne with h | h
    · exact hzw (totalCompare_eq_lt_iff.mp h)
    · exact hwz (totalCompare_eq_lt_iff.mp h)

/-- A list of numbers in ascending order. -/
def Ascending (zs : List Complex) : Prop := zs.Pairwise fun z w => z = w ∨ z.Below w

theorem not_gt_iff : (z.totalCompare w != .gt) = true ↔ ¬w.Below z := by
  rw [bne_iff_ne, ne_eq, totalCompare_eq_gt_iff]

theorem not_below_iff : ¬w.Below z ↔ z = w ∨ z.Below w := by
  constructor
  · intro h
    rcases trichotomous_of Below z w with hlt | heq | hgt
    · exact .inr hlt
    · exact .inl heq
    · exact absurd hgt h
  · rintro (rfl | h)
    · exact irrefl_of Below z
    · exact asymm_of Below h

theorem ascending_mergeSort (zs : List Complex) :
    Ascending (zs.mergeSort fun z w => z.totalCompare w != .gt) := by
  refine (List.pairwise_mergeSort (fun x y z hxy hyz => ?_) (fun z w => ?_) zs).imp fun h =>
    not_below_iff.mp (not_gt_iff.mp h)
  · rw [not_gt_iff, not_below_iff] at *
    rcases hxy with rfl | hxy
    · exact hyz
    · rcases hyz with rfl | hyz
      · exact .inr hxy
      · exact .inr (trans_of Below hxy hyz)
  · rw [Bool.or_eq_true, not_gt_iff, not_gt_iff, ← not_and_or]
    exact fun h => asymm_of Below h.1 h.2

end Complex

namespace Matrix

variable {data : Array Complex}

/-! ### Lists of numbers -/

theorem sortData_perm (data : Array Complex) : (sortData data).toList.Perm data.toList := by
  unfold sortData
  exact List.mergeSort_perm _ _

theorem ascending_sortData (data : Array Complex) : Complex.Ascending (sortData data).toList :=
  Complex.ascending_mergeSort data.toList

/-- What is kept by going through a list is the last in any order that says when to replace it. -/
theorem foldl_extreme {r : Complex → Complex → Prop} [IsStrictTotalOrder Complex r]
    {wanted : Ordering} (hr : ∀ {z w : Complex}, z.totalCompare w = wanted ↔ r w z)
    (best : Complex) (zs : List Complex) :
    let kept := zs.foldl (fun best z => if z.totalCompare best = wanted then z else best) best
    kept ∈ best :: zs ∧ ∀ z ∈ best :: zs, z = kept ∨ r z kept := by
  induction zs generalizing best with
  | nil => exact ⟨List.mem_cons_self, fun z hz => .inl (List.mem_singleton.mp hz)⟩
  | cons z zs ih =>
      dsimp only
      rw [List.foldl_cons]
      obtain ⟨hmem, hlast⟩ := ih (if z.totalCompare best = wanted then z else best)
      generalize zs.foldl _ _ = kept at hmem hlast ⊢
      by_cases h : r best z
      · rw [if_pos (hr.mpr h)] at hmem hlast
        refine ⟨List.mem_cons_of_mem _ hmem, List.forall_mem_cons.mpr ⟨.inr ?_, hlast⟩⟩
        rcases hlast z List.mem_cons_self with rfl | hz
        · exact h
        · exact trans_of r h hz
      · rw [if_neg (mt hr.mp h)] at hmem hlast
        have hkept := hlast best List.mem_cons_self
        have hz : z = kept ∨ r z kept := by
          rcases trichotomous_of r z best with hlt | rfl | hgt
          · rcases hkept with rfl | hkept
            · exact .inr hlt
            · exact .inr (trans_of r hlt hkept)
          · exact hkept
          · exact absurd hgt h
        refine ⟨?_, List.forall_mem_cons.mpr ⟨hkept, List.forall_mem_cons.mpr ⟨hz, ?_⟩⟩⟩
        · exact (List.mem_cons.mp hmem).elim (fun h => h ▸ List.mem_cons_self) fun h =>
            List.mem_cons_of_mem _ (List.mem_cons_of_mem _ h)
        · exact fun w hw => hlast w (List.mem_cons_of_mem _ hw)

/-- The same entries in order end with what is kept of them. -/
theorem getLast?_eq_extreme {r : Complex → Complex → Prop} [IsStrictTotalOrder Complex r]
    {wanted : Ordering} (hr : ∀ {z w : Complex}, z.totalCompare w = wanted ↔ r w z)
    {zs : List Complex} (hperm : zs.Perm data.toList)
    (hordered : zs.Pairwise fun z w => z = w ∨ r z w) (hsome : data.isEmpty = false) :
    zs.getLast? = some (extreme wanted data) := by
  obtain ⟨first, rest, hdata⟩ : ∃ first rest, data.toList = first :: rest :=
    List.exists_cons_of_ne_nil (by simpa using hsome)
  have hfirst : data.getD 0 Complex.zero = first := by
    rw [Array.getD_eq_getD_getElem?, ← Array.getElem?_toList, hdata]
    rfl
  have hextreme : extreme wanted data
      = rest.foldl (fun best z => if z.totalCompare best = wanted then z else best) first := by
    rw [extreme, hfirst, ← Array.foldl_toList, hdata, List.foldl_cons, ite_self]
  obtain ⟨hmem, hlast⟩ := foldl_extreme hr first rest
  rw [← hextreme, ← hdata] at hmem hlast
  generalize extreme wanted data = kept at hmem hlast
  rcases List.eq_nil_or_concat' zs with rfl | ⟨front, last, rfl⟩
  · cases hperm.mem_iff.mpr hmem
  · rw [List.getLast?_concat]
    have hkept : last = kept ∨ r last kept :=
      hlast last (hperm.mem_iff.mp (List.mem_append_right _ List.mem_cons_self))
    rcases List.mem_append.mp (hperm.mem_iff.mpr hmem) with hfront | heq
    · rcases (List.pairwise_append.mp hordered).2.2 kept hfront last List.mem_cons_self with
        rfl | hbefore
      · rfl
      · rcases hkept with rfl | hkept
        · rfl
        · exact absurd hkept (asymm_of r hbefore)
    · rw [List.mem_singleton.mp heq]

theorem back?_sortData (hsome : data.isEmpty = false) :
    (sortData data).back? = some (extreme .gt data) := by
  rw [← Array.getLast?_toList]
  exact getLast?_eq_extreme Complex.totalCompare_eq_gt_iff (sortData_perm data)
    (ascending_sortData data) hsome

theorem getElem?_sortData_zero (hsome : data.isEmpty = false) :
    (sortData data)[0]? = some (extreme .lt data) := by
  have hperm : (sortData data).toList.reverse.Perm data.toList :=
    (List.reverse_perm _).trans (sortData_perm data)
  have hordered : (sortData data).toList.reverse.Pairwise
      fun z w => z = w ∨ Function.swap Complex.Below z w :=
    List.pairwise_reverse.mpr ((ascending_sortData data).imp (Or.imp_left Eq.symm))
  have hlast := getLast?_eq_extreme (r := Function.swap Complex.Below)
    Complex.totalCompare_eq_lt_iff hperm hordered hsome
  rwa [List.getLast?_reverse, List.head?_eq_getElem?, Array.getElem?_toList] at hlast

theorem size_sortData (data : Array Complex) : (sortData data).size = data.size := by
  rw [← Array.length_toList, (sortData_perm data).length_eq, Array.length_toList]

/-- The entries of a list in ascending order. -/
structure Sorts (given sorted : Array Complex) : Prop where
  perm : sorted.toList.Perm given.toList
  ascending : Complex.Ascending sorted.toList

theorem sorts_sortData (data : Array Complex) : Sorts data (sortData data) :=
  ⟨sortData_perm data, ascending_sortData data⟩

/-! ### Matrices -/

variable {m : Matrix} {c : Nat}

/-- A matrix with its row or column sorted, or with all its columns sorted. -/
def ascending (m : Matrix) : Matrix :=
  if m.isVector then ⟨m.rows, m.cols, sortData m.data⟩
  else generate m.rows m.cols fun r c => (sortData (m.column c)).getD r Complex.zero

theorem shape_ascending (m : Matrix) : m.ascending.shape = m.shape := by
  unfold ascending
  split <;> rfl

theorem WellFormed.ascending (h : m.WellFormed) : m.ascending.WellFormed := by
  unfold Matrix.ascending
  split
  · exact ⟨(size_sortData _).trans h.size_eq, h.size_le⟩
  · exact wellFormed_generate h.size_le _

theorem size_column (hc : c < m.cols) : (m.column c).size = m.rows := by
  rw [column, if_pos hc, Array.size_ofFn]

theorem getElem?_column {r : Nat} (hr : r < m.rows) (hc : c < m.cols) :
    (m.column c)[r]? = some (m.cell r c) := by
  rw [column, if_pos hc, Array.getElem?_ofFn, dif_pos hr]

theorem isEmpty_column (h : m.WellFormed) (hsome : m.isEmpty = false) (hc : c < m.cols) :
    (m.column c).isEmpty = false := by
  refine Array.isEmpty_eq_false_iff.mpr (Array.size_pos_iff.mp ?_)
  rw [size_column hc]
  exact (h.dims_pos hsome).1

theorem ascending_eq_generate (hvector : m.isVector = false) : m.ascending
    = generate m.rows m.cols fun r c => (sortData (m.column c)).getD r Complex.zero := by
  rw [ascending, hvector, if_neg Bool.false_ne_true]

theorem column_ascending (hvector : m.isVector = false) (hc : c < m.cols) :
    m.ascending.column c = sortData (m.column c) := by
  have hsize : (sortData (m.column c)).size = m.rows := (size_sortData _).trans (size_column hc)
  have hcolumn : (m.ascending.column c).size = m.rows := by
    rw [ascending_eq_generate hvector]
    exact size_column hc
  refine Array.ext_getElem? fun r => ?_
  by_cases hr : r < m.rows
  · rw [ascending_eq_generate hvector, getElem?_column (m := generate _ _ _) hr hc,
      cell_generate _ hr hc, Array.getD_eq_getD_getElem?, Array.getElem?_eq_getElem (hsize ▸ hr),
      Option.getD_some]
  · rw [Array.getElem?_eq_none (hcolumn ▸ Nat.le_of_not_lt hr),
      Array.getElem?_eq_none (hsize ▸ Nat.le_of_not_lt hr)]

theorem sorted_eq_ok (h : m.WellFormed) : m.sorted = .ok (.ofMatrix m.ascending) := by
  unfold sorted
  cases hvector : m.isVector with
  | true =>
      have hdata : ofData m.rows m.cols (sortData m.data) = .ok m.ascending := by
        rw [ascending, hvector, if_pos rfl]
        exact ofData_eq_ok_iff.mpr ⟨rfl, (size_sortData _).trans h.size_eq, h.size_le⟩
      rw [if_pos rfl, hdata]
      rfl
  | false =>
      have hcells : ofCells m.rows m.cols (fun r c =>
          ((Array.ofFn fun c : Fin m.cols => sortData (m.column c)).getD c #[]).getD r Complex.zero)
          = .ok m.ascending := by
        rw [ascending_eq_generate hvector, ofCells, elementCount_eq_ok_iff.mpr ⟨rfl, h.size_le⟩]
        refine congrArg Except.ok (generate_congr fun r _ c hc => ?_)
        rw [Array.getD_eq_getD_getElem? (α := Array Complex), Array.getElem?_ofFn, dif_pos hc,
          Option.getD_some]
      have hscalar : m.ascending.scalar? = none := by
        rw [ascending_eq_generate hvector]
        refine if_neg fun hone => ?_
        rw [isVector, Bool.or_eq_false_iff] at hvector
        exact of_decide_eq_false hvector.1 hone.1
      rw [if_neg Bool.false_ne_true]
      dsimp only
      rw [hcells, Value.ofMatrix, hscalar]
      rfl

end Matrix

namespace Library

variable {m : Matrix} {v : Value}

theorem eq_matrix_or_scalar (h : m.WellFormed) (hv : v = .matrix m ∨ v = .ofMatrix m) :
    v = .matrix m ∨ ∃ z, v = .scalar z ∧ Matrix.scalar z = m := by
  rcases hv with rfl | rfl
  · exact .inl rfl
  · have hmatrix := Value.matrix?_ofMatrix h
    unfold Value.ofMatrix at hmatrix ⊢
    split at hmatrix
    · exact .inr ⟨_, rfl, Option.some.inj hmatrix⟩
    · exact .inl rfl

theorem call_sort_eq (h : m.WellFormed) (hv : v = .matrix m ∨ v = .ofMatrix m)
    (e : Environment) :
    (standard.call "sort" [v]).run.run e = (.ok (.ofMatrix m.ascending), e) := by
  rw [← Matrix.sorted_eq_ok h]
  obtain rfl | ⟨z, rfl, rfl⟩ := eq_matrix_or_scalar h hv <;> rfl

theorem call_extreme_eq (h : m.WellFormed) (hsome : m.isEmpty = false)
    (hv : v = .matrix m ∨ v = .ofMatrix m) (e : Environment) :
    (standard.call "max" [v]).run.run e = (.ok (m.reduce (Matrix.extreme .gt)), e)
      ∧ (standard.call "min" [v]).run.run e = (.ok (m.reduce (Matrix.extreme .lt)), e) := by
  have hcall (wanted : Ordering) (name : String)
      (hname : (name, wanted) ∈ [("max", .gt), ("min", .lt)]) : (standard.call name [v]).run.run e
      = (.ok (if m.isEmpty then .emptyMatrix else m.reduce (Matrix.extreme wanted)), e) := by
    rcases List.mem_pair.mp hname with h | h <;> cases h <;>
      obtain rfl | ⟨z, rfl, rfl⟩ := eq_matrix_or_scalar ‹_› hv <;> rfl
  rw [hcall .gt "max" (by decide), hcall .lt "min" (by decide), hsome, if_neg Bool.false_ne_true,
    if_neg Bool.false_ne_true]
  exact ⟨rfl, rfl⟩

/-- The functions `sort`, `max` and `min` on a matrix that has entries. The entries of a row or a
column as a whole, and otherwise those of each column, are put in ascending order; the extreme
entries are the last and the first of them. A matrix of one entry may be passed as a scalar. -/
theorem call_sort_max_min (h : m.WellFormed) (hsome : m.isEmpty = false)
    (hv : v = .matrix m ∨ v = .ofMatrix m) :
    ∃ s : Matrix, s.WellFormed ∧ s.shape = m.shape
      ∧ (∀ e, (standard.call "sort" [v]).run.run e = (.ok (.ofMatrix s), e))
      ∧ (m.isVector = true → Matrix.Sorts m.data s.data
        ∧ ∃ least greatest, s.data[0]? = some least ∧ s.data.back? = some greatest
          ∧ ∀ e, (standard.call "max" [v]).run.run e = (.ok (.scalar greatest), e)
            ∧ (standard.call "min" [v]).run.run e = (.ok (.scalar least), e))
      ∧ (m.isVector = false → (∀ c < m.cols, Matrix.Sorts (m.column c) (s.column c))
        ∧ ∃ least greatest : Array Complex, least.size = m.cols ∧ greatest.size = m.cols
          ∧ (∀ c < m.cols, (s.column c)[0]? = least[c]? ∧ (s.column c).back? = greatest[c]?)
          ∧ ∀ e, (standard.call "max" [v]).run.run e = (.ok (.matrix (.rowVector greatest)), e)
            ∧ (standard.call "min" [v]).run.run e = (.ok (.matrix (.rowVector least)), e)) := by
  refine ⟨m.ascending, h.ascending, m.shape_ascending, call_sort_eq h hv, fun hvector => ?_,
    fun hvector => ?_⟩
  · have hdata : m.ascending.data = Matrix.sortData m.data := by
      rw [Matrix.ascending, hvector, if_pos rfl]
    rw [hdata]
    refine ⟨Matrix.sorts_sortData _, _, _, Matrix.getElem?_sortData_zero hsome,
      Matrix.back?_sortData hsome, fun e => ?_⟩
    have hcalls := call_extreme_eq h hsome hv e
    simpa only [Matrix.reduce, hvector, if_true] using hcalls
  · refine ⟨fun c hc => ?_, Array.ofFn fun c : Fin m.cols => Matrix.extreme .lt (m.column c),
      Array.ofFn fun c : Fin m.cols => Matrix.extreme .gt (m.column c), Array.size_ofFn,
      Array.size_ofFn, fun c hc => ?_, fun e => ?_⟩
    · rw [Matrix.column_ascending hvector hc]
      exact Matrix.sorts_sortData _
    · have hcolumn := Matrix.isEmpty_column h hsome hc
      rw [Matrix.column_ascending hvector hc, Array.getElem?_ofFn, Array.getElem?_ofFn, dif_pos hc,
        dif_pos hc]
      exact ⟨Matrix.getElem?_sortData_zero hcolumn, Matrix.back?_sortData hcolumn⟩
    · have hcalls := call_extreme_eq h hsome hv e
      simpa only [Matrix.reduce, hvector, Bool.false_eq_true, if_false] using hcalls

/-- A column with NaNs of both signs, and one with both zeros and a number that is not real. -/
theorem call_sort_max_min_nan :
    let m : Matrix := ⟨3, 2, #[⟨.nan, .zero⟩, .zero, .one, ⟨.negativeZero, .zero⟩,
      ⟨.invalid, .zero⟩, ⟨.zero, .one⟩]⟩
    (m.WellFormed ∧ m.isEmpty = false ∧ m.isVector = false)
      ∧ ∃ s : Matrix, s.shape = (3, 2)
        ∧ (∀ e, (standard.call "sort" [.matrix m]).run.run e = (.ok (.ofMatrix s), e))
        ∧ (s.column 0)[0]? = some ⟨.invalid, .zero⟩ ∧ (s.column 0).back? = some ⟨.nan, .zero⟩
        ∧ (s.column 1)[0]? = some ⟨.negativeZero, .zero⟩
        ∧ (s.column 1).back? = some ⟨.zero, .one⟩ := by
  intro m
  have h : m.WellFormed := ⟨rfl, by decide⟩
  obtain ⟨s, -, hshape, hsort, -, hcolumns⟩ := call_sort_max_min h rfl (.inl rfl)
  obtain ⟨-, least, greatest, -, -, hends, hcalls⟩ := hcolumns rfl
  obtain ⟨hmax, hmin⟩ := call_extreme_eq h rfl (.inl rfl) default
  have hgreatest := Value.matrix.inj (Except.ok.inj
    (Prod.mk.inj (hmax.symm.trans (hcalls default).1)).1)
  have hleast := Value.matrix.inj (Except.ok.inj
    (Prod.mk.inj (hmin.symm.trans (hcalls default).2)).1)
  obtain ⟨hfirst, hlast⟩ := hends 0 (by decide)
  obtain ⟨hfirst', hlast'⟩ := hends 1 (by decide)
  refine ⟨⟨h, rfl, rfl⟩, s, hshape, hsort, ?_⟩
  rw [hfirst, hlast, hfirst', hlast', ← (Matrix.mk.inj hgreatest).2.2,
    ← (Matrix.mk.inj hleast).2.2]
  decide

end Library

end MatrixScript
