import Mathlib.Data.List.GetD
import MatrixScript.Proofs.Cells
import MatrixScript.Proofs.Limits
import MatrixScript.Proofs.Selections.Refusals

/-!
# Selecting elements

Two lists of places select the matrix of the cells where they cross. Selecting from such a matrix is
selecting from the first one by the lists composed, and a lone index finds the cell that it would
reach by counting the cells row by row. Everything that speaks against a selection is found in its
indices, one by one, or in the number of cells.
-/

namespace MatrixScript

/-- Two lists of places, the second one in the first. -/
def IndexArg.compose (places chosen : List Nat) : List Nat := chosen.map (places.getD · 0)

/-- The row of the numbers of places. -/
def IndexArg.listing (places : List Nat) : IndexArg :=
  .value (.matrix (.rowVector (places.map fun p => Complex.ofNat (p + 1)).toArray))

theorem IndexArg.listing_lists {places : List Nat} (h : ∀ p ∈ places, p < elementLimit)
    (extent : Nat) : (listing places).Lists extent places := by
  refine .matrix (List.forall₂_map_left_iff.mpr (List.forall₂_same.mpr fun p hp => ?_))
  exact ⟨show Double.zero.isZero = true by decide, rfl, h p hp⟩

theorem IndexArg.wellFormed_listing {places : List Nat} (h : places.length ≤ elementLimit) :
    (listing places).WellFormed :=
  Matrix.wellFormed_rowVector (by rwa [List.size_toArray, List.length_map])

namespace Matrix

/-- What the indices of a selection count within. -/
def extents (m : Matrix) : Nat → List Nat
  | 1 => [m.count]
  | 2 => [m.rows, m.cols]
  | _ => []

/-- The number of elements that are selected. -/
inductive Selects (m : Matrix) : List IndexArg → Nat → Prop where
  | linear {arg : IndexArg} {picked : List Nat} (h : arg.Lists m.count picked) :
      Selects m [arg] picked.length
  | crossing {rowArg colArg : IndexArg} {rs cs : List Nat} (hrs : rowArg.Lists m.rows rs)
      (hcs : colArg.Lists m.cols cs) : Selects m [rowArg, colArg] (rs.length * cs.length)

/-- What is wrong with a selection, with the code of the error. -/
inductive Misread (m : Matrix) (args : List IndexArg) : ErrorCode → Prop where
  | count (h : args.length ≠ 1) (h' : args.length ≠ 2) : Misread m args .argumentRange
  | unfit {arg : IndexArg} {extent : Nat} (hmem : (arg, extent) ∈ args.zip (m.extents args.length))
      (h : arg.Unfit extent) : Misread m args .argumentValue
  | outside {arg : IndexArg} {extent : Nat}
      (hmem : (arg, extent) ∈ args.zip (m.extents args.length)) (h : arg.Outside extent) :
      Misread m args .argumentRange
  | many {n : Nat} (h : m.Selects args n) (hmany : elementLimit < n) : Misread m args .argumentRange

/-- One of the indices goes beyond the limit of elements by itself. -/
def Oversteps (m : Matrix) (args : List IndexArg) : Prop :=
  ∃ arg extent, (arg, extent) ∈ args.zip (m.extents args.length) ∧ arg.Oversteps extent

variable {m : Matrix} {args : List IndexArg} {arg : IndexArg} {extent : Nat} {code : ErrorCode}

theorem Selects.exists_crossing {rowArg colArg : IndexArg} {n : Nat}
    (h : m.Selects [rowArg, colArg] n) : ∃ rs cs, rowArg.Lists m.rows rs ∧ colArg.Lists m.cols cs
      ∧ n = rs.length * cs.length := by
  cases h with
  | crossing hrs hcs => exact ⟨_, _, hrs, hcs, rfl⟩

theorem misread_of_refused (hmem : (arg, extent) ∈ args.zip (m.extents args.length))
    (h : arg.Refused extent code) :
    m.Misread args code ∨ m.Oversteps args ∧ code = .argumentRange := by
  cases h with
  | unfit h => exact .inl (.unfit hmem h)
  | outside h => exact .inl (.outside hmem h)
  | oversteps h => exact .inr ⟨⟨arg, extent, hmem, h⟩, rfl⟩

end Matrix

namespace Value

variable {m : Matrix} {args : List IndexArg} {arg rowArg colArg : IndexArg} {result : Value}
  {fault : Fault}

/-- A matrix as a value stands for itself. -/
theorem matrix?_ofMatrix (h : m.WellFormed) : (ofMatrix m).matrix? = some m := by
  unfold ofMatrix
  cases hscalar : m.scalar? with
  | none => rfl
  | some z =>
      obtain ⟨⟨hrows, hcols⟩, hz⟩ := Option.ite_none_right_eq_some.mp hscalar
      have hsize := h.size_eq
      rw [hrows, hcols] at hsize
      refine congrArg some (congr (congr (congrArg Matrix.mk hrows.symm) hcols.symm) ?_)
      refine Array.ext (by rw [hsize]; rfl) fun k hk hk' => ?_
      obtain rfl : k = 0 := Nat.lt_one_iff.mp hk
      rw [Array.getElem?_eq_getElem hk'] at hz
      exact (Option.some.inj hz).symm

/-! ### What is selected -/

theorem positionsWithin_eq_ok_iff {extent : Nat} {ps : Array Nat} :
    arg.positionsWithin extent = .ok ps
      ↔ arg.Lists extent ps.toList ∧ ∀ p ∈ ps.toList, p < extent := by
  rw [IndexArg.positionsWithin, bind_ok_iff, ← IndexArg.positions_eq_ok_iff,
    ← IndexArg.checkBounds_eq_ok_iff]
  constructor
  · rintro ⟨picked, hpicked, h⟩
    obtain ⟨_, hbounds, h⟩ := bind_ok_iff.mp h
    cases h
    exact ⟨hpicked, hbounds⟩
  · rintro ⟨hpicked, hbounds⟩
    exact ⟨ps, hpicked, bind_ok_iff.mpr ⟨(), hbounds, rfl⟩⟩

/-- The cells where rows and columns cross. -/
def crossing (m : Matrix) (rs cs : List Nat) : Matrix :=
  Matrix.generate rs.length cs.length fun r c => m.cell (rs.getD r 0) (cs.getD c 0)

theorem crossing_single (m : Matrix) (r c : Nat) :
    crossing m [r] [c] = Matrix.scalar (m.cell r c) := by
  refine congrArg (Matrix.mk 1 1) (Array.ext Array.size_ofFn fun k hk hk' => ?_)
  obtain rfl : k = 0 := Nat.lt_one_iff.mp hk'
  simp

/-- Places within the extents select the cells where they cross, unless these are too many. -/
theorem indexMatrix_of_lists {rs cs : List Nat} (hrs : rowArg.Lists m.rows rs)
    (hcs : colArg.Lists m.cols cs) (hrows : ∀ r ∈ rs, r < m.rows) (hcols : ∀ c ∈ cs, c < m.cols) :
    indexMatrix m [rowArg, colArg] = do
      let _ ← elementCount rs.length cs.length
      return ofMatrix (crossing m rs cs) := by
  have hrs' : rowArg.positions m.rows = .ok rs.toArray := IndexArg.positions_eq_ok_iff.mpr hrs
  have hcs' : colArg.positions m.cols = .ok cs.toArray := IndexArg.positions_eq_ok_iff.mpr hcs
  have hrows' : IndexArg.checkBounds rs.toArray m.rows = .ok () :=
    IndexArg.checkBounds_eq_ok_iff.mpr hrows
  have hcols' : IndexArg.checkBounds cs.toArray m.cols = .ok () :=
    IndexArg.checkBounds_eq_ok_iff.mpr hcols
  have hget (places : List Nat) (k : Nat) : places.toArray.getD k 0 = places.getD k 0 := by
    rw [Array.getD_eq_getD_getElem?, List.getElem?_toArray, List.getD_eq_getElem?_getD]
  rw [indexMatrix_crossing hrs' hcs', hrows', hcols', List.size_toArray, List.size_toArray]
  simp only [Matrix.ofCells, bind_assoc, pure_bind, hget]
  rfl

theorem indexMatrix_crossing_eq_ok_iff : indexMatrix m [rowArg, colArg] = .ok result
    ↔ ∃ rs cs, rowArg.Lists m.rows rs ∧ colArg.Lists m.cols cs ∧ (∀ r ∈ rs, r < m.rows)
      ∧ (∀ c ∈ cs, c < m.cols) ∧ rs.length * cs.length ≤ elementLimit
      ∧ result = ofMatrix (crossing m rs cs) := by
  constructor
  · intro h
    obtain ⟨rs, hrs, hrest⟩ := bind_ok_iff.mp h
    obtain ⟨cs, hcs, hrest⟩ := bind_ok_iff.mp hrest
    obtain ⟨_, hrows, hrest⟩ := bind_ok_iff.mp hrest
    obtain ⟨_, hcols, -⟩ := bind_ok_iff.mp hrest
    have hrsLists := IndexArg.positions_eq_ok_iff.mp hrs
    have hcsLists := IndexArg.positions_eq_ok_iff.mp hcs
    have hrows := IndexArg.checkBounds_eq_ok_iff.mp hrows
    have hcols := IndexArg.checkBounds_eq_ok_iff.mp hcols
    rw [indexMatrix_of_lists hrsLists hcsLists hrows hcols] at h
    obtain ⟨_, hcount, h⟩ := bind_ok_iff.mp h
    cases h
    exact ⟨rs.toList, cs.toList, hrsLists, hcsLists, hrows, hcols,
      (elementCount_eq_ok_iff.mp hcount).2, rfl⟩
  · rintro ⟨rs, cs, hrs, hcs, hrows, hcols, hlimit, rfl⟩
    rw [indexMatrix_of_lists hrs hcs hrows hcols, elementCount_eq_ok_iff.mpr ⟨rfl, hlimit⟩]
    rfl

theorem crossing_crossing {rs cs ps qs : List Nat} (hps : ∀ p ∈ ps, p < rs.length)
    (hqs : ∀ q ∈ qs, q < cs.length) : crossing (crossing m rs cs) ps qs
      = crossing m (IndexArg.compose rs ps) (IndexArg.compose cs qs) := by
  have hget {places chosen : List Nat} {k : Nat} (hk : k < chosen.length) :
      (IndexArg.compose places chosen).getD k 0 = places.getD (chosen.getD k 0) 0 := by
    simp [IndexArg.compose, List.getD_eq_getElem?_getD, hk]
  have hmem {chosen : List Nat} {k : Nat} (hk : k < chosen.length) : chosen.getD k 0 ∈ chosen :=
    List.getD_eq_getElem chosen 0 hk ▸ List.getElem_mem hk
  unfold crossing
  rw [IndexArg.compose, IndexArg.compose, List.length_map, List.length_map]
  refine Matrix.generate_congr fun r hr c hc => ?_
  rw [Matrix.cell_generate _ (hps _ (hmem hr)) (hqs _ (hmem hc)), ← hget hr, ← hget hc]
  rfl

/-- Selecting from a selection that succeeded selects by the composed lists. -/
theorem index_index {rowArg' colArg' rowChoice colChoice : IndexArg} {rs cs ps qs : List Nat}
    {inner : Value} (hrs : rowArg.Lists m.rows rs) (hcs : colArg.Lists m.cols cs)
    (hinner : (matrix m).index [rowArg, colArg] = .ok inner)
    (hps : rowChoice.Lists rs.length ps) (hpsIn : ∀ p ∈ ps, p < rs.length)
    (hqs : colChoice.Lists cs.length qs) (hqsIn : ∀ q ∈ qs, q < cs.length)
    (hrs' : rowArg'.Lists m.rows (IndexArg.compose rs ps))
    (hcs' : colArg'.Lists m.cols (IndexArg.compose cs qs)) :
    inner.index [rowChoice, colChoice] = (matrix m).index [rowArg', colArg'] := by
  rw [index_of_matrix? rfl] at hinner
  obtain ⟨rs', cs', hrsLists, hcsLists, hrows, hcols, hlimit, rfl⟩ :=
    indexMatrix_crossing_eq_ok_iff.mp hinner
  obtain rfl := hrs.unique hrsLists
  obtain rfl := hcs.unique hcsLists
  have hwell : (crossing m rs cs).WellFormed := Matrix.wellFormed_generate hlimit _
  have hwithin {extent : Nat} {places chosen : List Nat} (hall : ∀ r ∈ places, r < extent)
      (hchosen : ∀ p ∈ chosen, p < places.length) :
      ∀ r ∈ IndexArg.compose places chosen, r < extent := by
    intro r hr
    obtain ⟨p, hp, rfl⟩ := List.mem_map.mp hr
    rw [List.getD_eq_getElem _ _ (hchosen p hp)]
    exact hall _ (List.getElem_mem _)
  rw [index_of_matrix? (matrix?_ofMatrix hwell), index_of_matrix? rfl,
    indexMatrix_of_lists (m := crossing m rs cs) hps hqs hpsIn hqsIn,
    indexMatrix_of_lists hrs' hcs' (hwithin hrows hpsIn) (hwithin hcols hqsIn),
    crossing_crossing hpsIn hqsIn, IndexArg.compose, IndexArg.compose, List.length_map,
    List.length_map]

/-- A lone index reaches the cell that its place has row by row. -/
theorem index_place {p : Nat} (hm : m.WellFormed) (hp : p < m.count) (harg : arg.Lists m.count [p])
    (hrow : rowArg.Lists m.rows [p / m.cols]) (hcol : colArg.Lists m.cols [p % m.cols]) :
    (matrix m).index [arg] = (matrix m).index [rowArg, colArg] := by
  have hplace : p < m.rows * m.cols := hm.size_eq ▸ hp
  have hcell : m.cell (p / m.cols) (p % m.cols) = m.data.getD p Complex.zero := by
    rw [Matrix.cell, Nat.div_add_mod']
  have hpicked : arg.positionsWithin m.count = .ok #[p] :=
    positionsWithin_eq_ok_iff.mpr ⟨harg, List.forall_mem_singleton.mpr hp⟩
  have hscalar : pickElements m #[p] = Matrix.scalar (m.data.getD p Complex.zero) := by
    have hdata : #[p].map (m.data.getD · Complex.zero) = #[m.data.getD p Complex.zero] := by simp
    unfold pickElements
    rw [hdata]
    dsimp only
    split <;> rfl
  rw [index_of_matrix? rfl, index_of_matrix? rfl, indexMatrix, hpicked,
    indexMatrix_of_lists hrow hcol (List.forall_mem_singleton.mpr (Matrix.div_lt_of_place hplace))
      (List.forall_mem_singleton.mpr (Matrix.mod_lt_of_place hplace)), crossing_single, hcell]
  change Except.ok (ofMatrix (pickElements m #[p])) = Except.ok _
  rw [hscalar]

/-! ### What is refused -/

theorem exists_places (h : (matrix m).index args = .ok result) {arg : IndexArg} {extent : Nat}
    (hmem : (arg, extent) ∈ args.zip (m.extents args.length)) :
    ∃ places, arg.Lists extent places ∧ ∀ p ∈ places, p < extent := by
  rw [index_of_matrix? rfl] at h
  match args, h, hmem with
  | [arg], h, hmem =>
      obtain ⟨ps, hps, -⟩ := bind_ok_iff.mp h
      cases List.mem_singleton.mp hmem
      exact ⟨ps.toList, positionsWithin_eq_ok_iff.mp hps⟩
  | [rowArg, colArg], h, hmem =>
      obtain ⟨rs, cs, hrs, hcs, hrows, hcols, -⟩ := indexMatrix_crossing_eq_ok_iff.mp h
      rcases List.mem_cons.mp hmem with hrow | hcol
      · cases hrow
        exact ⟨rs, hrs, hrows⟩
      · cases List.mem_singleton.mp hcol
        exact ⟨cs, hcs, hcols⟩

theorem selected_le (hm : m.WellFormed) (hargs : ∀ arg ∈ args, arg.WellFormed)
    (h : (matrix m).index args = .ok result) {n : Nat} (hn : m.Selects args n) :
    n ≤ elementLimit := by
  rw [index_of_matrix? rfl] at h
  cases hn with
  | @linear arg picked harg =>
      have hpicked : arg.positions m.count = .ok picked.toArray :=
        IndexArg.positions_eq_ok_iff.mpr harg
      exact IndexArg.positions_yields (hargs arg List.mem_cons_self) hm.count_le _ hpicked
  | crossing hrs hcs =>
      obtain ⟨rs', cs', hrs', hcs', -, -, hlimit, -⟩ := indexMatrix_crossing_eq_ok_iff.mp h
      rwa [hrs.unique hrs', hcs.unique hcs']

/-- Nothing speaks against a selection that succeeds. -/
theorem not_refused_of_index (hm : m.WellFormed) (hargs : ∀ arg ∈ args, arg.WellFormed)
    (h : (matrix m).index args = .ok result) :
    (∀ code, ¬m.Misread args code) ∧ ¬m.Oversteps args := by
  have hrefused {arg : IndexArg} {extent : Nat}
      (hmem : (arg, extent) ∈ args.zip (m.extents args.length)) (code : ErrorCode) :
      ¬arg.Refused extent code := by
    obtain ⟨places, hlists, hwithin⟩ := exists_places h hmem
    exact hlists.not_refused hwithin code
  constructor
  · rintro code (⟨hone, htwo⟩ | ⟨hmem, hunfit⟩ | ⟨hmem, houtside⟩ | ⟨hn, hmany⟩)
    · rw [index_of_matrix? rfl] at h
      match args, hone, htwo with
      | [], _, _ => cases h
      | _ :: _ :: _ :: _, _, _ => cases h
    · exact hrefused hmem _ (.unfit hunfit)
    · exact hrefused hmem _ (.outside houtside)
    · exact absurd (selected_le hm hargs h hn) (Nat.not_le.mpr hmany)
  · rintro ⟨arg, extent, hmem, hoversteps⟩
    exact hrefused hmem _ (.oversteps hoversteps)

theorem misread_of_crossing (hrow : rowArg.WellFormed) (hcol : colArg.WellFormed)
    (h : indexMatrix m [rowArg, colArg] = .error fault) :
    m.Misread [rowArg, colArg] fault.code
      ∨ m.Oversteps [rowArg, colArg] ∧ fault.code = .argumentRange := by
  have hrowMem : (rowArg, m.rows) ∈ [rowArg, colArg].zip (m.extents 2) := List.mem_cons_self
  have hcolMem : (colArg, m.cols) ∈ [rowArg, colArg].zip (m.extents 2) :=
    List.mem_cons_of_mem _ (List.mem_singleton_self _)
  rcases bind_error_iff.mp h with hrs | ⟨rs, hrs, h⟩
  · exact Matrix.misread_of_refused hrowMem (IndexArg.refused_of_positions hrow hrs)
  rcases bind_error_iff.mp h with hcs | ⟨cs, hcs, h⟩
  · exact Matrix.misread_of_refused hcolMem (IndexArg.refused_of_positions hcol hcs)
  rcases bind_error_iff.mp h with hrows | ⟨_, -, h⟩
  · exact Matrix.misread_of_refused hrowMem (IndexArg.refused_of_checkBounds hrs hrows)
  rcases bind_error_iff.mp h with hcols | ⟨_, -, h⟩
  · exact Matrix.misread_of_refused hcolMem (IndexArg.refused_of_checkBounds hcs hcols)
  rcases bind_error_iff.mp h with hcells | ⟨picked, -, hnever⟩
  · rcases bind_error_iff.mp hcells with hcount | ⟨_, -, hnever⟩
    · -- all places are within their extents, so there are too many cells
      unfold elementCount at hcount
      split at hcount
      · cases hcount
      · cases hcount
        exact .inl (.many (.crossing (IndexArg.positions_eq_ok_iff.mp hrs)
          (IndexArg.positions_eq_ok_iff.mp hcs)) (Nat.not_le.mp ‹_›))
    · cases hnever
  · cases hnever

theorem misread_of_indexMatrix (hargs : ∀ arg ∈ args, arg.WellFormed)
    (h : indexMatrix m args = .error fault) :
    m.Misread args fault.code ∨ m.Oversteps args ∧ fault.code = .argumentRange := by
  match args, hargs, h with
  | [], _, h =>
      cases h
      exact .inl (.count nofun nofun)
  | [arg], hargs, h =>
      have hmem : (arg, m.count) ∈ [arg].zip (m.extents 1) := List.mem_singleton_self _
      rcases bind_error_iff.mp h with hwithin | ⟨ps, -, hnever⟩
      · exact Matrix.misread_of_refused hmem
          (IndexArg.refused_of_positionsWithin (hargs arg List.mem_cons_self) hwithin)
      · cases hnever
  | [rowArg, colArg], hargs, h =>
      exact misread_of_crossing (hargs rowArg List.mem_cons_self)
        (hargs colArg (List.mem_cons_of_mem _ List.mem_cons_self)) h
  | _ :: _ :: _ :: _, _, h =>
      cases h
      exact .inl (.count (by simp) (by simp))

/-- A selection fails exactly if something is wrong with it or an index goes beyond the limit. -/
theorem exists_index_error_iff (hm : m.WellFormed) (hargs : ∀ arg ∈ args, arg.WellFormed) :
    (∃ fault, (matrix m).index args = .error fault)
      ↔ (∃ code, m.Misread args code) ∨ m.Oversteps args := by
  constructor
  · rintro ⟨fault, h⟩
    rw [index_of_matrix? rfl] at h
    exact (misread_of_indexMatrix hargs h).imp (⟨_, ·⟩) And.left
  · intro hrefused
    cases h : (matrix m).index args with
    | error fault => exact ⟨fault, rfl⟩
    | ok result =>
        obtain ⟨hmisread, hoversteps⟩ := not_refused_of_index hm hargs h
        rcases hrefused with ⟨code, hcode⟩ | hlimit
        · exact absurd hcode (hmisread code)
        · exact absurd hlimit hoversteps

/-! ### Selections -/

/-- Selecting from what has been selected is selecting by the composed lists, also where that fails
because of the number of cells, and also where a single element, hence a number, has been selected.
A lone index selects what its row and its column do. A selection fails exactly if it has not one or
two indices, if an index is no whole number, or is below one or beyond the extent, or if there are
too many cells; or if an index goes beyond the limit all by itself. The error of an index that is no
whole number is one of its value, and every other error is one of range. What `:` lists is taken to
have room in memory. -/
theorem index_of_selections (hm : m.WellFormed) :
    (∀ (rowArg colArg rowChoice colChoice rowArg' colArg' : IndexArg) (rs cs ps qs : List Nat)
      (inner : Value), rowArg.Lists m.rows rs → colArg.Lists m.cols cs →
      (matrix m).index [rowArg, colArg] = .ok inner →
      rowChoice.Lists rs.length ps → (∀ p ∈ ps, p < rs.length) →
      colChoice.Lists cs.length qs → (∀ q ∈ qs, q < cs.length) →
      rowArg'.Lists m.rows (IndexArg.compose rs ps) →
      colArg'.Lists m.cols (IndexArg.compose cs qs) →
      inner.index [rowChoice, colChoice] = (matrix m).index [rowArg', colArg'])
    ∧ (∀ (arg rowArg colArg : IndexArg) (p : Nat), p < m.count → arg.Lists m.count [p] →
      rowArg.Lists m.rows [p / m.cols] → colArg.Lists m.cols [p % m.cols] →
      (matrix m).index [arg] = (matrix m).index [rowArg, colArg])
    ∧ ∀ args : List IndexArg, (∀ arg ∈ args, arg.WellFormed) →
      ((∃ fault, (matrix m).index args = .error fault)
        ↔ (∃ code, m.Misread args code) ∨ m.Oversteps args)
      ∧ ∀ fault, (matrix m).index args = .error fault →
        m.Misread args fault.code ∨ m.Oversteps args ∧ fault.code = .argumentRange := by
  refine ⟨?_, fun arg rowArg colArg p hp harg hrow hcol => index_place hm hp harg hrow hcol,
    fun args hargs => ⟨exists_index_error_iff hm hargs, fun fault h => ?_⟩⟩
  · intro rowArg colArg rowChoice colChoice rowArg' colArg' rs cs ps qs inner hrs hcs hinner hps
      hpsIn hqs hqsIn hrs' hcs'
    exact index_index hrs hcs hinner hps hpsIn hqs hqsIn hrs' hcs'
  · rw [index_of_matrix? rfl] at h
    exact misread_of_indexMatrix hargs h

/-- From the second row and then the first, and the third column, the first and the third again, the
last of the rows and of the columns the third and the second. The fifth element is the middle one of
the second row, and there is no fourth column. -/
theorem index_of_selections_rows :
    let m : Matrix := ⟨2, 3, (Array.range 6).map Complex.ofNat⟩
    let select (rs cs : List Nat) (v : Value) := v.index [.listing rs, .listing cs]
    ∃ inner, select [1, 0] [2, 0, 2] (matrix m) = .ok inner
      ∧ select [1] [2, 1] inner = select [0] [2, 0] (matrix m)
      ∧ (matrix m).index [.listing [4]] = select [1] [1] (matrix m)
      ∧ ∃ fault, select [0] [3] (matrix m) = .error fault := by
  intro m select
  have hm : m.WellFormed := ⟨by simp [m], by decide⟩
  have hlists {places : List Nat} (h : places.all (· < elementLimit) = true) (extent : Nat) :
      (IndexArg.listing places).Lists extent places :=
    IndexArg.listing_lists (by simpa using h) extent
  obtain ⟨hchoice, hplace, hrefused⟩ := index_of_selections hm
  have hinner : select [1, 0] [2, 0, 2] (matrix m)
      = .ok (ofMatrix (crossing m [1, 0] [2, 0, 2])) := by
    refine (index_of_matrix? rfl _).trans (indexMatrix_crossing_eq_ok_iff.mpr ?_)
    exact ⟨_, _, hlists (by decide) _, hlists (by decide) _, by decide, by decide, by decide, rfl⟩
  refine ⟨_, hinner, ?_, ?_, ?_⟩
  · have hrows : (IndexArg.listing [0]).Lists m.rows (IndexArg.compose [1, 0] [1]) :=
      hlists (by decide) _
    have hcols : (IndexArg.listing [2, 0]).Lists m.cols (IndexArg.compose [2, 0, 2] [2, 1]) :=
      hlists (by decide) _
    exact hchoice _ _ _ _ _ _ _ _ _ _ _ (hlists (by decide) _) (hlists (by decide) _) hinner
      (hlists (by decide) _) (by decide) (hlists (by decide) _) (by decide) hrows hcols
  · have hrow : (IndexArg.listing [1]).Lists m.rows [4 / 3] := hlists (by decide) _
    have hcol : (IndexArg.listing [1]).Lists m.cols [4 % 3] := hlists (by decide) _
    exact hplace _ _ _ 4 (by simp [Matrix.count, m]) (hlists (by decide) _) hrow hcol
  · have hargs : ∀ arg ∈ [IndexArg.listing [0], .listing [3]], arg.WellFormed :=
      List.forall_mem_cons.mpr ⟨IndexArg.wellFormed_listing (by decide),
        List.forall_mem_singleton.mpr (IndexArg.wellFormed_listing (by decide))⟩
    have hspells : (IndexArg.listing [3]).Spells 3 (.ofNat 4) := .matrix (List.mem_singleton_self _)
    have hfourth : (IndexArg.listing [3]).Outside 3 := by
      refine ⟨_, hspells, by decide +kernel, fun hinside => ?_⟩
      rw [show (Complex.ofNat 4).re.toRat = 4 from Double.toRat_ofNat (by decide)] at hinside
      exact absurd hinside.2 (by norm_num)
    exact (hrefused _ hargs).1.mpr (.inl ⟨_, .outside
      (List.mem_cons_of_mem _ (List.mem_singleton_self _)) hfourth⟩)

/-- A whole number within the extent fits, also above the limit. -/
theorem scalar_fits {n extent : Nat} (hpos : 0 < n) (hle : n ≤ extent) (hn : n < 2 ^ 53) :
    ¬(IndexArg.value (.scalar (.ofNat n))).Unfit extent
      ∧ ¬(IndexArg.value (.scalar (.ofNat n))).Outside extent := by
  have hwhole : (Complex.ofNat n).isInteger = true := by
    rw [Complex.isInteger, Complex.ofNat, Complex.ofReal, Double.isWhole_ofNat hpos hn,
      Bool.and_true]
    exact (show Double.zero.isZero = true by decide)
  constructor
  · rintro (hkind | ⟨⟨⟩, hfraction⟩)
    · exact hkind List.mem_cons_self
    · exact Bool.false_ne_true (hfraction.symm.trans hwhole)
  · rintro ⟨_, ⟨⟩, -, houtside⟩
    have hrat : (Complex.ofNat n).re.toRat = n := Double.toRat_ofNat hn
    rw [hrat] at houtside
    exact houtside ⟨by exact_mod_cast hpos, by exact_mod_cast hle⟩

theorem listing_nil_fits (extent : Nat) :
    ¬(IndexArg.listing []).Unfit extent ∧ ¬(IndexArg.listing []).Outside extent := by
  have hnone {z : Complex} : ¬(IndexArg.listing []).Spells extent z := by
    rintro ⟨⟩
    contradiction
  constructor
  · rintro (hkind | ⟨hz, -⟩)
    · exact hkind (by decide)
    · exact hnone hz
  · rintro ⟨z, hz, -⟩
    exact hnone hz

/-- The last row of a matrix that has more rows than the limit, and no elements, is not found,
although nothing would be selected. -/
theorem not_index_of_selections : ¬∀ (m : Matrix) (args : List IndexArg), m.WellFormed →
    (∀ arg ∈ args, arg.WellFormed) →
    ((∃ fault, (matrix m).index args = .error fault) ↔ ∃ code, m.Misread args code) := by
  intro h
  have hm : Matrix.WellFormed ⟨134217729, 0, #[]⟩ := ⟨rfl, by decide⟩
  have hargs : ∀ arg ∈ [IndexArg.value (.scalar (.ofNat 134217729)), .listing []],
      arg.WellFormed :=
    List.forall_mem_cons.mpr ⟨trivial,
      List.forall_mem_singleton.mpr (IndexArg.wellFormed_listing (by decide))⟩
  have habove : (IndexArg.value (.scalar (.ofNat 134217729))).Oversteps 134217729 := by
    refine .number (.scalar _) (by decide +kernel) ?_
    rw [show (Complex.ofNat 134217729).re.toRat = (134217729 : Nat) from
      Double.toRat_ofNat (by decide)]
    exact_mod_cast (by decide : elementLimit < 134217729)
  obtain ⟨code, hmisread⟩ := (h _ _ hm hargs).mp
    ((exists_index_error_iff hm hargs).mpr (.inr ⟨_, _, List.mem_cons_self, habove⟩))
  have hfits {arg : IndexArg} {extent : Nat}
      (hmem : (arg, extent) ∈ [(IndexArg.value (.scalar (.ofNat 134217729)), 134217729),
        (.listing [], 0)]) : ¬arg.Unfit extent ∧ ¬arg.Outside extent := by
    rcases List.mem_cons.mp hmem with hlast | hmem
    · cases hlast
      exact scalar_fits (by decide) le_rfl (by decide)
    · cases List.mem_singleton.mp hmem
      exact listing_nil_fits 0
  cases hmisread with
  | count _ htwo => exact htwo rfl
  | unfit hmem hunfit => exact (hfits hmem).1 hunfit
  | outside hmem houtside => exact (hfits hmem).2 houtside
  | many hselects hmany =>
      obtain ⟨rs, cs, -, hcs, rfl⟩ := hselects.exists_crossing
      have hnothing : (IndexArg.listing []).Lists 0 [] :=
        IndexArg.listing_lists (List.forall_mem_nil _) 0
      rw [hcs.unique hnothing, List.length_nil, Nat.mul_zero] at hmany
      exact absurd hmany (Nat.not_lt_zero _)

end Value

end MatrixScript
