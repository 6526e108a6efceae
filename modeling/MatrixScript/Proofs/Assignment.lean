import MatrixScript.Proofs.Assignment.Indices
import MatrixScript.Proofs.Assignment.Writes

/-!
# Indexed assignment

When an assignment succeeds and what it gives, from the sequence of cells that its indices address.
The shape follows from the indices and the old shape, each cell from its last occurrence in the
sequence.
-/

namespace MatrixScript

open MatrixScript.Matrix (Writing)

/-- The cells that the indices address one after another, and the shape that the matrix needs for
them. One index counts the cells of that shape row by row. -/
inductive Matrix.Addresses (m : Matrix) :
    List IndexArg → (rows cols : Nat) → List (Nat × Nat) → Prop where
  | linear {arg : IndexArg} {picked : List Nat} {rows cols : Nat} {addressed : List (Nat × Nat)}
      (hpicked : arg.Lists m.count picked) (hshape : m.Lengthened picked rows cols)
      (hcells : List.Forall₂ (fun p cell => cell.1 * cols + cell.2 = p ∧ cell.2 < cols)
        picked addressed) :
      m.Addresses [arg] rows cols addressed
  | crossing {rowArg colArg : IndexArg} {rs cs : List Nat} {rows cols : Nat}
      (hrs : rowArg.Lists m.rows rs) (hcs : colArg.Lists m.cols cs)
      (hrows : IsLeast {n | m.rows ≤ n ∧ ∀ r ∈ rs, r < n} rows)
      (hcols : IsLeast {n | m.cols ≤ n ∧ ∀ c ∈ cs, c < n} cols) :
      m.Addresses [rowArg, colArg] rows cols (rs ×ˢ cs)

/-- A single element is written everywhere; otherwise there is one for each place of the sequence. -/
inductive Matrix.Supplies (source : Matrix) (count : Nat) (values : Nat → Complex) : Prop where
  | everywhere (hrows : source.rows = 1) (hcols : source.cols = 1)
      (hvalues : ∀ k < count, source.cell? 0 0 = some (values k))
  | each (hshape : ¬(source.rows = 1 ∧ source.cols = 1)) (hcount : source.count = count)
      (hvalues : ∀ k < count, source.data[k]? = some (values k))

/-- `new` is what an assignment of the elements of `source` makes of `m`. -/
def Matrix.Assigns (m : Matrix) (args : List IndexArg) (source new : Matrix) : Prop :=
  ∃ rows cols addressed values, m.Addresses args rows cols addressed
    ∧ source.Supplies addressed.length values ∧ Writing m rows cols addressed values new

/-- A matrix as a value: one of a single element is a number. -/
inductive Value.Presents (m : Matrix) : Value → Prop where
  | scalar {z : Complex} (hrows : m.rows = 1) (hcols : m.cols = 1) (hz : m.cell? 0 0 = some z) :
      Presents m (.scalar z)
  | matrix (hshape : ¬(m.rows = 1 ∧ m.cols = 1)) : Presents m (.matrix m)

namespace Value

variable {target v result : Value} {m source new : Matrix} {arg : IndexArg} {args : List IndexArg}
  {count : Nat} {values : Nat → Complex}

theorem presents_iff (h : m.WellFormed) : Presents m result ↔ ofMatrix m = result := by
  unfold ofMatrix Matrix.scalar?
  by_cases hshape : m.rows = 1 ∧ m.cols = 1
  · obtain ⟨z, hz⟩ := h.exists_cell? (r := 0) (c := 0) (by omega) (by omega)
    have hfirst := hz
    rw [Matrix.cell?_of_lt (by omega) (by omega), Nat.zero_mul] at hfirst
    rw [if_pos hshape, hfirst]
    constructor
    · intro hpresents
      cases hpresents with
      | scalar _ _ hz' =>
          rw [hz] at hz'
          cases hz'
          rfl
      | matrix hnot => exact absurd hshape hnot
    · rintro rfl
      exact .scalar hshape.1 hshape.2 hz
  · rw [if_neg hshape]
    constructor
    · intro hpresents
      cases hpresents with
      | scalar hrows hcols _ => exact absurd ⟨hrows, hcols⟩ hshape
      | matrix _ => rfl
    · rintro rfl
      exact .matrix hshape

/-! ### What is written -/

theorem assigned_everywhere (hsource : v.matrix? = some source) (hwell : source.WellFormed)
    (hshape : source.rows = 1 ∧ source.cols = 1) (count : Nat) :
    ∃ z, source.cell? 0 0 = some z ∧ v.assigned count = .ok (.everywhere z) := by
  obtain ⟨z, hz⟩ := hwell.exists_cell? (r := 0) (c := 0) (by omega) (by omega)
  have hfirst := hz
  rw [Matrix.cell?_of_lt (by omega) (by omega), Nat.zero_mul] at hfirst
  refine ⟨z, hz, ?_⟩
  simp only [assigned, hsource, Matrix.scalar?, if_pos hshape, hfirst]

theorem assigned_each (hsource : v.matrix? = some source)
    (hshape : ¬(source.rows = 1 ∧ source.cols = 1)) (hcount : source.count = count) :
    v.assigned count = .ok (.each source.data) := by
  simp only [assigned, hsource, Matrix.scalar?, if_neg hshape, if_pos hcount]

theorem get_each {data : Array Complex} {k : Nat} (hk : k < data.size) :
    data[k]? = some ((Assigned.each data).get k) := by
  rw [Assigned.get, Array.getD_eq_getD_getElem?, Array.getElem?_eq_getElem hk, Option.getD_some]

theorem assigned_supplies {elements : Assigned} (hv : v.WellFormed)
    (h : v.assigned count = .ok elements) :
    ∃ source, v.matrix? = some source ∧ source.Supplies count elements.get := by
  cases hsource : v.matrix? with
  | none =>
      simp only [assigned, hsource] at h
      cases h
  | some source =>
      refine ⟨source, rfl, ?_⟩
      by_cases hshape : source.rows = 1 ∧ source.cols = 1
      · obtain ⟨z, hz, hassigned⟩ := assigned_everywhere hsource (hv.matrix? hsource) hshape count
        cases hassigned.symm.trans h
        exact .everywhere hshape.1 hshape.2 fun _ _ => hz
      · by_cases hcount : source.count = count
        · cases (assigned_each hsource hshape hcount).symm.trans h
          exact .each hshape hcount fun k hk => get_each (hk.trans_eq hcount.symm)
        · simp only [assigned, hsource, Matrix.scalar?, if_neg hshape, if_neg hcount] at h
          cases h

theorem exists_assigned (hv : v.WellFormed) (hsource : v.matrix? = some source)
    (h : source.Supplies count values) :
    ∃ elements, v.assigned count = .ok elements ∧ ∀ k < count, elements.get k = values k := by
  cases h with
  | everywhere hrows hcols hvalues =>
      obtain ⟨z, hz, hassigned⟩ :=
        assigned_everywhere hsource (hv.matrix? hsource) ⟨hrows, hcols⟩ count
      exact ⟨_, hassigned, fun k hk => Option.some.inj (hz.symm.trans (hvalues k hk))⟩
  | each hshape hcount hvalues =>
      refine ⟨_, assigned_each hsource hshape hcount, fun k hk => ?_⟩
      exact Option.some.inj ((get_each (hk.trans_eq hcount.symm)).symm.trans (hvalues k hk))

/-! ### Both forms of assignment -/

theorem forall₂_places {picked : List Nat} {rows cols : Nat} (h : ∀ p ∈ picked, p < rows * cols) :
    List.Forall₂ (fun p cell => cell.1 * cols + cell.2 = p ∧ cell.2 < cols) picked
      (picked.map fun p => (p / cols, p % cols)) := by
  rw [List.forall₂_map_right_iff, List.forall₂_same]
  intro p hp
  exact ⟨Nat.div_add_mod' p cols, Matrix.mod_lt_of_place (h p hp)⟩

theorem eq_places {picked : List Nat} {addressed : List (Nat × Nat)} {cols : Nat}
    (h : List.Forall₂ (fun p cell => cell.1 * cols + cell.2 = p ∧ cell.2 < cols) picked addressed) :
    addressed = picked.map fun p => (p / cols, p % cols) := by
  induction h with
  | nil => rfl
  | cons hcell _ ih =>
      obtain ⟨rfl, hlt⟩ := hcell
      rw [List.map_cons, Matrix.place_div hlt, Matrix.place_mod hlt, ← ih]

/-- What is needed for a sequence of linear positions holds all of them. -/
theorem lengthened_places {picked : List Nat} {rows cols : Nat} (hm : m.WellFormed)
    (h : m.Lengthened picked rows cols) : ∀ p ∈ picked, p < rows * cols := by
  intro p hp
  cases h with
  | kept hall hrows hcols =>
      rw [hrows, hcols, ← hm.size_eq]
      exact hall p hp
  | row _ _ hrows hcols =>
      rw [hrows, Nat.one_mul]
      exact hcols.1 p hp
  | column _ _ _ hrows hcols =>
      rw [hcols, Nat.mul_one]
      exact hrows.1 p hp

theorem assignMatrix_linear_iff (hm : m.WellFormed) (hv : v.WellFormed) :
    assignMatrix m v [arg] = .ok result ↔ ∃ source new, v.matrix? = some source
      ∧ m.Assigns [arg] source new ∧ Presents new result := by
  simp only [assignMatrix, bind_ok_iff, pure, Except.pure, Except.ok.injEq]
  constructor
  · rintro ⟨picked, hpicked, grown, hgrown, elements, helements, hresult⟩
    obtain ⟨hshape, hstart⟩ := (growLinear_eq_ok_iff hm elements.get).mp hgrown
    obtain ⟨source, hsource, hsupplies⟩ := assigned_supplies hv helements
    have hplaces := lengthened_places hm hshape
    have hwriting := writeLinear_writing hstart hplaces
    have hlists := IndexArg.positions_eq_ok_iff.mp hpicked
    refine ⟨source, _, hsource, ⟨_, _, _, _, .linear hlists hshape (forall₂_places hplaces), ?_,
      hwriting⟩, (presents_iff hwriting.wellFormed).mpr hresult⟩
    rwa [List.length_map, Array.length_toList]
  · rintro ⟨source, new, hsource, ⟨rows, cols, addressed, values, haddresses, hsupplies, hwriting⟩,
      hpresents⟩
    cases haddresses with
    | @linear _ ps _ _ _ hlists hshape hcells =>
        obtain ⟨picked, rfl⟩ : ∃ picked : Array Nat, ps = picked.toList := ⟨ps.toArray, rfl⟩
        have hpicked := IndexArg.positions_eq_ok_iff.mpr hlists
        have hplaces := lengthened_places hm hshape
        obtain rfl := eq_places hcells
        have hlength : (picked.toList.map fun p => (p / cols, p % cols)).length = picked.size := by
          rw [List.length_map, Array.length_toList]
        obtain ⟨elements, helements, hvalues⟩ := exists_assigned hv hsource hsupplies
        obtain ⟨grown, hgrown, hstart⟩ := exists_growLinear hm hshape
          (hwriting.rows_eq ▸ hwriting.cols_eq ▸ hwriting.wellFormed.size_le) elements.get
        have hnew := (writeLinear_writing hstart hplaces).unique hwriting hvalues
        refine ⟨picked, hpicked, grown, hgrown, elements, hlength ▸ helements, ?_⟩
        rw [hnew]
        exact (presents_iff hwriting.wellFormed).mp hpresents

theorem assignMatrix_crossing_iff {rowArg colArg : IndexArg} (hm : m.WellFormed)
    (hv : v.WellFormed) :
    assignMatrix m v [rowArg, colArg] = .ok result ↔ ∃ source new, v.matrix? = some source
      ∧ m.Assigns [rowArg, colArg] source new ∧ Presents new result := by
  have hlength (rs cs : Array Nat) : (rs.toList ×ˢ cs.toList).length = rs.size * cs.size := by
    rw [List.length_product, Array.length_toList, Array.length_toList]
  simp only [assignMatrix, bind_ok_iff, pure, Except.pure, Except.ok.injEq]
  constructor
  · rintro ⟨rs, hrs, cs, hcs, grown, hgrown, elements, helements, hresult⟩
    have hrows := max_extentOf_least rs m.rows
    have hcols := max_extentOf_least cs m.cols
    have hstart := (growTo_eq_ok_iff hm elements.get).mp hgrown
    have hwriting := writeCells_writing hstart hrows.1.2 hcols.1.2
    obtain ⟨source, hsource, hsupplies⟩ := assigned_supplies hv helements
    refine ⟨source, _, hsource, ⟨_, _, _, _, .crossing (IndexArg.positions_eq_ok_iff.mp hrs)
      (IndexArg.positions_eq_ok_iff.mp hcs) hrows hcols, ?_, hwriting⟩,
      (presents_iff hwriting.wellFormed).mpr hresult⟩
    rwa [hlength]
  · rintro ⟨source, new, hsource, ⟨rows, cols, addressed, values, haddresses, hsupplies, hwriting⟩,
      hpresents⟩
    cases haddresses with
    | @crossing _ _ rl cl _ _ hrl hcl hrows hcols =>
        obtain ⟨rs, rfl⟩ : ∃ rs : Array Nat, rl = rs.toList := ⟨rl.toArray, rfl⟩
        obtain ⟨cs, rfl⟩ : ∃ cs : Array Nat, cl = cs.toList := ⟨cl.toArray, rfl⟩
        have hrs := IndexArg.positions_eq_ok_iff.mpr hrl
        have hcs := IndexArg.positions_eq_ok_iff.mpr hcl
        obtain rfl := hrows.unique (max_extentOf_least rs m.rows)
        obtain rfl := hcols.unique (max_extentOf_least cs m.cols)
        obtain ⟨elements, helements, hvalues⟩ := exists_assigned hv hsource hsupplies
        have hlimit := hwriting.rows_eq ▸ hwriting.cols_eq ▸ hwriting.wellFormed.size_le
        have hstart := Matrix.writing_generate (m := m) hlimit elements.get
        have hnew := (writeCells_writing hstart hrows.1.2 hcols.1.2).unique hwriting hvalues
        refine ⟨rs, hrs, cs, hcs, _, (growTo_eq_ok_iff hm elements.get).mpr hstart, elements,
          hlength rs cs ▸ helements, ?_⟩
        rw [hnew]
        exact (presents_iff hwriting.wellFormed).mp hpresents

theorem assignMatrix_eq_ok_iff (hm : m.WellFormed) (hv : v.WellFormed) :
    assignMatrix m v args = .ok result ↔ ∃ source new, v.matrix? = some source
      ∧ m.Assigns args source new ∧ Presents new result := by
  have hnone (h : ∀ rows cols addressed, ¬m.Addresses args rows cols addressed) (fault : Fault) :
      (.error fault : Result Value) = .ok result ↔ ∃ source new, v.matrix? = some source
        ∧ m.Assigns args source new ∧ Presents new result := by
    constructor
    · intro hresult
      cases hresult
    · rintro ⟨_, _, _, ⟨rows, cols, addressed, _, haddresses, -⟩, -⟩
      exact absurd haddresses (h rows cols addressed)
  match args with
  | [] => exact hnone nofun _
  | [_] => exact assignMatrix_linear_iff hm hv
  | [_, _] => exact assignMatrix_crossing_iff hm hv
  | _ :: _ :: _ :: _ => exact hnone nofun _

theorem assignMatrix_past {picked : Array Nat} (hm : m.WellFormed) (hrows : 2 ≤ m.rows)
    (hcols : 2 ≤ m.cols) (hpicked : arg.positions m.count = .ok picked)
    (hpast : ∃ p ∈ picked.toList, m.count ≤ p) :
    ∃ message, assignMatrix m v [arg] = .error (.argumentRange message) := by
  have hcount : m.count ≠ 0 := by
    have hsize : m.count = m.rows * m.cols := hm.size_eq
    rw [hsize]
    exact Nat.mul_ne_zero (by omega) (by omega)
  have hrow : ¬(m.isEmpty || decide (m.rows = 1)) = true := by
    rw [Bool.or_eq_true, decide_eq_true_iff, not_or]
    exact ⟨mt Array.isEmpty_iff_size_eq_zero.mp hcount, by omega⟩
  have hcolumn : m.cols ≠ 1 := by omega
  have hgrow : growLinear m (extentOf picked)
      = .error (.indexOutOfBounds (toString (extentOf picked)) m.count) := by
    rw [growLinear, if_neg (past_iff.mp hpast), if_neg hrow, if_neg hcolumn]
  refine ⟨"index " ++ toString (extentOf picked) ++ " is out of bounds; valid indices are 1 to "
    ++ toString m.count, ?_⟩
  simp only [assignMatrix, hpicked, hgrow, bind, Except.bind]
  rfl

/-! ### Assignment -/

/-- Assignment gives what the addressed sequence says, and nothing else. Past the end of a matrix
with several rows and columns there is nothing that one index could address. -/
theorem assignIndex_eq_ok_iff (htarget : target.WellFormed) (hv : v.WellFormed)
    (args : List IndexArg) (result : Value) :
    (target.assignIndex args v = .ok result ↔ ∃ m source new, target.matrix? = some m
      ∧ v.matrix? = some source ∧ m.Assigns args source new ∧ Presents new result)
    ∧ ∀ m arg picked, target.matrix? = some m → 2 ≤ m.rows → 2 ≤ m.cols →
      arg.Lists m.count picked → (∃ p ∈ picked, m.count ≤ p) →
      ∃ message, target.assignIndex [arg] v = .error (.argumentRange message) := by
  have hindexed (m : Matrix) (hm : target.matrix? = some m) (args : List IndexArg) :
      target.assignIndex args v = assignMatrix m v args := by
    rw [assignIndex, indexTarget, hm]
    rfl
  constructor
  · cases hmatrix : target.matrix? with
    | none =>
        constructor
        · intro h
          rw [assignIndex, indexTarget, hmatrix] at h
          cases h
        · rintro ⟨m, -, -, hm, -⟩
          cases hm
    | some m =>
        rw [hindexed m hmatrix, assignMatrix_eq_ok_iff (htarget.matrix? hmatrix) hv]
        constructor
        · rintro ⟨source, new, h⟩
          exact ⟨m, source, new, rfl, h⟩
        · rintro ⟨_, source, new, ⟨⟩, h⟩
          exact ⟨source, new, h⟩
  · intro m arg picked hm hrows hcols hlists hpast
    rw [hindexed m hm]
    have hpicked : arg.positions m.count = .ok picked.toArray :=
      IndexArg.positions_eq_ok_iff.mpr hlists
    exact assignMatrix_past (htarget.matrix? hm) hrows hcols hpicked hpast

/-- Whether a value is this matrix, so that a run can be compared with it. -/
def isMatrix (m : Matrix) : Value → Bool
  | matrix n => decide (n = m)
  | _ => false

theorem eq_of_isMatrix {m : Matrix} {v : Value} (h : v.isMatrix m = true) : v = matrix m := by
  cases v with
  | matrix n => rw [of_decide_eq_true h]
  | _ => cases h

/-- A row of two grows to four elements. The last of the values for the fourth one is kept, and the
third one is filled up. A square of two rows has no fifth element and gets none. -/
theorem assignIndex_row :
    (matrix (.rowVector #[.ofNat 5, .ofNat 6])).WellFormed
    ∧ (matrix (.rowVector #[.ofNat 7, .ofNat 8, .ofNat 9])).WellFormed
    ∧ (∃ m source new, (matrix (.rowVector #[.ofNat 5, .ofNat 6])).matrix? = some m
        ∧ (matrix (.rowVector #[.ofNat 7, .ofNat 8, .ofNat 9])).matrix? = some source
        ∧ m.Assigns [.value (matrix (.rowVector #[.ofNat 4, .ofNat 2, .ofNat 4]))] source new
        ∧ Presents new (matrix (.rowVector #[.ofNat 5, .ofNat 8, .ofNat 0, .ofNat 9])))
    ∧ ∃ message, (matrix (.generate 2 2 fun _ _ => .zero)).assignIndex [.value (.ofNat 5)] (.ofNat 1)
        = .error (.argumentRange message) := by
  have hrow : (matrix (.rowVector #[.ofNat 5, .ofNat 6])).WellFormed :=
    Matrix.wellFormed_rowVector (by decide)
  have hvalues : (matrix (.rowVector #[.ofNat 7, .ofNat 8, .ofNat 9])).WellFormed :=
    Matrix.wellFormed_rowVector (by decide)
  have hrun : (matrix (.rowVector #[.ofNat 5, .ofNat 6])).assignIndex
      [.value (matrix (.rowVector #[.ofNat 4, .ofNat 2, .ofNat 4]))]
      (matrix (.rowVector #[.ofNat 7, .ofNat 8, .ofNat 9]))
        = .ok (matrix (.rowVector #[.ofNat 5, .ofNat 8, .ofNat 0, .ofNat 9])) := by
    have hmatrix : ((matrix (.rowVector #[.ofNat 5, .ofNat 6])).assignIndex
        [.value (matrix (.rowVector #[.ofNat 4, .ofNat 2, .ofNat 4]))]
        (matrix (.rowVector #[.ofNat 7, .ofNat 8, .ofNat 9]))).toOption.any
          (isMatrix (.rowVector #[.ofNat 5, .ofNat 8, .ofNat 0, .ofNat 9])) = true := by
      decide +kernel
    cases hassigned : (matrix (.rowVector #[.ofNat 5, .ofNat 6])).assignIndex
        [.value (matrix (.rowVector #[.ofNat 4, .ofNat 2, .ofNat 4]))]
        (matrix (.rowVector #[.ofNat 7, .ofNat 8, .ofNat 9])) with
    | error fault =>
        rw [hassigned] at hmatrix
        cases hmatrix
    | ok v =>
        rw [hassigned] at hmatrix
        rw [eq_of_isMatrix hmatrix]
  refine ⟨hrow, hvalues, ((assignIndex_eq_ok_iff hrow hvalues _ _).1).mp hrun, ?_⟩
  have hsquare : (matrix (.generate 2 2 fun _ _ => Complex.zero)).WellFormed :=
    Matrix.wellFormed_generate (by decide) _
  exact (assignIndex_eq_ok_iff hsquare (v := .ofNat 1) trivial [] (.ofNat 0)).2 _ _ [4] rfl
    (by decide) (by decide) (.scalar ⟨rfl, rfl, by decide⟩)
    ⟨4, List.mem_singleton_self 4, by decide⟩

end Value

end MatrixScript
