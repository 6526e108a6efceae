import MatrixScript.Proofs.Selections

/-!
# The extent that an index counts within

`end` is bound before indexing to what the value says about its shape. Indexing itself goes by the
matrix that the value stands for, or by the characters of a text. These agree for every value that
can be indexed, with one exception: a range without elements says that it has one column, but the
matrix it stands for has none.
-/

namespace MatrixScript

namespace Value

/-- Numbers, texts and bounded ranges can be indexed. -/
def Indexable : Value → Prop
  | scalar _ | matrix _ | text _ => True
  | range r => r.isOpen = false
  | set _ | function _ | plot _ _ => False

def IsEmptyRange (v : Value) : Prop := ∃ r, v = range r ∧ r.isEmpty = true

/-- An index at a position among others counts within an extent. Colons and open ranges resolve
against it, and positions past it are refused. -/
structure Counts (v : Value) (position count extent : Nat) : Prop where
  /-- Whatever the others are, only the positions within the extent decide what is read. -/
  reads : ∀ args : List IndexArg, args.length = count →
    ∃ read : Array Nat → Value → Prop, ∀ arg result, v.index (args.set position arg) = .ok result
      ↔ ∃ picked, arg.positionsWithin extent = .ok picked ∧ read picked result
  /-- The others can be such that all positions within the extent are read, and that everything
  else is refused for what is wrong with it there. -/
  refuses : ∃ args : List IndexArg, args.length = count ∧ ∃ read : Array Nat → Value,
    ∀ arg, v.index (args.set position arg) = (arg.positionsWithin extent).map read

variable {v : Value} {m : Matrix} {position count : Nat}

/-- Of two extents that an index counts within, none is larger, as far as matrices have elements. -/
theorem Counts.le {extent other : Nat} (h : v.Counts position count extent)
    (hother : v.Counts position count other) (hlimit : extent ≤ elementLimit) : extent ≤ other := by
  apply Nat.le_of_not_lt
  intro hlt
  obtain ⟨args, hargs, read, hread⟩ := h.refuses
  obtain ⟨reads, hreads⟩ := hother.reads args hargs
  have hlists (bound : Nat) : (IndexArg.listing [other]).Lists bound [other] :=
    IndexArg.listing_lists (List.forall_mem_singleton.mpr (hlt.trans_le hlimit)) bound
  have hpicked : (IndexArg.listing [other]).positionsWithin extent = .ok #[other] :=
    positionsWithin_eq_ok_iff.mpr ⟨hlists extent, List.forall_mem_singleton.mpr hlt⟩
  have hindex := hread (.listing [other])
  rw [hpicked] at hindex
  obtain ⟨picked, hwithin, -⟩ := (hreads _ _).mp hindex
  obtain ⟨hpicked', hbound⟩ := positionsWithin_eq_ok_iff.mp hwithin
  rw [← (hlists other).unique hpicked'] at hbound
  exact Nat.lt_irrefl other (hbound other List.mem_cons_self)

/-- An index counts within just one extent, as far as matrices have elements. -/
theorem Counts.unique {extent other : Nat} (h : v.Counts position count extent)
    (hother : v.Counts position count other) (hlimit : extent ≤ elementLimit)
    (hlimit' : other ≤ elementLimit) : extent = other :=
  Nat.le_antisymm (h.le hother hlimit) (hother.le h hlimit')

theorem map_eq_ok_iff {α β : Type} {x : Result α} {f : α → β} {b : β} :
    x.map f = .ok b ↔ ∃ a, x = .ok a ∧ f a = b := by
  cases x <;> simp [Except.map]

/-- A lone index counts within an extent if reading depends on it just so. -/
theorem counts_single {extent : Nat} {read : Array Nat → Value}
    (h : ∀ arg, v.index [arg] = (arg.positionsWithin extent).map read) : v.Counts 0 1 extent := by
  constructor
  · intro args hargs
    obtain ⟨other, rfl⟩ := List.length_eq_one_iff.mp hargs
    refine ⟨fun picked result => read picked = result, fun arg result => ?_⟩
    rw [List.set_cons_zero, h]
    exact map_eq_ok_iff
  · exact ⟨[.all], rfl, read, h⟩

/-! ### Matrices -/

/-- The index that lists no place. -/
def nowhere : IndexArg := .listing []

theorem positions_nowhere (extent : Nat) : nowhere.positions extent = .ok #[] :=
  IndexArg.positions_eq_ok_iff.mpr (IndexArg.listing_lists (List.forall_mem_nil _) extent)

theorem positionsWithin_of_positions {arg : IndexArg} {extent : Nat} {picked : Array Nat}
    (h : arg.positions extent = .ok picked) : arg.positionsWithin extent
      = (IndexArg.checkBounds picked extent).map fun _ => picked := by
  rw [IndexArg.positionsWithin, h]
  rfl

theorem positionsWithin_of_error {arg : IndexArg} {extent : Nat} {fault : Fault}
    (h : arg.positions extent = .error fault) : arg.positionsWithin extent = .error fault := by
  rw [IndexArg.positionsWithin, h]
  rfl

theorem indexMatrix_nowhere_col (m : Matrix) (arg : IndexArg) : indexMatrix m [arg, nowhere]
    = (arg.positionsWithin m.rows).map fun picked => ofMatrix (crossing m picked.toList []) := by
  cases hrs : arg.positions m.rows with
  | error fault =>
      rw [indexMatrix_row_error hrs, positionsWithin_of_error hrs]
      rfl
  | ok rs =>
      rw [positionsWithin_of_positions hrs]
      cases hbounds : IndexArg.checkBounds rs m.rows with
      | error fault =>
          rw [indexMatrix_crossing hrs (positions_nowhere m.cols), hbounds]
          rfl
      | ok =>
          have hrows := IndexArg.checkBounds_eq_ok_iff.mp hbounds
          have hlists := IndexArg.positions_eq_ok_iff.mp hrs
          exact indexMatrix_crossing_eq_ok_iff.mpr ⟨rs.toList, [], hlists,
            IndexArg.positions_eq_ok_iff.mp (positions_nowhere m.cols), hrows,
            List.forall_mem_nil _, Nat.zero_le _, rfl⟩

theorem indexMatrix_nowhere_row (m : Matrix) (arg : IndexArg) : indexMatrix m [nowhere, arg]
    = (arg.positionsWithin m.cols).map fun picked => ofMatrix (crossing m [] picked.toList) := by
  cases hcs : arg.positions m.cols with
  | error fault =>
      rw [indexMatrix_col_error (positions_nowhere m.rows) hcs, positionsWithin_of_error hcs]
      rfl
  | ok cs =>
      rw [positionsWithin_of_positions hcs]
      cases hbounds : IndexArg.checkBounds cs m.cols with
      | error fault =>
          have hnone : IndexArg.checkBounds #[] m.rows = .ok () :=
            IndexArg.checkBounds_eq_ok_iff.mpr (List.forall_mem_nil _)
          rw [indexMatrix_crossing (positions_nowhere m.rows) hcs, hnone, hbounds]
          rfl
      | ok =>
          have hcols := IndexArg.checkBounds_eq_ok_iff.mp hbounds
          have hlists := IndexArg.positions_eq_ok_iff.mp hcs
          refine indexMatrix_crossing_eq_ok_iff.mpr ⟨[], cs.toList,
            IndexArg.positions_eq_ok_iff.mp (positions_nowhere m.rows), hlists,
            List.forall_mem_nil _, hcols, ?_, rfl⟩
          rw [List.length_nil, Nat.zero_mul]
          exact Nat.zero_le _

section Matrices

variable (h : v.matrix? = some m)

include h

theorem counts_places : v.Counts 0 1 m.count := by
  have hindex (arg : IndexArg) : v.index [arg]
      = (arg.positionsWithin m.count).map fun picked => ofMatrix (pickElements m picked) := by
    rw [index_of_matrix? h, indexMatrix]
    cases arg.positionsWithin m.count <;> rfl
  exact counts_single hindex

theorem counts_rows : v.Counts 0 2 m.rows := by
  constructor
  · intro args hargs
    obtain ⟨row, col, rfl⟩ := List.length_eq_two.mp hargs
    refine ⟨fun picked result => ∃ cs, col.Lists m.cols cs ∧ (∀ c ∈ cs, c < m.cols)
      ∧ picked.size * cs.length ≤ elementLimit ∧ result = ofMatrix (crossing m picked.toList cs),
      fun arg result => ?_⟩
    rw [List.set_cons_zero, index_of_matrix? h, indexMatrix_crossing_eq_ok_iff]
    constructor
    · rintro ⟨rs, cs, hrs, hcs, hrows, hcols, hrest⟩
      exact ⟨rs.toArray, positionsWithin_eq_ok_iff.mpr ⟨hrs, hrows⟩, cs, hcs, hcols, hrest⟩
    · rintro ⟨picked, hpicked, cs, hcs, hcols, hrest⟩
      obtain ⟨hrs, hrows⟩ := positionsWithin_eq_ok_iff.mp hpicked
      exact ⟨picked.toList, cs, hrs, hcs, hrows, hcols, hrest⟩
  · refine ⟨[.all, nowhere], rfl, fun picked => ofMatrix (crossing m picked.toList []),
      fun arg => ?_⟩
    rw [List.set_cons_zero, index_of_matrix? h]
    exact indexMatrix_nowhere_col m arg

theorem counts_cols : v.Counts 1 2 m.cols := by
  constructor
  · intro args hargs
    obtain ⟨row, col, rfl⟩ := List.length_eq_two.mp hargs
    refine ⟨fun picked result => ∃ rs, row.Lists m.rows rs ∧ (∀ r ∈ rs, r < m.rows)
      ∧ rs.length * picked.size ≤ elementLimit ∧ result = ofMatrix (crossing m rs picked.toList),
      fun arg result => ?_⟩
    rw [List.set_cons_succ, List.set_cons_zero, index_of_matrix? h, indexMatrix_crossing_eq_ok_iff]
    constructor
    · rintro ⟨rs, cs, hrs, hcs, hrows, hcols, hrest⟩
      exact ⟨cs.toArray, positionsWithin_eq_ok_iff.mpr ⟨hcs, hcols⟩, rs, hrs, hrows, hrest⟩
    · rintro ⟨picked, hpicked, rs, hrs, hrows, hrest⟩
      obtain ⟨hcs, hcols⟩ := positionsWithin_eq_ok_iff.mp hpicked
      exact ⟨rs, picked.toList, hrs, hcs, hrows, hcols, hrest⟩
  · refine ⟨[nowhere, .all], rfl, fun picked => ofMatrix (crossing m [] picked.toList),
      fun arg => ?_⟩
    rw [List.set_cons_succ, List.set_cons_zero, index_of_matrix? h]
    exact indexMatrix_nowhere_row m arg

end Matrices

/-! ### Texts -/

/-- The characters of a text at some positions. -/
def charsAt (s : String) (picked : Array Nat) : Value :=
  text (String.ofList (picked.toList.map (s.toList.toArray.getD · ' ')))

theorem pickChars_eq (s : String) (arg : IndexArg) :
    pickChars s arg = (arg.positionsWithin s.length).map (charsAt s) := by
  rw [pickChars, List.size_toArray, String.length_toList]
  cases arg.positionsWithin s.length <;> rfl

theorem counts_chars (s : String) : (text s).Counts 0 1 s.length :=
  counts_single (pickChars_eq s)

theorem counts_text_rows (s : String) : (text s).Counts 0 2 1 := by
  have hindex (arg other : IndexArg) : (text s).index [arg, other]
      = (arg.positionsWithin 1).bind fun _ => pickChars s other := rfl
  constructor
  · intro args hargs
    obtain ⟨row, col, rfl⟩ := List.length_eq_two.mp hargs
    refine ⟨fun _ result => pickChars s col = .ok result, fun arg result => ?_⟩
    rw [List.set_cons_zero, hindex]
    exact bind_ok_iff
  · refine ⟨[.all, nowhere], rfl, fun _ => charsAt s #[], fun arg => ?_⟩
    rw [List.set_cons_zero, hindex, pickChars_eq,
      positionsWithin_of_positions (positions_nowhere s.length)]
    cases arg.positionsWithin 1 <;> rfl

theorem counts_text_cols (s : String) : (text s).Counts 1 2 s.length := by
  have hindex (other arg : IndexArg) : (text s).index [other, arg]
      = (other.positionsWithin 1).bind fun _ => pickChars s arg := rfl
  constructor
  · intro args hargs
    obtain ⟨row, col, rfl⟩ := List.length_eq_two.mp hargs
    refine ⟨fun picked result => (∃ rs, row.positionsWithin 1 = .ok rs) ∧ charsAt s picked = result,
      fun arg result => ?_⟩
    rw [List.set_cons_succ, List.set_cons_zero, hindex, pickChars_eq]
    constructor
    · intro hresult
      obtain ⟨rs, hrs, hresult⟩ := bind_ok_iff.mp hresult
      obtain ⟨picked, hpicked, hresult⟩ := map_eq_ok_iff.mp hresult
      exact ⟨picked, hpicked, ⟨rs, hrs⟩, hresult⟩
    · rintro ⟨picked, hpicked, ⟨rs, hrs⟩, hresult⟩
      exact bind_ok_iff.mpr ⟨rs, hrs, map_eq_ok_iff.mpr ⟨picked, hpicked, hresult⟩⟩
  · refine ⟨[nowhere, .all], rfl, charsAt s, fun arg => ?_⟩
    rw [List.set_cons_succ, List.set_cons_zero, hindex, pickChars_eq,
      positionsWithin_of_positions (positions_nowhere 1)]
    rfl

/-! ### What `end` stands for -/

/-- A lone index counts all elements, and of two the first counts rows and the second columns. -/
theorem exists_indexExtent? {rows cols : Nat} (hshape : v.shape? = some (rows, cols))
    {P : Nat → Nat → Nat → Prop} (hplaces : P 0 1 (rows * cols)) (hrows : P 0 2 rows)
    (hcols : P 1 2 cols) (hcount : count = 1 ∨ count = 2) (hposition : position < count) :
    ∃ n, v.indexExtent? position count = some n ∧ P position count n := by
  unfold indexExtent?
  rw [hshape]
  rcases hcount with rfl | rfl
  · obtain rfl : position = 0 := by omega
    exact ⟨_, rfl, hplaces⟩
  · obtain rfl | rfl : position = 0 ∨ position = 1 := by omega
    · exact ⟨_, rfl, hrows⟩
    · exact ⟨_, rfl, hcols⟩

/-- The matrix of a bounded range is a column, but has no column if it has no row. -/
theorem exists_matrix?_range {r : Progression} {n : Nat} (h : r.length? = some n) :
    ∃ m, (range r).matrix? = some m ∧ m.count = n ∧ m.rows = n
      ∧ m.cols = if n = 0 then 0 else 1 := by
  refine ⟨_, congrArg (Option.map _) (congrArg (Option.map _) h), ?_, ?_, ?_⟩ <;>
    simp [Matrix.count, Matrix.columnVector]

theorem exists_length? {r : Progression} (h : r.isOpen = false) : ∃ n, r.length? = some n := by
  obtain ⟨start, step, stop⟩ := r
  cases stop with
  | «at» stop => exact ⟨_, rfl⟩
  | «open» => cases h

/-- The index at each position counts within what the shape says. -/
def CountsByShape (v : Value) : Prop :=
  ∃ rows cols, v.shape? = some (rows, cols) ∧ v.Counts 0 1 (rows * cols) ∧ v.Counts 0 2 rows
    ∧ v.Counts 1 2 cols

theorem countsByShape_of_matrix? (h : v.matrix? = some m)
    (hshape : v.shape? = some (m.rows, m.cols)) (hcount : m.count = m.rows * m.cols) :
    v.CountsByShape :=
  ⟨m.rows, m.cols, hshape, hcount ▸ counts_places h, counts_rows h, counts_cols h⟩

theorem countsByShape (hv : v.WellFormed) (hindexable : v.Indexable) (hsome : ¬v.IsEmptyRange) :
    v.CountsByShape := by
  cases v with
  | scalar z => exact countsByShape_of_matrix? (m := .scalar z) rfl rfl rfl
  | matrix m => exact countsByShape_of_matrix? rfl rfl hv.size_eq
  | text s =>
      refine ⟨1, s.length, rfl, ?_, counts_text_rows s, counts_text_cols s⟩
      rw [Nat.one_mul]
      exact counts_chars s
  | range r =>
      obtain ⟨n, hn⟩ := exists_length? hindexable
      obtain ⟨m, hm, hcount, hrows, hcols⟩ := exists_matrix?_range hn
      have hpositive : n ≠ 0 := by
        rintro rfl
        exact hsome ⟨r, rfl, decide_eq_true hn⟩
      rw [if_neg hpositive] at hcols
      apply countsByShape_of_matrix? hm
      · rw [shape?, hn, hrows, hcols]
        rfl
      · rw [hcount, hrows, hcols, Nat.mul_one]
  | set | function | plot => cases hindexable

theorem IsEmptyRange.counts (h : v.IsEmptyRange) :
    v.shape? = some (0, 1) ∧ v.Counts 0 1 0 ∧ v.Counts 0 2 0 ∧ v.Counts 1 2 0 := by
  obtain ⟨r, rfl, hempty⟩ := h
  have hlength : r.length? = some 0 := of_decide_eq_true hempty
  obtain ⟨m, hm, hcount, hrows, hcols⟩ := exists_matrix?_range hlength
  have hplaces := counts_places hm
  have hrows' := counts_rows hm
  have hcols' := counts_cols hm
  rw [hcount] at hplaces
  rw [hrows] at hrows'
  rw [hcols] at hcols'
  exact ⟨congrArg (Option.map (·, 1)) hlength, hplaces, hrows', hcols'⟩

theorem IsEmptyRange.not_counts (h : v.IsEmptyRange) : ¬v.Counts 1 2 1 := by
  intro hone
  have hnone := h.counts.2.2.2
  cases hone.unique hnone (by decide) (by decide)

/-- The range from five up to four. -/
def noElements : Value := range ⟨.ofNat 5, .one, .at (.ofNat 4)⟩

theorem wellFormed_noElements : noElements.WellFormed := ⟨by decide, by decide, by decide⟩

theorem isEmptyRange_noElements : noElements.IsEmptyRange := ⟨_, rfl, by decide⟩

/-- What `end` stands for is what the index counts within, but not in the columns of a range without
elements: there `end` is one, and the index counts within zero. -/
theorem counts_indexExtent (hv : v.WellFormed) (hindexable : v.Indexable)
    (hcount : count = 1 ∨ count = 2) (hposition : position < count) :
    ∃ n, v.indexExtent? position count = some n
      ∧ (v.Counts position count n ↔ ¬(v.IsEmptyRange ∧ position = 1))
      ∧ (v.IsEmptyRange ∧ position = 1 → n = 1 ∧ v.Counts position count 0) := by
  by_cases hempty : v.IsEmptyRange
  · obtain ⟨hshape, hplaces, hrows, hcols⟩ := hempty.counts
    apply exists_indexExtent? hshape _ _ _ hcount hposition
    · simp [hplaces]
    · simp [hrows]
    · simp [hempty, hempty.not_counts, hcols]
  · obtain ⟨rows, cols, hshape, hplaces, hrows, hcols⟩ := countsByShape hv hindexable hempty
    apply exists_indexExtent? hshape _ _ _ hcount hposition
    · simp [hplaces]
    · simp [hrows]
    · simp [hempty, hcols]

/-- A matrix without rows has columns all the same; a range without elements does not. -/
theorem counts_indexExtent_no_rows :
    (matrix ⟨0, 3, #[]⟩).Counts 1 2 3 ∧ noElements.Counts 1 2 0 := by
  have hwell : (matrix ⟨0, 3, #[]⟩).WellFormed := ⟨rfl, Nat.zero_le _⟩
  constructor
  · obtain ⟨n, hn, hcounts, -⟩ :=
      counts_indexExtent (v := matrix ⟨0, 3, #[]⟩) hwell trivial (Or.inr rfl) Nat.one_lt_two
    obtain rfl : n = 3 := (Option.some.inj hn).symm
    apply hcounts.mpr
    rintro ⟨⟨r, hr, -⟩, -⟩
    cases hr
  · obtain ⟨n, -, -, hnone⟩ :=
      counts_indexExtent wellFormed_noElements rfl (Or.inr rfl) Nat.one_lt_two
    exact (hnone ⟨isEmptyRange_noElements, rfl⟩).2

/-- In the columns of a range without elements, `end` is past what can be addressed. -/
theorem not_counts_indexExtent :
    ¬∀ (v : Value) (position count : Nat), v.WellFormed → v.Indexable → count = 1 ∨ count = 2 →
      position < count → ∃ n, v.indexExtent? position count = some n
        ∧ v.Counts position count n := by
  intro h
  obtain ⟨n, hn, hcounts⟩ :=
    h noElements 1 2 wellFormed_noElements rfl (Or.inr rfl) Nat.one_lt_two
  rw [indexExtent?, isEmptyRange_noElements.counts.1] at hn
  obtain rfl : n = 1 := (Option.some.inj hn).symm
  exact isEmptyRange_noElements.not_counts hcounts

end Value

end MatrixScript
