import Mathlib.Data.List.Induction
import MatrixScript.Proofs.Assignment

/-!
# Indices beyond the limit

Indices may address more positions than a matrix may have elements. Reading them is an error, with
one exception: a matrix without elements can have more rows or columns than that, and the colon that
lists them all goes unnoticed if the other index lists nothing. Writing looks at the shape that is
needed, not at how often its cells are addressed, so a single element can be written to them any
number of times.
-/

namespace MatrixScript

/-- The index addresses more positions than a matrix may have elements. An open range ends at the
extent, and may be too long to be spelled out then. -/
inductive IndexArg.Exceeds (extent : Nat) : IndexArg → Prop where
  | listed {arg : IndexArg} {picked : List Nat} (hlists : arg.Lists extent picked)
      (hmany : elementLimit < picked.length) : Exceeds extent arg
  | bound {r : Progression} (hopen : r.stop = .open)
      (hlong : ({ r with stop := .at (Double.ofNat extent) } : Progression).isTooLong = true) :
      Exceeds extent (.value (.range r))

/-- An index that is refused, and not for its range. -/
def IndexArg.Unusable (extent : Nat) (arg : IndexArg) : Prop :=
  ∃ fault, arg.positions extent = .error fault ∧ ∀ message, fault ≠ .argumentRange message

namespace Matrix

/-- One of the indices, or where two of them cross, addresses too much. -/
inductive Beyond (m : Matrix) : List IndexArg → Prop where
  | linear {arg : IndexArg} (harg : arg.Exceeds m.count) : Beyond m [arg]
  | row {rowArg colArg : IndexArg} (hrow : rowArg.Exceeds m.rows) : Beyond m [rowArg, colArg]
  | col {rowArg colArg : IndexArg} (hcol : colArg.Exceeds m.cols) : Beyond m [rowArg, colArg]
  | cells {rowArg colArg : IndexArg} {rs cs : List Nat} (hrs : rowArg.Lists m.rows rs)
      (hcs : colArg.Lists m.cols cs) (hmany : elementLimit < rs.length * cs.length) :
      Beyond m [rowArg, colArg]

/-- Where reading does not notice that an index addresses too much. -/
inductive Overlooks (m : Matrix) : List IndexArg → Prop where
  | rows {colArg : IndexArg} (hrows : elementLimit < m.rows) (hcol : colArg.Lists m.cols []) :
      Overlooks m [.all, colArg]
  | cols {rowArg : IndexArg} (hrow : rowArg.Lists m.rows []) (hcols : elementLimit < m.cols) :
      Overlooks m [rowArg, .all]

/-- One of two indices cannot be used, whatever the other one addresses. -/
inductive Misuses (m : Matrix) : List IndexArg → Prop where
  | row {rowArg colArg : IndexArg} (hrow : rowArg.Unusable m.rows) : Misuses m [rowArg, colArg]
  | col {rowArg colArg : IndexArg} (hcol : colArg.Unusable m.cols) : Misuses m [rowArg, colArg]

end Matrix

namespace IndexArg

variable {arg : IndexArg} {extent : Nat} {picked : List Nat} {ps : Array Nat}

/-- Only the colon lists that many positions. -/
theorem Lists.eq_all (h : arg.Lists extent picked) (harg : arg.WellFormed)
    (hmany : elementLimit < picked.length) : arg = .all ∧ elementLimit < extent := by
  cases arg with
  | all =>
      cases h
      rw [List.length_range] at hmany
      exact ⟨rfl, hmany⟩
  | value v =>
      have hpositions : (value v).positions extent = .ok picked.toArray :=
        positions_eq_ok_iff.mpr h
      have hfew := positions_value_yields harg extent _ hpositions
      exact absurd hmany (Nat.not_lt.mpr hfew)

theorem positions_bound {r : Progression} (hr : r.WellFormed) (hopen : r.stop = .open)
    (hlong : ({ r with stop := .at (Double.ofNat extent) } : Progression).isTooLong = true) :
    ∃ message, (value (.range r)).positions extent = .error (.argumentRange message) := by
  have hresolve : ∃ message, r.resolve (Double.ofNat extent) = .error (.argumentRange message) := by
    simp only [Progression.resolve, hopen, Progression.make, hr.step_nonzero, hr.step_number,
      hlong]
    exact ⟨_, rfl⟩
  obtain ⟨message, hmessage⟩ := hresolve
  refine ⟨message, ?_⟩
  rw [positions, numbers, hmessage]
  rfl

theorem checkBounds_cases (ps : Array Nat) (extent : Nat) : checkBounds ps extent = .ok ()
    ∨ ∃ message, checkBounds ps extent = .error (.argumentRange message) := by
  unfold checkBounds
  split
  · exact .inr ⟨_, rfl⟩
  · exact .inl rfl

/-- Within the limit an index that lists too much is no index at all. -/
theorem Exceeds.positions_error (h : arg.Exceeds extent) (harg : arg.WellFormed)
    (hextent : extent ≤ elementLimit) :
    ∃ message, arg.positions extent = .error (.argumentRange message) := by
  cases h with
  | listed hlists hmany =>
      exact absurd (hlists.eq_all harg hmany).2 (Nat.not_lt.mpr hextent)
  | bound hopen hlong => exact positions_bound harg hopen hlong

theorem Exceeds.length (h : arg.Exceeds extent) (harg : arg.WellFormed)
    (hlists : arg.Lists extent picked) : elementLimit < picked.length := by
  cases h with
  | listed hlisted hmany => exact hlists.unique hlisted ▸ hmany
  | bound hopen hlong =>
      obtain ⟨message, hmessage⟩ := positions_bound harg hopen hlong
      cases hmessage.symm.trans (positions_eq_ok_iff.mpr hlists)

theorem range_or_unusable {fault : Fault} (h : arg.positions extent = .error fault) :
    (∃ message, fault = .argumentRange message) ∨ arg.Unusable extent := by
  rw [or_iff_not_imp_left]
  exact fun hother => ⟨fault, h, fun message hfault => hother ⟨message, hfault⟩⟩

end IndexArg

/-- Where both indices can be used, they cross too often, or one lists nothing and hides the
other. -/
theorem Matrix.Beyond.crossing {m : Matrix} {rowArg colArg : IndexArg} {rs cs : List Nat}
    (h : m.Beyond [rowArg, colArg]) (hrow : rowArg.WellFormed) (hcol : colArg.WellFormed)
    (hrs : rowArg.Lists m.rows rs) (hcs : colArg.Lists m.cols cs) :
    elementLimit < rs.length * cs.length
      ∨ rs.length * cs.length = 0 ∧ m.Overlooks [rowArg, colArg] := by
  cases h with
  | row hexceeds =>
      have hmany := hexceeds.length hrow hrs
      obtain ⟨rfl, hrows⟩ := hrs.eq_all hrow hmany
      rcases cs with _ | ⟨c, cs⟩
      · exact .inr ⟨Nat.mul_zero _, .rows hrows hcs⟩
      · exact .inl (hmany.trans_le (Nat.le_mul_of_pos_right _ (Nat.succ_pos _)))
  | col hexceeds =>
      have hmany := hexceeds.length hcol hcs
      obtain ⟨rfl, hcols⟩ := hcs.eq_all hcol hmany
      rcases rs with _ | ⟨r, rs⟩
      · exact .inr ⟨Nat.zero_mul _, .cols hrs hcols⟩
      · exact .inl (hmany.trans_le (Nat.le_mul_of_pos_left _ (Nat.succ_pos _)))
  | cells hrs' hcs' hmany =>
      rw [hrs.unique hrs', hcs.unique hcs']
      exact .inl hmany

namespace Value

variable {target v : Value} {m : Matrix} {args : List IndexArg} {rowArg colArg : IndexArg}
  {rs cs : Array Nat}

/-! ### Reading -/

section Reading

variable (hrs : rowArg.positions m.rows = .ok rs) (hcs : colArg.positions m.cols = .ok cs)

include hrs hcs

theorem indexMatrix_crossing : indexMatrix m [rowArg, colArg] = do
    IndexArg.checkBounds rs m.rows
    IndexArg.checkBounds cs m.cols
    let picked ← Matrix.ofCells rs.size cs.size fun r c => m.cell (rs.getD r 0) (cs.getD c 0)
    return ofMatrix picked := by
  rw [indexMatrix, hrs, hcs]
  rfl

theorem indexMatrix_of_many (hmany : elementLimit < rs.size * cs.size) :
    ∃ message, indexMatrix m [rowArg, colArg] = .error (.argumentRange message) := by
  have hcells (f : Nat → Nat → Complex) :
      ∃ message, Matrix.ofCells rs.size cs.size f = .error (.argumentRange message) := by
    rw [Matrix.ofCells, elementCount, if_neg (Nat.not_le.mpr hmany)]
    exact ⟨_, rfl⟩
  obtain ⟨message, hcells⟩ := hcells fun r c => m.cell (rs.getD r 0) (cs.getD c 0)
  rw [indexMatrix_crossing hrs hcs, hcells]
  rcases IndexArg.checkBounds_cases rs m.rows with hrow | ⟨message, hrow⟩
  · rcases IndexArg.checkBounds_cases cs m.cols with hcol | ⟨message, hcol⟩
    · rw [hrow, hcol]
      exact ⟨_, rfl⟩
    · rw [hrow, hcol]
      exact ⟨_, rfl⟩
  · rw [hrow]
    exact ⟨_, rfl⟩

theorem indexMatrix_of_none (hrows : ∀ r ∈ rs.toList, r < m.rows)
    (hcols : ∀ c ∈ cs.toList, c < m.cols) (hnone : rs.size * cs.size = 0) :
    ∃ result, indexMatrix m [rowArg, colArg] = .ok result := by
  have hcount : elementCount rs.size cs.size = .ok 0 :=
    elementCount_eq_ok_iff.mpr ⟨hnone.symm, hnone.trans_le (Nat.zero_le _)⟩
  rw [indexMatrix_crossing hrs hcs, IndexArg.checkBounds_eq_ok_iff.mpr hrows,
    IndexArg.checkBounds_eq_ok_iff.mpr hcols, Matrix.ofCells, hcount]
  exact ⟨_, rfl⟩

end Reading

theorem indexMatrix_row_error {fault : Fault} (h : rowArg.positions m.rows = .error fault)
    (colArg : IndexArg) : indexMatrix m [rowArg, colArg] = .error fault := by
  simp only [indexMatrix, h]
  rfl

theorem indexMatrix_col_error {fault : Fault} (hrs : rowArg.positions m.rows = .ok rs)
    (h : colArg.positions m.cols = .error fault) :
    indexMatrix m [rowArg, colArg] = .error fault := by
  simp only [indexMatrix, hrs, h]
  rfl

theorem indexMatrix_of_overlooks (h : m.Overlooks args) :
    ∃ result, indexMatrix m args = .ok result := by
  cases h with
  | rows hrows hcol =>
      have hall : IndexArg.all.positions m.rows = .ok (Array.range m.rows) := rfl
      refine indexMatrix_of_none hall (IndexArg.positions_eq_ok_iff.mpr hcol) (fun r hr => ?_)
        nofun (Nat.mul_zero _)
      rwa [Array.toList_range, List.mem_range] at hr
  | cols hrow hcols =>
      have hall : IndexArg.all.positions m.cols = .ok (Array.range m.cols) := rfl
      refine indexMatrix_of_none (IndexArg.positions_eq_ok_iff.mpr hrow) hall nofun
        (fun c hc => ?_) (Nat.zero_mul _)
      rwa [Array.toList_range, List.mem_range] at hc

/-- The error of reading where indices address too much. -/
def ReadingFails (m : Matrix) (args : List IndexArg) : Prop :=
  ∃ fault, indexMatrix m args = .error fault
    ∧ ((∃ message, fault = .argumentRange message) ∨ m.Misuses args)

theorem readingFails_linear {arg : IndexArg} (hm : m.WellFormed) (harg : arg.WellFormed)
    (h : arg.Exceeds m.count) : ReadingFails m [arg] := by
  obtain ⟨message, hmessage⟩ := h.positions_error harg hm.count_le
  refine ⟨.argumentRange message, ?_, .inl ⟨message, rfl⟩⟩
  rw [indexMatrix, IndexArg.positionsWithin, hmessage]
  rfl

theorem overlooks_or_fails_crossing (hrow : rowArg.WellFormed) (hcol : colArg.WellFormed)
    (hbeyond : m.Beyond [rowArg, colArg]) :
    m.Overlooks [rowArg, colArg] ∨ ReadingFails m [rowArg, colArg] := by
  cases hrs : rowArg.positions m.rows with
  | error fault =>
      exact .inr ⟨fault, indexMatrix_row_error hrs colArg,
        (IndexArg.range_or_unusable hrs).imp_right .row⟩
  | ok rs =>
      cases hcs : colArg.positions m.cols with
      | error fault =>
          exact .inr ⟨fault, indexMatrix_col_error hrs hcs,
            (IndexArg.range_or_unusable hcs).imp_right .col⟩
      | ok cs =>
          have hrows := IndexArg.positions_eq_ok_iff.mp hrs
          have hcols := IndexArg.positions_eq_ok_iff.mp hcs
          rcases hbeyond.crossing hrow hcol hrows hcols with hmany | ⟨-, hoverlooks⟩
          · obtain ⟨message, hmessage⟩ := indexMatrix_of_many hrs hcs hmany
            exact .inr ⟨_, hmessage, .inl ⟨message, rfl⟩⟩
          · exact .inl hoverlooks

theorem overlooks_or_fails (hm : m.WellFormed) (hargs : ∀ arg ∈ args, arg.WellFormed)
    (hbeyond : m.Beyond args) : m.Overlooks args ∨ ReadingFails m args := by
  match args, hbeyond with
  | [arg], .linear harg => exact .inr (readingFails_linear hm (hargs arg List.mem_cons_self) harg)
  | [rowArg, colArg], hbeyond =>
      exact overlooks_or_fails_crossing (hargs rowArg List.mem_cons_self)
        (hargs colArg (List.mem_cons_of_mem _ List.mem_cons_self)) hbeyond

/-! ### Writing -/

/-- By induction on the places, from a matrix of zeros around the old cells. -/
theorem exists_writing {rows cols : Nat} {addressed : List (Nat × Nat)}
    (hlimit : rows * cols ≤ elementLimit)
    (hplaces : ∀ cell ∈ addressed, cell.1 < rows ∧ cell.2 < cols) (values : Nat → Complex) :
    ∃ new, Matrix.Writing m rows cols addressed values new := by
  induction addressed using List.reverseRecOn with
  | nil => exact ⟨_, Matrix.writing_generate hlimit values⟩
  | append_singleton done cell ih =>
      obtain ⟨new, hnew⟩ := ih fun other hother => hplaces other (List.mem_append_left _ hother)
      obtain ⟨hrow, hcol⟩ := hplaces cell (List.mem_append_right _ (List.mem_singleton_self cell))
      exact ⟨_, hnew.setCell hrow hcol⟩

theorem addresses_places {rows cols : Nat} {addressed : List (Nat × Nat)} (hm : m.WellFormed)
    (h : m.Addresses args rows cols addressed) : ∀ cell ∈ addressed, cell.1 < rows ∧ cell.2 < cols := by
  cases h with
  | linear hpicked hshape hcells =>
      have hplaces := lengthened_places hm hshape
      rw [eq_places hcells]
      rintro _ hcell
      obtain ⟨p, hp, rfl⟩ := List.mem_map.mp hcell
      exact ⟨Matrix.div_lt_of_place (hplaces p hp), Matrix.mod_lt_of_place (hplaces p hp)⟩
  | crossing _ _ hrows hcols =>
      rintro ⟨r, c⟩ hcell
      obtain ⟨hr, hc⟩ := List.mem_product.mp hcell
      exact ⟨hrows.1.2 r hr, hcols.1.2 c hc⟩

theorem exists_supplies {source : Matrix} (hsource : source.WellFormed) {count : Nat}
    (h : source.rows = 1 ∧ source.cols = 1 ∨ source.count = count) :
    ∃ values, source.Supplies count values := by
  by_cases hshape : source.rows = 1 ∧ source.cols = 1
  · obtain ⟨z, hz⟩ := hsource.exists_cell? (r := 0) (c := 0) (by omega) (by omega)
    exact ⟨fun _ => z, .everywhere hshape.1 hshape.2 fun _ _ => hz⟩
  · have hcount := h.resolve_left hshape
    exact ⟨(Assigned.each source.data).get, .each hshape hcount fun k hk =>
      get_each (hk.trans_eq hcount.symm)⟩

/-- An assignment succeeds if the indices can be used, the shape they need is within the limit, and
there is a single element or one for each place. -/
theorem exists_assignMatrix_iff (hm : m.WellFormed) (hv : v.WellFormed) :
    (∃ result, assignMatrix m v args = .ok result) ↔ ∃ source rows cols addressed,
      v.matrix? = some source ∧ m.Addresses args rows cols addressed ∧ rows * cols ≤ elementLimit
      ∧ (source.rows = 1 ∧ source.cols = 1 ∨ source.count = addressed.length) := by
  constructor
  · rintro ⟨result, hresult⟩
    obtain ⟨source, new, hsource, ⟨rows, cols, addressed, values, haddresses, hsupplies, hwriting⟩,
      -⟩ := (assignMatrix_eq_ok_iff hm hv).mp hresult
    refine ⟨source, rows, cols, addressed, hsource, haddresses, ?_, ?_⟩
    · rw [← hwriting.rows_eq, ← hwriting.cols_eq]
      exact hwriting.wellFormed.size_le
    · cases hsupplies with
      | everywhere hrows hcols => exact .inl ⟨hrows, hcols⟩
      | each _ hcount => exact .inr hcount
  · rintro ⟨source, rows, cols, addressed, hsource, haddresses, hlimit, hfits⟩
    obtain ⟨values, hsupplies⟩ := exists_supplies (hv.matrix? hsource) hfits
    obtain ⟨new, hnew⟩ := exists_writing hlimit (addresses_places hm haddresses) values
    exact ⟨ofMatrix new, (assignMatrix_eq_ok_iff hm hv).mpr ⟨source, new, hsource,
      ⟨rows, cols, addressed, values, haddresses, hsupplies, hnew⟩,
      (presents_iff hnew.wellFormed).mpr rfl⟩⟩

theorem exists_assignMatrix_of_beyond (hm : m.WellFormed) (hv : v.WellFormed)
    (hargs : ∀ arg ∈ args, arg.WellFormed) (hbeyond : m.Beyond args) :
    (∃ result, assignMatrix m v args = .ok result) ↔ args.length = 2
      ∧ ∃ source rows cols addressed, v.matrix? = some source ∧ m.Addresses args rows cols addressed
        ∧ rows * cols ≤ elementLimit
        ∧ (source.rows = 1 ∧ source.cols = 1 ∨ source.count = 0 ∧ addressed = []) := by
  rw [exists_assignMatrix_iff hm hv]
  constructor
  · rintro ⟨source, rows, cols, addressed, hsource, haddresses, hlimit, hfits⟩
    cases haddresses with
    | linear hpicked =>
        obtain ⟨harg⟩ := hbeyond
        obtain ⟨message, hmessage⟩ :=
          harg.positions_error (hargs _ List.mem_cons_self) hm.count_le
        cases hmessage.symm.trans (IndexArg.positions_eq_ok_iff.mpr hpicked)
    | @crossing rowArg colArg rs cs _ _ hrs hcs hrows hcols =>
        refine ⟨rfl, source, rows, cols, _, hsource, .crossing hrs hcs hrows hcols, hlimit,
          hfits.imp_right fun hcount => ?_⟩
        -- as many elements as places are within the limit, so there are none
        have hproduct := hbeyond.crossing (hargs rowArg List.mem_cons_self)
          (hargs colArg (List.mem_cons_of_mem _ List.mem_cons_self)) hrs hcs
        rw [← List.length_product, ← hcount] at hproduct
        have hnone : source.count = 0 :=
          (hproduct.resolve_left (Nat.not_lt.mpr (hv.matrix? hsource).count_le)).1
        exact ⟨hnone, List.length_eq_zero_iff.mp (hcount.symm.trans hnone)⟩
  · rintro ⟨-, source, rows, cols, addressed, hsource, haddresses, hlimit, hfits⟩
    refine ⟨source, rows, cols, addressed, hsource, haddresses, hlimit, hfits.imp_right ?_⟩
    rintro ⟨hcount, rfl⟩
    exact hcount

/-! ### Reading and writing -/

/-- The first row or column, so often that two of these cross too often. -/
def firsts : IndexArg := .value (.matrix (.rowVector (Array.replicate 11586 .one)))

theorem firsts_wellFormed : ∀ arg ∈ [firsts, firsts], arg.WellFormed := by
  have hfirsts : firsts.WellFormed := by
    refine Matrix.wellFormed_rowVector ?_
    rw [Array.size_replicate]
    decide
  exact List.forall_mem_cons.mpr ⟨hfirsts, List.forall_mem_singleton.mpr hfirsts⟩

theorem firsts_lists (extent : Nat) : firsts.Lists extent (List.replicate 11586 0) := by
  have hone : Complex.one.StandsFor 0 := ⟨by decide, by decide +kernel, by decide⟩
  have hall (n : Nat) :
      List.Forall₂ Complex.StandsFor (List.replicate n .one) (List.replicate n 0) := by
    induction n with
    | zero => exact .nil
    | succ n ih => exact .cons hone ih
  refine .matrix ?_
  change List.Forall₂ _ (Array.replicate 11586 Complex.one).toList _
  rw [Array.toList_replicate]
  exact hall 11586

theorem firsts_usable (extent : Nat) : ¬ firsts.Unusable extent := by
  rintro ⟨fault, hfault, -⟩
  have hpositions : firsts.positions extent = .ok (List.replicate 11586 0).toArray :=
    IndexArg.positions_eq_ok_iff.mpr (firsts_lists extent)
  cases hfault.symm.trans hpositions

theorem firsts_beyond : m.Beyond [firsts, firsts] := by
  refine .cells (firsts_lists _) (firsts_lists _) ?_
  rw [List.length_replicate]
  decide

theorem firsts_addresses (z : Complex) : (Matrix.scalar z).Addresses [firsts, firsts] 1 1
    (List.replicate 11586 0 ×ˢ List.replicate 11586 0) := by
  have hleast : IsLeast {n | 1 ≤ n ∧ ∀ p ∈ List.replicate 11586 0, p < n} 1 :=
    ⟨⟨le_rfl, fun p hp => (List.eq_of_mem_replicate hp).trans_lt Nat.one_pos⟩, fun n hn => hn.1⟩
  exact .crossing (firsts_lists _) (firsts_lists _) hleast hleast

/-- Where indices address more positions or cells than a matrix may have elements, something is read
only if that is overlooked. The error is one of range, unless an index cannot be used at all.
Something is written only if two indices need a shape within the limit, and either there is a single
element for all the places or there are no places. What `:` lists is taken to have room in memory. -/
theorem index_of_beyond (htarget : target.WellFormed) (hm : target.matrix? = some m)
    (hargs : ∀ arg ∈ args, arg.WellFormed) (hbeyond : m.Beyond args) (hv : v.WellFormed) :
    ((∃ result, target.index args = .ok result) ↔ m.Overlooks args)
    ∧ (∀ fault, target.index args = .error fault →
      (∃ message, fault = .argumentRange message) ∨ m.Misuses args)
    ∧ ((∃ result, target.assignIndex args v = .ok result) ↔ args.length = 2
      ∧ ∃ source rows cols addressed, v.matrix? = some source
        ∧ m.Addresses args rows cols addressed ∧ rows * cols ≤ elementLimit
        ∧ (source.rows = 1 ∧ source.cols = 1 ∨ source.count = 0 ∧ addressed = [])) := by
  have hwell := htarget.matrix? hm
  rw [index_of_matrix? hm, assignIndex_of_matrix? hm]
  refine ⟨⟨?_, indexMatrix_of_overlooks⟩, fun fault hfault => ?_,
    exists_assignMatrix_of_beyond hwell hv hargs hbeyond⟩
  · rintro ⟨result, hresult⟩
    rcases overlooks_or_fails hwell hargs hbeyond with hoverlooks | ⟨fault, hfault, -⟩
    · exact hoverlooks
    · cases hresult.symm.trans hfault
  · rcases overlooks_or_fails hwell hargs hbeyond with hoverlooks | ⟨fault', hfault', hkind⟩
    · obtain ⟨result, hresult⟩ := indexMatrix_of_overlooks hoverlooks
      cases hresult.symm.trans hfault
    · cases hfault.symm.trans hfault'
      exact hkind

/-- That many places are too many to read, but a number can be replaced at all of them. -/
theorem index_of_beyond_firsts :
    (∀ result, (Value.ofNat 7).index [firsts, firsts] ≠ .ok result)
    ∧ ∃ result, (Value.ofNat 7).assignIndex [firsts, firsts] (.ofNat 5) = .ok result := by
  have hseven : (Value.ofNat 7).WellFormed := trivial
  obtain ⟨hindex, -, hassign⟩ :=
    index_of_beyond (v := .ofNat 5) hseven rfl firsts_wellFormed firsts_beyond trivial
  constructor
  · intro result hresult
    cases hindex.mp ⟨result, hresult⟩
  · exact hassign.mpr ⟨rfl, _, 1, 1, _, rfl, firsts_addresses _, by decide, .inl ⟨rfl, rfl⟩⟩

/-- Two colons read a matrix of too many rows without elements, and a number can be replaced too
often. -/
theorem not_index_of_beyond :
    (¬ ∀ (target : Value) (m : Matrix) (args : List IndexArg), target.WellFormed →
      target.matrix? = some m → (∀ arg ∈ args, arg.WellFormed) → m.Beyond args →
      ¬ m.Misuses args → ∃ message, target.index args = .error (.argumentRange message))
    ∧ ¬ ∀ (target v : Value) (m : Matrix) (args : List IndexArg), target.WellFormed →
      v.WellFormed → target.matrix? = some m → (∀ arg ∈ args, arg.WellFormed) → m.Beyond args →
      ¬ m.Misuses args → ∃ fault, target.assignIndex args v = .error fault := by
  constructor
  · intro h
    have hlists : IndexArg.all.Lists 134217729 (List.range 134217729) := .all
    have hbeyond : Matrix.Beyond ⟨134217729, 0, #[]⟩ [.all, .all] :=
      .row (.listed hlists (by rw [List.length_range]; decide))
    have hargs : ∀ arg ∈ [IndexArg.all, .all], arg.WellFormed :=
      List.forall_mem_cons.mpr ⟨trivial, List.forall_mem_singleton.mpr trivial⟩
    have husable : ¬ Matrix.Misuses ⟨134217729, 0, #[]⟩ [.all, .all] := by
      rintro (⟨⟨_, ⟨⟩, -⟩⟩ | ⟨⟨_, ⟨⟩, -⟩⟩)
    obtain ⟨message, hmessage⟩ :=
      h (.matrix ⟨134217729, 0, #[]⟩) _ _ ⟨rfl, by decide⟩ rfl hargs hbeyond husable
    obtain ⟨result, hresult⟩ := indexMatrix_of_overlooks
      (m := ⟨134217729, 0, #[]⟩) (.rows (by decide) (.all : IndexArg.all.Lists 0 []))
    rw [index_of_matrix? rfl] at hmessage
    cases hmessage.symm.trans hresult
  · intro h
    have husable (m : Matrix) : ¬ m.Misuses [firsts, firsts] := by
      rintro (⟨hrow⟩ | ⟨hcol⟩)
      · exact firsts_usable _ hrow
      · exact firsts_usable _ hcol
    obtain ⟨fault, hfault⟩ := h (.ofNat 7) (.ofNat 5) _ [firsts, firsts] trivial trivial rfl
      firsts_wellFormed firsts_beyond (husable _)
    have hseven : (Matrix.scalar (.ofReal (.ofNat 7))).WellFormed := ⟨rfl, by decide⟩
    obtain ⟨result, hresult⟩ := (exists_assignMatrix_iff (v := .ofNat 5) hseven trivial).mpr
      ⟨_, 1, 1, _, rfl, firsts_addresses _, by decide, .inl ⟨rfl, rfl⟩⟩
    rw [assignIndex_of_matrix? rfl] at hfault
    cases hfault.symm.trans hresult

end Value

end MatrixScript
