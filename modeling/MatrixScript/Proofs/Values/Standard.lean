import MatrixScript.Proofs.Values.Libraries

/-!
# The standard library is sound

One table of functions after another. A function on matrices that makes its result out of parts of
an argument is within the limit because the argument is; the others check the shapes they make.
-/

namespace MatrixScript

theorem scalar_yields (x : Result Complex) : Yields (Value.scalar <$> x) Value.WellFormed :=
  Yields.map (P := fun _ => True) (fun _ _ => trivial) fun _ _ => trivial

theorem ofMatrix_yields {x : Result Matrix} (h : Yields x Matrix.WellFormed) :
    Yields (Value.ofMatrix <$> x) Value.WellFormed :=
  h.map fun _ => Value.wellFormed_ofMatrix

namespace Elementary

theorem elementwise_sound (f : Complex → Complex) : ∀ o ∈ elementwise f, o.Sound := by
  refine List.forall_mem_cons.mpr ⟨.fixed fun args _ => ?_,
    List.forall_mem_singleton.mpr (.fixed fun args h => ?_)⟩
  · exact yields_bind fun _ => yields_ok trivial
  · exact (Arguments.matrix_yields h 0).bind fun _ hm => yields_ok (hm.map f)

theorem factorial_sound : ∀ o ∈ factorial, o.Sound := by
  refine List.forall_mem_cons.mpr ⟨.fixed fun args _ => ?_,
    List.forall_mem_singleton.mpr (.fixed fun args _ => ?_)⟩
  · exact yields_bind fun _ => Value.factorial_yields _
  · exact yields_bind fun _ => Value.factorial_yields _

theorem table_sound : SoundTable table := by
  refine SoundTable.append (fun p hp => ?_) (soundTable_cons.mpr ⟨factorial_sound, soundTable_nil⟩)
  obtain ⟨f, -, rfl⟩ := List.mem_map.mp hp
  exact elementwise_sound f.2

end Elementary

namespace Matrix

variable {m : Matrix}

theorem WellFormed.reduce (h : m.WellFormed) (hsome : m.isEmpty = false)
    (f : Array Complex → Complex) : (m.reduce f).WellFormed := by
  unfold Matrix.reduce
  split
  · trivial
  · refine wellFormed_rowVector ?_
    rw [Array.size_ofFn]
    exact h.cols_le hsome

theorem sorted_yields (m : Matrix) : Yields m.sorted Value.WellFormed := by
  unfold sorted
  split
  · exact ofMatrix_yields (ofData_yields _ _ _)
  · exact (ofCells_yields _ _ _).map fun _ h => h

end Matrix

namespace Matrices

theorem ofMatrix_sound {f : Matrix → Result Value}
    (h : ∀ m : Matrix, m.WellFormed → Yields (f m) Value.WellFormed) :
    ∀ o ∈ ofMatrix f, o.Sound :=
  List.forall_mem_singleton.mpr (.fixed fun _ hargs => (Arguments.matrix_yields hargs 0).bind h)

theorem shaped_sound {build : Nat → Nat → Result Matrix}
    (h : ∀ rows cols, Yields (build rows cols) Matrix.WellFormed) :
    ∀ o ∈ shaped build, o.Sound := by
  refine List.forall_mem_cons.mpr ⟨.fixed fun args _ => ?_, List.forall_mem_cons.mpr
    ⟨.fixed fun args _ => ?_, List.forall_mem_singleton.mpr (.fixed fun args _ => ?_)⟩⟩
  · exact ofMatrix_yields (h 1 1)
  · exact yields_bind fun n => ofMatrix_yields (h n n)
  · exact yields_bind fun rows => yields_bind fun cols => ofMatrix_yields (h rows cols)

theorem rangeLength_yields (v : Option Value) : Yields (rangeLength v) Value.WellFormed := by
  unfold rangeLength
  split
  · split
    · exact yields_ok trivial
    · exact yields_error _
  · exact yields_error _

theorem length_sound : ∀ o ∈ length, o.Sound := by
  simp only [length, List.forall_mem_cons, List.not_mem_nil, false_implies, implies_true, and_true]
  refine ⟨.fixed fun _ _ => ?_, .fixed fun _ _ => ?_, .fixed fun _ _ => ?_,
    .fixed fun _ _ => rangeLength_yields _⟩
  · exact yields_bind fun _ => yields_ok trivial
  · exact yields_bind fun _ => yields_ok trivial
  · exact yields_bind fun _ => yields_ok trivial

theorem wellFormed_shapeValue (shape : Nat × Nat) : (shapeValue shape).WellFormed :=
  Matrix.wellFormed_rowVector (show 2 ≤ elementLimit by decide)

theorem size_sound : ∀ o ∈ size, o.Sound := by
  refine List.forall_mem_cons.mpr ⟨.fixed fun args _ => ?_,
    List.forall_mem_singleton.mpr (.fixed fun args _ => ?_)⟩
  · exact yields_bind fun _ => yields_ok (wellFormed_shapeValue _)
  · exact yields_bind fun _ => yields_ok (wellFormed_shapeValue _)

theorem sum_yields {m : Matrix} (h : m.WellFormed) : Yields (sum m) Value.WellFormed := by
  refine yields_ok ?_
  split
  · trivial
  · rename_i hsome
    exact h.reduce (Bool.eq_false_iff.mpr hsome) _

theorem extreme_sound (wanted : Ordering) : ∀ o ∈ extreme wanted, o.Sound := by
  refine List.forall_mem_cons.mpr ⟨.fixed fun args h => ?_,
    List.forall_mem_singleton.mpr (Native.Sound.ofResult fun args _ => ?_)⟩
  · refine (Arguments.matrix_yields h 0).bind fun m hm => yields_ok ?_
    split
    · exact Matrix.wellFormed_empty
    · rename_i hsome
      exact hm.reduce (Bool.eq_false_iff.mpr hsome) _
  · exact yields_bind fun _ => yields_ok trivial

/-- The eigenvalues fill one column, as there are no more of them than rows. -/
theorem eigenvalues_yields {m : Matrix} (h : m.WellFormed) :
    Yields (eigenvalues m) Value.WellFormed := by
  refine (Matrix.eigenvalues_yields m).bind fun values hvalues => yields_ok ?_
  refine Value.wellFormed_ofMatrix (Matrix.wellFormed_columnVector ?_)
  rw [List.size_toArray, hvalues.1]
  exact h.rows_le_of_square hvalues.2

theorem eigenvectors_yields (m : Matrix) : Yields (eigenvectors m) Value.WellFormed :=
  yields_bind fun values => ofMatrix_yields (m.eigenvectors_yields values)

theorem magic_sound : ∀ o ∈ magic, o.Sound :=
  List.forall_mem_singleton.mpr (.fixed fun _ _ => yields_bind fun n =>
    ofMatrix_yields (Matrix.magic_yields n))

theorem table_sound : SoundTable table := by
  simp only [table, soundTable_cons, soundTable_nil, and_true]
  exact ⟨shaped_sound Matrix.identity_yields,
    shaped_sound (Matrix.filled_yields · · _),
    shaped_sound (Matrix.filled_yields · · _),
    length_sound,
    size_sound,
    ofMatrix_sound fun _ => sum_yields,
    extreme_sound .gt,
    extreme_sound .lt,
    ofMatrix_sound fun m _ => m.sorted_yields,
    ofMatrix_sound fun m _ => scalar_yields m.det,
    ofMatrix_sound fun m _ => ofMatrix_yields m.inverse_yields,
    ofMatrix_sound fun m _ => scalar_yields m.trace,
    ofMatrix_sound fun _ h => yields_ok (Value.wellFormed_ofMatrix h.transpose),
    ofMatrix_sound fun _ => eigenvalues_yields,
    ofMatrix_sound fun _ => eigenvalues_yields,
    ofMatrix_sound fun m _ => eigenvectors_yields m,
    ofMatrix_sound fun m _ => eigenvectors_yields m,
    magic_sound⟩

end Matrices

namespace Variables

theorem clearAll_sound : Native.Sound clearAll := fun _ _ _ =>
  keeps_get.bind fun _ he => (keeps_set he.clear).bind fun _ _ => keeps_pure trivial

theorem wellFormed_eraseAll (names : List String) {e : Environment} (h : e.WellFormed) :
    (eraseAll names e).2.WellFormed := by
  unfold eraseAll
  generalize 0 = n
  induction names generalizing n e with
  | nil => exact h
  | cons name names ih => exact ih (h.erase name) _

theorem clearNames_sound : Native.Sound clearNames := by
  intro _ args _
  refine keeps_get.bind fun e he => ?_
  dsimp only
  split
  · exact keeps_throw _
  · exact (keeps_set (wellFormed_eraseAll _ he)).bind fun _ _ => keeps_pure trivial

theorem doesExist_sound : Native.Sound doesExist := fun _ _ _ =>
  (keeps_liftM fun _ _ => trivial).bind fun _ (_ : True) =>
    keeps_get.bind fun _ _ => keeps_pure trivial

theorem table_sound : SoundTable table := by
  simp only [table, soundTable_cons, soundTable_nil, and_true]
  exact ⟨List.forall_mem_cons.mpr ⟨clearAll_sound, List.forall_mem_singleton.mpr clearNames_sound⟩,
    List.forall_mem_singleton.mpr doesExist_sound⟩

end Variables

namespace Sets

theorem make_sound (ordered : Bool) : ∀ o ∈ make ordered, o.Sound := by
  refine List.forall_mem_singleton.mpr (Native.Sound.ofResult fun args _ => ?_)
  refine yields_bind fun name => ?_
  refine Yields.bind ?_ fun s hs => yields_ok hs
  exact yields_foldlM (ElementSet.wellFormed_empty name ordered) fun s hs v _ =>
    ElementSet.insertValue_yields hs v

theorem combine_sound (separator : String) {op : ElementSet → ElementSet → ElementSet}
    (hop : ∀ s t, (op s t).WellFormed) : ∀ o ∈ combine separator op, o.Sound := by
  refine List.forall_mem_singleton.mpr (Native.Sound.ofResult fun args h => ?_)
  refine (Arguments.set_yields h 0).bind fun first hfirst => yields_ok ?_
  exact (ElementSet.wellFormed_foldl hop hfirst _).renamed _

theorem table_sound : SoundTable table := by
  simp only [table, soundTable_cons, soundTable_nil, and_true]
  exact ⟨make_sound false,
    make_sound true,
    combine_sound "+" ElementSet.wellFormed_union,
    combine_sound "*" ElementSet.wellFormed_intersect,
    List.forall_mem_singleton.mpr
      (.fixed fun _ _ => yields_bind fun s => yields_ok s.wellFormed_sorted)⟩

end Sets

namespace Plots

theorem wellFormed_points {x y : Matrix} (hx : x.WellFormed) (hy : y.WellFormed) :
    (Series.points x y).WellFormed :=
  ⟨hx, hy⟩

theorem wellFormed_positions {n : Nat} (h : n ≤ elementLimit) : (positions n).WellFormed := by
  refine Matrix.wellFormed_rowVector ?_
  rwa [Array.size_ofFn]

theorem wellFormed_asRow {m : Matrix} (h : m.WellFormed) : (asRow m).WellFormed :=
  Matrix.wellFormed_rowVector h.count_le

theorem wellFormed_columnRow {m : Matrix} (h : m.WellFormed) (c : Nat) :
    (columnRow m c).WellFormed :=
  Matrix.wellFormed_rowVector (h.column_size_le c)

/-- The series that the columns of a matrix give. -/
theorem allWellFormed_columns {f : Nat → Series} (h : ∀ c, (f c).WellFormed) (n : Nat) :
    Series.AllWellFormed ((List.range n).map f) :=
  Series.allWellFormed_iff.mpr (List.forall_mem_map.mpr fun c _ => h c)

theorem series_yields {x y : Matrix} (hx : x.WellFormed) (hy : y.WellFormed) :
    Yields (series x y) Series.AllWellFormed := by
  have hrow := wellFormed_asRow hx
  unfold series
  split
  · exact yields_ok ⟨wellFormed_points hrow (wellFormed_asRow hy), trivial⟩
  · split
    · exact yields_ok (allWellFormed_columns
        (fun c => wellFormed_points hrow (wellFormed_columnRow hy c)) y.cols)
    · exact yields_error _

theorem ofMatrix_yields {y : Matrix} (h : y.WellFormed) : Yields (ofMatrix y) Value.WellFormed := by
  unfold ofMatrix
  split
  · exact (series_yields (wellFormed_positions h.count_le) h).map fun _ hseries => hseries
  · exact yields_ok (allWellFormed_columns (fun c =>
      wellFormed_points (wellFormed_columnRow h 0) (wellFormed_columnRow h (c + 1))) _)

theorem seriesOf_yields {x : Matrix} (hx : x.WellFormed) {v : Value} (hv : v.WellFormed) :
    Yields (seriesOf x v) Series.AllWellFormed := by
  unfold seriesOf
  split
  · exact series_yields hx hv
  · exact yields_error _

theorem ofMatrices_yields {args : Arguments} (h : args.WellFormed) :
    Yields (ofMatrices args) Value.WellFormed := by
  refine (Arguments.matrix_yields h 0).bind fun x hx => ?_
  refine (yields_mapM fun v hv => seriesOf_yields hx (h.rest v hv)).bind fun groups hgroups => ?_
  refine yields_ok (Series.allWellFormed_iff.mpr fun s hs => ?_)
  obtain ⟨group, hgroup, hs⟩ := List.mem_flatten.mp hs
  exact Series.allWellFormed_iff.mp (hgroups.2 group hgroup) s hs

theorem ofFunction_yields {args : Arguments} (h : args.WellFormed) :
    Yields (ofFunction args) Value.WellFormed := by
  unfold ofFunction
  split
  · rename_i f hf
    have hwf : (Value.function f).WellFormed := Arguments.wellFormed_of_get? h hf
    refine yields_bind fun start => yields_bind fun stop => ?_
    split
    · exact yields_error _
    · exact yields_ok ⟨hwf, trivial⟩
  · exact yields_error _

theorem withTitle_yields {args : Arguments} (h : args.WellFormed) :
    Yields (withTitle args) Value.WellFormed :=
  (Arguments.plot_yields h 0).bind fun _ hseries => yields_bind fun _ => yields_ok hseries

theorem table_sound : SoundTable table := by
  simp only [table, soundTable_cons, soundTable_nil, and_true]
  refine ⟨List.forall_mem_cons.mpr ⟨.fixed fun _ h => ?_, List.forall_mem_cons.mpr
      ⟨.ofResult fun _ => ofMatrices_yields,
        List.forall_mem_singleton.mpr (.fixed fun _ => ofFunction_yields)⟩⟩,
    List.forall_mem_singleton.mpr (.fixed fun _ => withTitle_yields)⟩
  exact (Arguments.matrix_yields h 0).bind fun _ => ofMatrix_yields

end Plots

/-- No function of the standard library makes or binds a malformed value. -/
theorem Library.standard_sound : Library.standard.Sound where
  functions :=
    (((Elementary.table_sound.append Matrices.table_sound).append Variables.table_sound).append
      Sets.table_sound).append Plots.table_sound
  constants := by
    simp only [standard, List.forall_mem_cons, List.not_mem_nil, false_implies, implies_true,
      and_true]
    exact ⟨trivial, trivial, trivial, trivial, trivial⟩

end MatrixScript
