import MatrixScript.Proofs.Alike.Library

/-!
# The standard library side by side

One table of functions after another. Only a plot of a function and a title for a plot hand on
functions that they are given. Functions on variables need that the same names are bound on both
sides, and that erasing such a name leaves the variables alike.
-/

namespace MatrixScript

variable {F : Callable → Callable → Prop} {I : Environment → Environment → Prop}

theorem Overload.Respects.fixed {kinds : List Kind} {f : Arguments → Result Value} (h : Plain f) :
    Overload.Respects I F (.fixed kinds f) :=
  Native.Respects.of_plain h

theorem respectingTable_cons {f : String × List Overload} {table : List (String × List Overload)} :
    RespectingTable I F (f :: table) ↔ (∀ o ∈ f.2, o.Respects I F) ∧ RespectingTable I F table :=
  List.forall_mem_cons

theorem RespectingTable.append {table more : List (String × List Overload)}
    (h : RespectingTable I F table) (hmore : RespectingTable I F more) :
    RespectingTable I F (table ++ more) :=
  List.forall_mem_append.mpr ⟨h, hmore⟩

/-! ### Functions of one argument -/

theorem plain_scalar {f : Complex → Result Value} (h : ∀ z, Yields (f z) Value.IsPlain) :
    Plain fun args => do f (← args.scalar 0) where
  same _ _ _ hargs := by rw [hargs.scalar_eq]
  gives _ := yields_bind h

theorem plain_matrix {f : Matrix → Result Value} (h : ∀ m, Yields (f m) Value.IsPlain) :
    Plain fun args => do f (← args.matrix 0) where
  same _ _ _ hargs := by rw [hargs.matrix_eq]
  gives _ := yields_bind h

theorem plain_text {f : String → Result Value} (h : ∀ t, Yields (f t) Value.IsPlain) :
    Plain fun args => do f (← args.text 0) where
  same _ _ _ hargs := by rw [hargs.text_eq]
  gives _ := yields_bind h

theorem plain_set {f : ElementSet → Result Value} (h : ∀ s, Yields (f s) Value.IsPlain) :
    Plain fun args => do f (← args.set 0) where
  same _ _ _ hargs := by rw [hargs.set_eq]
  gives _ := yields_bind h

theorem plain_count {f : Nat → Result Value} (h : ∀ n, Yields (f n) Value.IsPlain) :
    Plain fun args => do f (← args.count 0) where
  same _ _ _ hargs := by rw [hargs.count_eq]
  gives _ := yields_bind h

namespace Elementary

theorem elementwise_respects (f : Complex → Complex) : ∀ o ∈ elementwise f, o.Respects I F := by
  refine List.forall_mem_cons.mpr ⟨.fixed (plain_scalar fun _ => ?_),
    List.forall_mem_singleton.mpr (.fixed (plain_matrix fun _ => ?_))⟩
  · exact yields_ok ⟨nofun, nofun⟩
  · exact yields_ok ⟨nofun, nofun⟩

theorem factorial_respects : ∀ o ∈ factorial, o.Respects I F :=
  List.forall_mem_cons.mpr ⟨.fixed (plain_scalar fun _ => Value.factorial_isPlain _),
    List.forall_mem_singleton.mpr (.fixed (plain_matrix fun _ => Value.factorial_isPlain _))⟩

theorem table_respects : RespectingTable I F table := by
  refine RespectingTable.append (fun p hp => ?_)
    (respectingTable_cons.mpr ⟨factorial_respects, List.forall_mem_nil _⟩)
  obtain ⟨f, -, rfl⟩ := List.mem_map.mp hp
  exact elementwise_respects f.2

end Elementary

namespace Matrices

theorem ofMatrix_respects {f : Matrix → Result Value} (h : ∀ m, Yields (f m) Value.IsPlain) :
    ∀ o ∈ ofMatrix f, o.Respects I F :=
  List.forall_mem_singleton.mpr (.fixed (plain_matrix h))

theorem shaped_respects (build : Nat → Nat → Result Matrix) :
    ∀ o ∈ shaped build, o.Respects I F := by
  refine List.forall_mem_cons.mpr ⟨.fixed ⟨fun _ _ _ _ => rfl, fun _ => ?_⟩,
    List.forall_mem_cons.mpr ⟨.fixed (plain_count fun n => ?_),
      List.forall_mem_singleton.mpr (.fixed ⟨fun _ _ _ hargs => ?_, fun _ => ?_⟩)⟩⟩
  · exact Value.ofMatrix_isPlain _
  · exact Value.ofMatrix_isPlain _
  · rw [hargs.count_eq, hargs.count_eq]
  · exact yields_bind fun _ => yields_bind fun _ => Value.ofMatrix_isPlain _

theorem rangeLength_plain : Plain fun args => rangeLength (args.get? 0) where
  same F args args' hargs := by
    have hget := hargs.get?_rel 0
    generalize args.get? 0 = x, args'.get? 0 = x' at hget
    cases hget with
    | none => rfl
    | some hv => cases hv <;> rfl
  gives args := by
    unfold rangeLength
    split
    · split
      · exact yields_ok ⟨nofun, nofun⟩
      · exact yields_error _
    · exact yields_error _

theorem length_respects : ∀ o ∈ length, o.Respects I F := by
  have hnumber (n : Nat) : Yields (.ok (Value.ofNat n) : Result Value) Value.IsPlain :=
    yields_ok ⟨nofun, nofun⟩
  simp only [length, List.forall_mem_cons, List.not_mem_nil, false_implies, implies_true, and_true]
  exact ⟨.fixed (plain_matrix fun m => hnumber m.length),
    .fixed (plain_text fun t => hnumber t.length), .fixed (plain_set fun s => hnumber s.size),
    .fixed rangeLength_plain⟩

theorem size_respects : ∀ o ∈ size, o.Respects I F := by
  refine List.forall_mem_cons.mpr ⟨.fixed (plain_matrix fun _ => ?_),
    List.forall_mem_singleton.mpr (.fixed (plain_text fun _ => ?_))⟩
  · exact yields_ok ⟨nofun, nofun⟩
  · exact yields_ok ⟨nofun, nofun⟩

theorem isPlain_reduce (m : Matrix) (f : Array Complex → Complex) : (m.reduce f).IsPlain := by
  unfold Matrix.reduce
  split <;> exact ⟨nofun, nofun⟩

theorem sum_isPlain (m : Matrix) : Yields (sum m) Value.IsPlain := by
  refine yields_ok ?_
  split
  · exact ⟨nofun, nofun⟩
  · exact isPlain_reduce _ _

theorem extreme_respects (wanted : Ordering) : ∀ o ∈ extreme wanted, o.Respects I F := by
  refine List.forall_mem_cons.mpr ⟨.fixed (plain_matrix fun m => yields_ok ?_),
    List.forall_mem_singleton.mpr (Native.Respects.of_plain ⟨fun _ args args' hargs => ?_,
      fun _ => ?_⟩)⟩
  · split
    · exact ⟨nofun, nofun⟩
    · exact isPlain_reduce _ _
  · rw [hargs.scalar_eq, hargs.filterMap_rest_eq fun _ _ hv => hv.scalar?_eq]
  · exact yields_bind fun _ => yields_ok ⟨nofun, nofun⟩

theorem sorted_isPlain (m : Matrix) : Yields m.sorted Value.IsPlain := by
  unfold Matrix.sorted
  split
  · exact Value.ofMatrix_isPlain _
  · exact Value.matrix_isPlain _

theorem eigenvalues_isPlain (m : Matrix) : Yields (eigenvalues m) Value.IsPlain :=
  yields_bind fun _ => yields_ok (Value.isPlain_ofMatrix _)

theorem eigenvectors_isPlain (m : Matrix) : Yields (eigenvectors m) Value.IsPlain :=
  yields_bind fun _ => Value.ofMatrix_isPlain _

theorem magic_respects : ∀ o ∈ magic, o.Respects I F :=
  List.forall_mem_singleton.mpr (.fixed (plain_count fun _ => Value.ofMatrix_isPlain _))

theorem table_respects : RespectingTable I F table := by
  simp only [table, respectingTable_cons]
  exact ⟨shaped_respects _, shaped_respects _, shaped_respects _,
    length_respects,
    size_respects,
    ofMatrix_respects sum_isPlain,
    extreme_respects .gt,
    extreme_respects .lt,
    ofMatrix_respects sorted_isPlain,
    ofMatrix_respects fun m => Value.scalar_isPlain m.det,
    ofMatrix_respects fun m => Value.ofMatrix_isPlain m.inverse,
    ofMatrix_respects fun m => Value.scalar_isPlain m.trace,
    ofMatrix_respects fun m => yields_ok (Value.isPlain_ofMatrix m.transpose),
    ofMatrix_respects eigenvalues_isPlain,
    ofMatrix_respects eigenvalues_isPlain,
    ofMatrix_respects eigenvectors_isPlain,
    ofMatrix_respects eigenvectors_isPlain,
    magic_respects,
    List.forall_mem_nil _⟩

end Matrices

namespace Sets

theorem insertValue_eq {v v' : Value} (h : v.Alike F v') (s : ElementSet) :
    s.insertValue v' = s.insertValue v := by
  cases h <;> rfl

theorem foldlM_insertValue_eq {vs vs' : List Value} (h : List.Forall₂ (Value.Alike F) vs vs')
    (s : ElementSet) :
    vs'.foldlM ElementSet.insertValue s = vs.foldlM ElementSet.insertValue s := by
  induction h generalizing s with
  | nil => rfl
  | cons hv _ ih =>
      rw [List.foldlM_cons, List.foldlM_cons, insertValue_eq hv]
      exact bind_congr fun t => ih t

theorem make_respects (ordered : Bool) : ∀ o ∈ make ordered, o.Respects I F := by
  refine List.forall_mem_singleton.mpr (Native.Respects.of_plain ⟨fun _ args args' hargs => ?_,
    fun _ => ?_⟩)
  · rw [hargs.text_eq]
    refine bind_congr fun name => ?_
    dsimp only
    rw [foldlM_insertValue_eq hargs.rest]
  · exact yields_bind fun _ => yields_bind fun _ => yields_ok ⟨nofun, nofun⟩

theorem combine_respects (separator : String) (op : ElementSet → ElementSet → ElementSet) :
    ∀ o ∈ combine separator op, o.Respects I F := by
  refine List.forall_mem_singleton.mpr (Native.Respects.of_plain ⟨fun _ args args' hargs => ?_,
    fun _ => ?_⟩)
  · rw [hargs.set_eq, hargs.filterMap_rest_eq fun _ _ hv => by cases hv <;> rfl]
  · exact yields_bind fun _ => yields_ok ⟨nofun, nofun⟩

theorem table_respects : RespectingTable I F table := by
  simp only [table, respectingTable_cons]
  exact ⟨make_respects false, make_respects true, combine_respects _ _, combine_respects _ _,
    List.forall_mem_singleton.mpr (.fixed (plain_set fun _ => yields_ok ⟨nofun, nofun⟩)),
    List.forall_mem_nil _⟩

end Sets

namespace Plots

/-- Points hold no functions. -/
theorem series_points (x y : Matrix) :
    Yields (series x y) fun found => ∀ s ∈ found, s.Alike F s := by
  unfold series
  split
  · exact yields_ok (List.forall_mem_singleton.mpr (.points _ _))
  · split
    · exact yields_ok (List.forall_mem_map.mpr fun _ _ => .points _ _)
    · exact yields_error _

theorem plot_alike {title : String} {found : List Series} (h : ∀ s ∈ found, s.Alike F s) :
    (Value.plot title found).Alike F (.plot title found) :=
  .plot title (List.forall₂_same.mpr h)

theorem ofMatrix_alike (m : Matrix) : Yields (ofMatrix m) fun v => v.Alike F v := by
  unfold ofMatrix
  split
  · exact (series_points _ _).map fun _ h => plot_alike h
  · exact yields_ok (plot_alike (List.forall_mem_map.mpr fun _ _ => .points _ _))

theorem seriesOf_eq {v v' : Value} (h : v.Alike F v') (x : Matrix) :
    seriesOf x v' = seriesOf x v := by
  cases h <;> rfl

theorem ofMatrices_alike {args args' : Arguments} (hargs : args.Alike F args') :
    Concur Eq (Value.Alike F) (ofMatrices args) (ofMatrices args') := by
  have hrest (x : Matrix) {vs vs' : List Value} (h : List.Forall₂ (Value.Alike F) vs vs') :
      vs'.mapM (seriesOf x) = vs.mapM (seriesOf x) := by
    induction h with
    | nil => rfl
    | cons hv _ ih => rw [List.mapM_cons, List.mapM_cons, seriesOf_eq hv, ih]
  have hgroups (x : Matrix) (v : Value) :
      Yields (seriesOf x v) fun found => ∀ s ∈ found, s.Alike F s := by
    unfold seriesOf
    split
    · exact series_points _ _
    · exact yields_error _
  have hsame : ofMatrices args' = ofMatrices args := by
    unfold ofMatrices
    rw [hargs.matrix_eq]
    exact bind_congr fun x => by rw [hrest x hargs.rest]
  rw [hsame]
  refine concur_same (yields_bind fun x => ?_)
  refine (yields_mapM fun v _ => hgroups x v).bind fun groups hgroups => yields_ok (plot_alike ?_)
  intro s hs
  obtain ⟨group, hgroup, hs⟩ := List.mem_flatten.mp hs
  exact hgroups.2 group hgroup s hs

theorem ofFunction_alike {args args' : Arguments} (hargs : args.Alike F args') :
    Concur Eq (Value.Alike F) (ofFunction args) (ofFunction args') := by
  have hget := hargs.get?_rel 0
  unfold ofFunction
  rw [hargs.real_eq, hargs.real_eq]
  generalize args.get? 0 = x, args'.get? 0 = x' at hget
  cases hget with
  | none => exact .error rfl
  | some hv =>
      cases hv with
      | function hf =>
          refine Concur.bind (P := Eq) ?_ fun start start' hstart => ?_
          · cases args.real 1 <;> constructor <;> rfl
          · subst hstart
            refine Concur.bind (P := Eq) ?_ fun stop stop' hstop => ?_
            · cases args.real 2 <;> constructor <;> rfl
            · subst hstop
              split
              · exact .error rfl
              · exact .ok (.plot "" (.cons (.curve hf start stop) .nil))
      | _ => exact .error rfl

theorem plot_rel {args args' : Arguments} (hargs : args.Alike F args') (k : Nat) :
    Concur Eq (fun p p' => List.Forall₂ (Series.Alike F) p.2 p'.2) (args.plot k)
      (args'.plot k) := by
  have hget := hargs.get?_rel k
  unfold Arguments.plot Arguments.read
  generalize args.get? k = x, args'.get? k = x' at hget
  cases hget with
  | none => exact .error rfl
  | some hv =>
      cases hv with
      | plot title h => exact .ok h
      | _ => exact .error rfl

theorem withTitle_alike {args args' : Arguments} (hargs : args.Alike F args') :
    Concur Eq (Value.Alike F) (withTitle args) (withTitle args') := by
  refine (plot_rel hargs 0).bind fun p p' hp => ?_
  obtain ⟨_, found⟩ := p
  obtain ⟨_, found'⟩ := p'
  dsimp only
  rw [hargs.text_eq]
  cases args.text 1 with
  | error fault => exact .error rfl
  | ok title => exact .ok (.plot title hp)

theorem table_respects : RespectingTable I F table := by
  simp only [table, respectingTable_cons]
  refine ⟨List.forall_mem_cons.mpr ⟨.ofResult fun args args' hargs => ?_, List.forall_mem_cons.mpr
      ⟨.ofResult fun _ _ => ofMatrices_alike,
        List.forall_mem_singleton.mpr (.ofResult fun _ _ => ofFunction_alike)⟩⟩,
    List.forall_mem_singleton.mpr (.ofResult fun _ _ => withTitle_alike), List.forall_mem_nil _⟩
  rw [hargs.matrix_eq]
  exact concur_same (yields_bind ofMatrix_alike)

end Plots

namespace Variables

variable {args args' : Arguments}

theorem doesExist_respects
    (hcontains : ∀ e e', I e e' → ∀ name, e'.contains name = e.contains name) :
    Native.Respects I F doesExist := by
  intro _ args args' hargs
  unfold doesExist
  rw [hargs.text_eq]
  refine Paired.bind (P := Eq) (paired_liftM ?_) fun name name' hname => ?_
  · cases args.text 0 <;> constructor <;> rfl
  · rw [← hname]
    refine paired_get.bind fun e e' he => ?_
    rw [hcontains e e' he]
    exact paired_pure (.scalar _)

theorem eraseAll_rel {names : List String}
    (hcontains : ∀ e e', I e e' → ∀ name, e'.contains name = e.contains name)
    (herase : ∀ e e', I e e' → ∀ name ∈ names, I (e.erase name) (e'.erase name))
    {e e' : Environment} (he : I e e') :
    (eraseAll names e').1 = (eraseAll names e).1
      ∧ I (eraseAll names e).2 (eraseAll names e').2 := by
  unfold eraseAll
  generalize 0 = n
  induction names generalizing n e e' with
  | nil => exact ⟨rfl, he⟩
  | cons name names ih =>
      rw [List.foldl_cons, List.foldl_cons]
      dsimp only
      rw [hcontains e e' he]
      exact ih (fun e e' he name hname => herase e e' he name (List.mem_cons_of_mem _ hname))
        (herase e e' he name List.mem_cons_self) _

theorem clearNames_agrees (hargs : args.Alike F args')
    (hcontains : ∀ e e', I e e' → ∀ name, e'.contains name = e.contains name)
    (herase : ∀ e e', I e e' → ∀ name ∈ args.rest.filterMap Value.text?,
      I (e.erase name) (e'.erase name)) (name : String) :
    Paired I Eq (Value.Alike F) (clearNames name args) (clearNames name args') := by
  unfold clearNames
  rw [hargs.filterMap_rest_eq fun _ _ hv => hv.text?_eq]
  refine paired_get.bind fun e e' he => ?_
  have hsame : e'.contains = e.contains := funext (hcontains e e' he)
  simp only [hsame]
  split
  · exact paired_throw rfl
  · obtain ⟨hcount, hleft⟩ := eraseAll_rel hcontains herase he
    rw [hcount]
    exact (paired_set hleft).bind fun _ _ _ => paired_pure (.text _)

end Variables

/-- The constants are numbers. -/
theorem Library.standard_constants (name : String) {v : Value}
    (hv : standard.constant? name = some v) : v.IsPlain := by
  obtain ⟨c, hc, rfl⟩ := Option.map_eq_some_iff.mp hv
  have hplain : ∀ c ∈ standard.constants, c.2.IsPlain := by
    simp only [standard, List.forall_mem_cons, List.not_mem_nil, false_implies, implies_true,
      and_true]
    exact ⟨⟨nofun, nofun⟩, ⟨nofun, nofun⟩, ⟨nofun, nofun⟩, ⟨nofun, nofun⟩, ⟨nofun, nofun⟩⟩
  exact hplain c (List.mem_of_find?_eq_some hc)

end MatrixScript
