import Mathlib.Data.List.Forall2
import MatrixScript.Proofs.Values.Operations
import MatrixScript.Value.Index

/-!
# Indexing values

An index lists no more positions than a matrix may have elements: they come from a matrix, from a
range, or from the extent of what is indexed. That is why the matrix of the elements at these
positions needs no check of its own. Writing changes elements in place, and what has to grow for it
is checked when it grows.
-/

namespace MatrixScript

namespace IndexArg

def WellFormed : IndexArg → Prop
  | all => True
  | value v => v.WellFormed

theorem numbers_yields {v : Value} (h : v.WellFormed) (extent : Nat) :
    Yields (numbers extent v) fun data => data.size ≤ elementLimit := by
  cases v with
  | scalar z => exact yields_ok (show 1 ≤ elementLimit by decide)
  | matrix m => exact yields_ok (Matrix.WellFormed.count_le h)
  | range r =>
      refine (Progression.resolve_yields h _).bind fun resolved hresolved => yields_ok ?_
      rw [Array.size_map]
      cases hvalues : resolved.values? with
      | none => exact Nat.zero_le _
      | some values => exact hresolved.values_size_le hvalues
  | text s | set s | function f | plot title series => exact yields_error _

theorem positions_value_yields {v : Value} (h : v.WellFormed) (extent : Nat) :
    Yields ((value v).positions extent) fun picked => picked.size ≤ elementLimit := by
  refine (numbers_yields h extent).bind fun data hdata => ?_
  rw [Array.mapM_eq_mapM_toList]
  have hall : ∀ z ∈ data.toList, Yields (position z) fun _ => True := fun _ _ _ _ => trivial
  refine (yields_mapM hall).map fun picked hpicked => ?_
  rw [List.size_toArray, hpicked.1, Array.length_toList]
  exact hdata

theorem positions_yields {arg : IndexArg} (h : arg.WellFormed) {extent : Nat}
    (hextent : extent ≤ elementLimit) :
    Yields (arg.positions extent) fun picked => picked.size ≤ elementLimit := by
  cases arg with
  | all => exact yields_ok (Nat.le_trans (Nat.le_of_eq Array.size_range) hextent)
  | value v => exact positions_value_yields h extent

theorem positionsWithin_yields {arg : IndexArg} (h : arg.WellFormed) {extent : Nat}
    (hextent : extent ≤ elementLimit) :
    Yields (arg.positionsWithin extent) fun picked => picked.size ≤ elementLimit :=
  (positions_yields h hextent).bind fun _ hpicked => yields_bind fun _ => yields_ok hpicked

end IndexArg

namespace Value

variable {v target : Value} {m : Matrix} {args : List IndexArg}

theorem indexTarget_yields (h : v.WellFormed) : Yields v.indexTarget Matrix.WellFormed := by
  unfold indexTarget
  split
  · rename_i m hm
    exact yields_ok (h.matrix? hm)
  · exact yields_error _

theorem index_of_matrix? (h : v.matrix? = some m) (args : List IndexArg) :
    v.index args = indexMatrix m args := by
  cases v with
  | scalar | matrix | range =>
      simp only [index, indexTarget, h]
      rfl
  | _ => cases h

theorem assignIndex_of_matrix? (h : target.matrix? = some m) (args : List IndexArg) (v : Value) :
    target.assignIndex args v = assignMatrix m v args := by
  rw [assignIndex, indexTarget, h]
  rfl

/-! ### Reading -/

theorem wellFormed_pickElements (m : Matrix) {picked : Array Nat}
    (h : picked.size ≤ elementLimit) : (pickElements m picked).WellFormed := by
  have hdata : (picked.map (m.data.getD · Complex.zero)).size ≤ elementLimit := by
    rwa [Array.size_map]
  unfold pickElements
  dsimp only
  split
  · exact Matrix.wellFormed_columnVector hdata
  · exact Matrix.wellFormed_rowVector hdata

theorem indexMatrix_yields (h : m.WellFormed) (hargs : ∀ arg ∈ args, arg.WellFormed) :
    Yields (indexMatrix m args) WellFormed := by
  unfold indexMatrix
  split
  · rename_i arg
    have harg := hargs arg List.mem_cons_self
    exact (IndexArg.positionsWithin_yields harg h.count_le).bind fun picked hpicked =>
      yields_ok (wellFormed_ofMatrix (wellFormed_pickElements m hpicked))
  · refine yields_bind fun rows => yields_bind fun cols => ?_
    refine yields_bind fun _ => yields_bind fun _ => ?_
    exact (Matrix.ofCells_yields _ _ _).bind fun picked hpicked =>
      yields_ok (wellFormed_ofMatrix hpicked)
  · exact yields_error _

theorem pickChars_yields (s : String) (arg : IndexArg) : Yields (pickChars s arg) WellFormed :=
  yields_bind fun _ => yields_ok trivial

theorem indexText_yields (s : String) (args : List IndexArg) :
    Yields (indexText s args) WellFormed := by
  unfold indexText
  split
  · exact pickChars_yields s _
  · exact yields_bind fun _ => pickChars_yields s _
  · exact yields_error _

theorem index_yields (h : target.WellFormed) (hargs : ∀ arg ∈ args, arg.WellFormed) :
    Yields (target.index args) WellFormed := by
  unfold index
  split
  · exact indexText_yields _ args
  · exact (indexTarget_yields h).bind fun m hm => indexMatrix_yields hm hargs

/-! ### Writing -/

theorem growLinear_yields (h : m.WellFormed) (needed : Nat) :
    Yields (growLinear m needed) Matrix.WellFormed := by
  unfold growLinear
  split
  · exact yields_ok h
  · split
    · exact Matrix.resized_yields m 1 needed
    · split
      · exact Matrix.resized_yields m needed 1
      · exact yields_error _

theorem growTo_yields (h : m.WellFormed) (rows cols : Nat) :
    Yields (growTo m rows cols) Matrix.WellFormed := by
  unfold growTo
  split
  · exact yields_ok h
  · exact Matrix.resized_yields m rows cols

theorem wellFormed_writeLinear (h : m.WellFormed) (picked : Array Nat) (elements : Assigned) :
    (writeLinear m picked elements).WellFormed :=
  fold_keeps h fun k _ m hm => hm.setCell (picked[k] / m.cols) (picked[k] % m.cols) _

theorem wellFormed_writeCells (h : m.WellFormed) (rows cols : Array Nat) (elements : Assigned) :
    (writeCells m rows cols elements).WellFormed :=
  fold_keeps h fun i _ _ hm => fold_keeps hm fun j _ _ hm => hm.setCell rows[i] cols[j] _

theorem assignMatrix_yields (h : m.WellFormed) (v : Value) (args : List IndexArg) :
    Yields (assignMatrix m v args) WellFormed := by
  unfold assignMatrix
  split
  · refine yields_bind fun picked => ?_
    exact (growLinear_yields h _).bind fun grown hgrown => yields_bind fun elements =>
      yields_ok (wellFormed_ofMatrix (wellFormed_writeLinear hgrown picked elements))
  · refine yields_bind fun rows => yields_bind fun cols => ?_
    exact (growTo_yields h _ _).bind fun grown hgrown => yields_bind fun elements =>
      yields_ok (wellFormed_ofMatrix (wellFormed_writeCells hgrown rows cols elements))
  · exact yields_error _

theorem assignIndex_yields (h : target.WellFormed) (args : List IndexArg) (v : Value) :
    Yields (target.assignIndex args v) WellFormed :=
  (indexTarget_yields h).bind fun _ hm => assignMatrix_yields hm v args

end Value

/-! ### Arguments that list the same positions -/

/-- Whatever the extent is, the two list the same positions, or are refused for the same reason. -/
def IndexArg.ListsAlike (arg arg' : IndexArg) : Prop :=
  ∀ extent, arg.positions extent = arg'.positions extent

theorem IndexArg.ListsAlike.within {arg arg' : IndexArg} (h : arg.ListsAlike arg') (extent : Nat) :
    arg.positionsWithin extent = arg'.positionsWithin extent := by
  unfold positionsWithin
  rw [h]

namespace Value

variable {v v' : Value} {args args' : List IndexArg}

section Alike

variable (h : List.Forall₂ IndexArg.ListsAlike args args')

include h

theorem indexMatrix_congr (m : Matrix) : indexMatrix m args = indexMatrix m args' := by
  rcases h with _ | ⟨hfirst, _ | ⟨hsecond, _ | ⟨-, hrest⟩⟩⟩
  · rfl
  · rw [indexMatrix, indexMatrix, hfirst.within]
  · rw [indexMatrix, indexMatrix, hfirst, hsecond]
  · simp only [indexMatrix, List.length_cons, hrest.length_eq]

theorem indexText_congr (t : String) : indexText t args = indexText t args' := by
  rcases h with _ | ⟨hfirst, _ | ⟨hsecond, _ | ⟨-, hrest⟩⟩⟩
  · rfl
  · rw [indexText, indexText, pickChars, pickChars, hfirst.within]
  · rw [indexText, indexText, pickChars, pickChars, hfirst.within, hsecond.within]
  · simp only [indexText, List.length_cons, hrest.length_eq]

theorem index_congr (target : Value) : target.index args = target.index args' := by
  cases target with
  | text t => exact indexText_congr h t
  | _ => exact bind_congr fun m => indexMatrix_congr h m

theorem assignMatrix_congr (hv : ∀ count, v.assigned count = v'.assigned count) (m : Matrix) :
    assignMatrix m v args = assignMatrix m v' args' := by
  rcases h with _ | ⟨hfirst, _ | ⟨hsecond, _ | ⟨-, hrest⟩⟩⟩
  · rfl
  · simp only [assignMatrix, hfirst m.count, hv]
  · simp only [assignMatrix, hfirst m.rows, hsecond m.cols, hv]
  · simp only [assignMatrix, List.length_cons, hrest.length_eq]

end Alike

end Value

end MatrixScript
