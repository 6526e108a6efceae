import MatrixScript.Proofs.Blocks
import MatrixScript.Proofs.Ranges
import MatrixScript.Proofs.Values.Operations

/-!
# Matrix literals

A literal evaluates its elements row by row and joins each to what there is so far. If all stand for
matrices, the result is their block matrix, and the literal is refused if the blocks do not fit. An
element that stands for no matrix is refused as soon as it has been evaluated, so whether an earlier
misfit comes to light first depends on the rows above it and on the elements before it.
-/

namespace MatrixScript

namespace Evaluation

variable {α β : Type} {x : Evaluation α} {f : α → Evaluation β} {m m₁ m₂ : Machine}

/-- A computation ends as a result tells, and if that is a value then at the second machine. -/
def EndsAs (x : Evaluation α) (m : Machine) (r : Result α) (m₁ : Machine) : Prop :=
  match r with
  | .ok a => x.run.run m = (.ok a, m₁)
  | .error fault => ∃ stopped, x.run.run m = (.error (.failed (.ofFault fault)), stopped)

theorem endsAs_ofResult (r : Result α) (m : Machine) : EndsAs (ofResult r) m r m := by
  cases r with
  | ok a => rfl
  | error fault => exact ⟨m, rfl⟩

theorem EndsAs.bind {r : Result α} {g : α → Result β} (h : EndsAs x m r m₁)
    (hnext : ∀ a, r = .ok a → EndsAs (f a) m₁ (g a) m₂) : EndsAs (x >>= f) m (r >>= g) m₂ := by
  cases r with
  | ok a =>
      have hstep : (x >>= f).run.run m = (f a).run.run m₁ := run_bind_of_ok h
      change EndsAs (x >>= f) m (g a) m₂
      have hrest := hnext a rfl
      cases hg : g a with
      | ok b =>
          rw [hg] at hrest
          exact hstep.trans hrest
      | error fault =>
          rw [hg] at hrest
          obtain ⟨stopped, hstopped⟩ := hrest
          exact ⟨stopped, hstep.trans hstopped⟩
  | error fault =>
      obtain ⟨stopped, hstopped⟩ := h
      exact ⟨stopped, run_bind_of_error hstopped⟩

end Evaluation

open Evaluation MatrixScript.Matrix

namespace Setting

variable {s : Setting} {eval : Evaluator} {m m₁ m₂ m₃ : Machine}

/-- Nodes evaluate, from left to right, to values that stand for matrices. -/
inductive Row (s : Setting) (eval : Evaluator) :
    List NodeId → Machine → List Matrix → Machine → Prop where
  | nil (m : Machine) : Row s eval [] m [] m
  | cons {id : NodeId} {ids : List NodeId} {m m₁ m₂ : Machine} {v : Value} {b : Matrix}
      {bs : List Matrix} (hv : (eval s id).run.run m = (.ok v, m₁)) (hwf : v.WellFormed)
      (hb : v.matrix? = some b) (hrest : Row s eval ids m₁ bs m₂) :
      Row s eval (id :: ids) m (b :: bs) m₂

/-- Rows of nodes evaluate to such values, from top to bottom. -/
inductive Grid (s : Setting) (eval : Evaluator) :
    List (List NodeId) → Machine → List (List Matrix) → Machine → Prop where
  | nil (m : Machine) : Grid s eval [] m [] m
  | cons {ids : List NodeId} {rows : List (List NodeId)} {m m₁ m₂ : Machine} {bs : List Matrix}
      {grid : List (List Matrix)} (hrow : Row s eval ids m bs m₁)
      (hrest : Grid s eval rows m₁ grid m₂) : Grid s eval (ids :: rows) m (bs :: grid) m₂

/-- One element of a row, joined to those before it. -/
def joinElement (s : Setting) (eval : Evaluator) (joined : Matrix) (id : NodeId) :
    Evaluation Matrix := do
  let v ← eval s id
  let m ← Evaluation.orFail v.matrix? (.unsupported "[]" v.kind none)
  Evaluation.ofResult (joined.beside m)

/-- One row, put below those before it. -/
def stackRow (s : Setting) (eval : Evaluator) (stacked : Matrix) (ids : List NodeId) :
    Evaluation Matrix := do
  let row ← s.joinRow eval ids
  Evaluation.ofResult (stacked.above row)

theorem joinRow_eq (ids : List NodeId) :
    s.joinRow eval ids = ids.foldlM (s.joinElement eval) Matrix.empty := rfl

theorem matrixLiteral_eq (rows : List (List NodeId)) :
    s.matrixLiteral eval rows
      = rows.foldlM (s.stackRow eval) Matrix.empty >>= fun m => pure (.ofMatrix m) := rfl

section Element

variable {id : NodeId} {v : Value} (hv : (eval s id).run.run m = (.ok v, m₁))

include hv

theorem joinElement_endsAs {b : Matrix} (hb : v.matrix? = some b) (joined : Matrix) :
    EndsAs (s.joinElement eval joined id) m (joined.beside b) m₁ := by
  have hrun : EndsAs (eval s id) m (.ok v) m₁ := hv
  refine hrun.bind (g := fun _ => joined.beside b) ?_
  rintro _ ⟨⟩
  rw [hb]
  exact endsAs_ofResult (joined.beside b) m₁

theorem run_joinElement_refused (hnone : v.matrix? = none) (joined : Matrix) :
    (s.joinElement eval joined id).run.run m
      = (.error (.failed (.ofFault (.unsupported "[]" v.kind none))), m₁) := by
  rw [joinElement, run_bind_of_ok hv, hnone]
  rfl

end Element

theorem Row.wellFormed {ids : List NodeId} {bs : List Matrix} (h : s.Row eval ids m bs m₁) :
    ∀ b ∈ bs, b.WellFormed := by
  induction h with
  | nil => simp
  | cons _ hwf hb _ ih =>
      intro c hc
      rcases List.mem_cons.mp hc with rfl | hc
      · exact hwf.matrix? hb
      · exact ih c hc

theorem Grid.wellFormed {rows : List (List NodeId)} {grid : List (List Matrix)}
    (h : s.Grid eval rows m grid m₁) : ∀ bs ∈ grid, ∀ b ∈ bs, b.WellFormed := by
  induction h with
  | nil => simp
  | cons hrow _ ih =>
      intro cs hcs
      rcases List.mem_cons.mp hcs with rfl | hcs
      · exact hrow.wellFormed
      · exact ih cs hcs

/-- Elements that stand for matrices are joined as these are. -/
theorem Row.endsAs {ids : List NodeId} {bs : List Matrix} (h : s.Row eval ids m bs m₁)
    (joined : Matrix) :
    EndsAs (ids.foldlM (s.joinElement eval) joined) m (bs.foldlM Matrix.beside joined) m₁ := by
  induction h generalizing joined with
  | nil => rfl
  | cons hv _ hb _ ih =>
      rw [List.foldlM_cons, List.foldlM_cons]
      exact (joinElement_endsAs hv hb joined).bind fun a _ => ih a

theorem Row.joinRow_endsAs {ids : List NodeId} {bs : List Matrix} (h : s.Row eval ids m bs m₁) :
    EndsAs (s.joinRow eval ids) m (joinAll bs) m₁ := h.endsAs Matrix.empty

theorem Grid.endsAs {rows : List (List NodeId)} {grid : List (List Matrix)}
    (h : s.Grid eval rows m grid m₁) (stacked : Matrix) :
    EndsAs (rows.foldlM (s.stackRow eval) stacked) m
      (grid.foldlM (fun m row => do m.above (← joinAll row)) stacked) m₁ := by
  induction h generalizing stacked with
  | nil => rfl
  | cons hrow _ ih =>
      rw [List.foldlM_cons, List.foldlM_cons]
      refine EndsAs.bind ?_ fun a _ => ih a
      exact hrow.joinRow_endsAs.bind fun row _ => endsAs_ofResult (stacked.above row) _

theorem Grid.stackAll_endsAs {rows : List (List NodeId)} {grid : List (List Matrix)}
    (h : s.Grid eval rows m grid m₁) :
    EndsAs (rows.foldlM (s.stackRow eval) Matrix.empty) m (stackAll grid) m₁ :=
  h.endsAs Matrix.empty

/-! ### An element that stands for no matrix -/

section Refused

variable {above below : List (List NodeId)} {before after : List NodeId} {id : NodeId}
  {grid : List (List Matrix)} {bs : List Matrix} {v : Value}
  (habove : s.Grid eval above m grid m₁) (hbefore : s.Row eval before m₁ bs m₂)
  (hv : (eval s id).run.run m₂ = (.ok v, m₃)) (hnone : v.matrix? = none)

include hbefore hv hnone in
theorem run_stackRow_refused (hrow : RowFits bs) (stacked : Matrix) :
    (s.stackRow eval stacked (before ++ id :: after)).run.run m₁
      = (.error (.failed (.ofFault (.unsupported "[]" v.kind none))), m₃) := by
  obtain ⟨joined, hjoined, -⟩ := (joinAll_outcome hbefore.wellFormed).1 hrow
  have hends := hbefore.joinRow_endsAs
  rw [hjoined] at hends
  have hfold : (s.joinRow eval (before ++ id :: after)).run.run m₁
      = (.error (.failed (.ofFault (.unsupported "[]" v.kind none))), m₃) := by
    rw [joinRow_eq, List.foldlM_append, ← joinRow_eq, run_bind_of_ok hends, List.foldlM_cons,
      run_bind_of_error (run_joinElement_refused hv hnone joined)]
  exact run_bind_of_error hfold

include hbefore in
theorem run_stackRow_misfit (after : List NodeId) (hrow : ¬RowFits bs) :
    ∃ fault stopped, fault.IsShapeFault ∧ ∀ stacked,
      (s.stackRow eval stacked (before ++ after)).run.run m₁
        = (.error (.failed (.ofFault fault)), stopped) := by
  obtain ⟨fault, hfault, hshape⟩ := (joinAll_outcome hbefore.wellFormed).2 hrow
  have hends := hbefore.joinRow_endsAs
  rw [hfault] at hends
  obtain ⟨stopped, hstopped⟩ := hends
  have hfold : (s.joinRow eval (before ++ after)).run.run m₁
      = (.error (.failed (.ofFault fault)), stopped) := by
    rw [joinRow_eq, List.foldlM_append]
    exact run_bind_of_error hstopped
  exact ⟨fault, stopped, hshape, fun stacked => run_bind_of_error hfold⟩

include habove in
/-- Rows that fit are behind the evaluation when it comes to the next. -/
theorem run_literal_of_above (hfits : Fits grid) (ids : List NodeId) {stop : Stop}
    (hrow : ∀ stacked, (s.stackRow eval stacked ids).run.run m₁ = (.error stop, m₂)) :
    (s.matrixLiteral eval (above ++ ids :: below)).run.run m = (.error stop, m₂) := by
  obtain ⟨stacked, hstacked, -⟩ := (stackAll_outcome habove.wellFormed).1 hfits
  have hends := habove.stackAll_endsAs
  rw [hstacked] at hends
  have hfold : ((above ++ ids :: below).foldlM (s.stackRow eval) Matrix.empty).run.run m
      = (.error stop, m₂) := by
    rw [List.foldlM_append, run_bind_of_ok hends, List.foldlM_cons,
      run_bind_of_error (hrow stacked)]
  rw [matrixLiteral_eq]
  exact run_bind_of_error hfold

include habove hbefore in
theorem run_literal_row_misfit (hfits : Fits grid) (hrow : ¬RowFits bs) :
    ∃ fault stopped, (s.matrixLiteral eval (above ++ (before ++ after) :: below)).run.run m
        = (.error (.failed (.ofFault fault)), stopped) ∧ fault.IsShapeFault := by
  obtain ⟨fault, stopped, hshape, hrun⟩ := run_stackRow_misfit hbefore after hrow
  exact ⟨fault, stopped, run_literal_of_above habove hfits _ hrun, hshape⟩

include habove in
theorem run_literal_misfit (below : List (List NodeId)) (hfits : ¬Fits grid) :
    ∃ fault stopped, (s.matrixLiteral eval (above ++ below)).run.run m
        = (.error (.failed (.ofFault fault)), stopped) ∧ fault.IsShapeFault := by
  obtain ⟨fault, hfault, hshape⟩ := (stackAll_outcome habove.wellFormed).2 hfits
  have hends := habove.stackAll_endsAs
  rw [hfault] at hends
  obtain ⟨stopped, hstopped⟩ := hends
  have hfold : ((above ++ below).foldlM (s.stackRow eval) Matrix.empty).run.run m
      = (.error (.failed (.ofFault fault)), stopped) := by
    rw [List.foldlM_append]
    exact run_bind_of_error hstopped
  rw [matrixLiteral_eq]
  exact ⟨fault, stopped, run_bind_of_error hfold, hshape⟩

end Refused

theorem run_literal_of_stackAll {rows : List (List NodeId)} {grid : List (List Matrix)}
    (h : s.Grid eval rows m grid m₁) {assembled : Matrix}
    (hstacked : stackAll grid = .ok assembled) :
    (s.matrixLiteral eval rows).run.run m = (.ok (.ofMatrix assembled), m₁) := by
  have hends := h.stackAll_endsAs
  rw [hstacked] at hends
  rw [matrixLiteral_eq, run_bind_of_ok hends]
  rfl

/-- A literal whose elements all stand for matrices is the block matrix of these. -/
theorem run_literal_of_fits {rows : List (List NodeId)} {grid : List (List Matrix)}
    (h : s.Grid eval rows m grid m₁) (hfits : Fits grid) :
    ∃ assembled, (s.matrixLiteral eval rows).run.run m = (.ok (.ofMatrix assembled), m₁)
      ∧ Assembles grid assembled := by
  obtain ⟨assembled, hstacked, hassembles⟩ := (stackAll_outcome h.wellFormed).1 hfits
  exact ⟨assembled, run_literal_of_stackAll h hstacked, hassembles⟩

/-- A literal whose elements stand for matrices is their block matrix if they fit and refused if
they do not. An element that stands for no matrix is refused at once, unless what precedes it does
not fit. -/
theorem matrixLiteral_outcome (s : Setting) (eval : Evaluator) (m : Machine) :
    (∀ rows grid m₁, s.Grid eval rows m grid m₁ →
      (Fits grid → ∃ assembled,
        (s.matrixLiteral eval rows).run.run m = (.ok (.ofMatrix assembled), m₁)
          ∧ Assembles grid assembled)
      ∧ (¬Fits grid → ∃ fault stopped,
        (s.matrixLiteral eval rows).run.run m = (.error (.failed (.ofFault fault)), stopped)
          ∧ fault.IsShapeFault))
    ∧ ∀ above before id after below grid bs m₁ m₂ m₃ v,
      s.Grid eval above m grid m₁ → s.Row eval before m₁ bs m₂ →
      (eval s id).run.run m₂ = (.ok v, m₃) → v.matrix? = none →
      (Fits grid → RowFits bs →
        (s.matrixLiteral eval (above ++ (before ++ id :: after) :: below)).run.run m
          = (.error (.failed (.ofFault (.unsupported "[]" v.kind none))), m₃))
      ∧ (¬(Fits grid ∧ RowFits bs) → ∃ fault stopped,
        (s.matrixLiteral eval (above ++ (before ++ id :: after) :: below)).run.run m
          = (.error (.failed (.ofFault fault)), stopped) ∧ fault.IsShapeFault) := by
  constructor
  · intro rows grid m₁ h
    refine ⟨run_literal_of_fits h, fun hnot => ?_⟩
    have hmisfit := run_literal_misfit h [] hnot
    rwa [List.append_nil] at hmisfit
  · intro above before id after below grid bs m₁ m₂ m₃ v habove hbefore hv hnone
    constructor
    · intro hfits hrow
      apply run_literal_of_above habove hfits
      exact run_stackRow_refused hbefore hv hnone hrow
    · intro hnot
      by_cases hfits : Fits grid
      · have hrow : ¬RowFits bs := fun hrow => hnot ⟨hfits, hrow⟩
        exact run_literal_row_misfit habove hbefore hfits hrow
      · exact run_literal_misfit habove _ hfits

/-- A row of a matrix without columns and the number one, a row of only the former, and one of only
the latter make a column of two. The number and `1:2` do not fit into one row. A text is refused
even if what follows does not fit either. -/
theorem matrixLiteral_outcome_column :
    let s : Setting := ⟨Forest.empty, Library.empty, none, Depth.ofLimit 1⟩
    let value : UInt32 → Value := fun k =>
      if k = 0 then .matrix ⟨2, 0, #[]⟩ else if k = 1 then .ofNat 1
      else if k = 2 then .text "a" else .range ⟨.ofNat 1, .one, .at (.ofNat 2)⟩
    let eval : Evaluator := fun _ id => pure (value id.index)
    let m : Machine := ⟨Environment.empty, 0, 0, []⟩
    (∃ column : Matrix, (s.matrixLiteral eval [[⟨0⟩, ⟨1⟩], [⟨0⟩], [⟨1⟩]]).run.run m
        = (.ok (.ofMatrix column), m) ∧ column.rows = 2 ∧ column.cols = 1
        ∧ column.cell? 1 0 = some (.ofReal (.ofNat 1)))
    ∧ (∃ fault stopped, (s.matrixLiteral eval [[⟨1⟩, ⟨3⟩]]).run.run m
        = (.error (.failed (.ofFault fault)), stopped) ∧ fault.IsShapeFault)
    ∧ (s.matrixLiteral eval [[⟨1⟩], [⟨0⟩, ⟨2⟩, ⟨1⟩, ⟨3⟩]]).run.run m
        = (.error (.failed (.ofFault (.unsupported "[]" .string none))), m) := by
  intro s value eval m
  obtain ⟨hmatrices, hrefused⟩ := matrixLiteral_outcome s eval m
  have hnone : s.Row eval [⟨0⟩] m [⟨2, 0, #[]⟩] m := .cons rfl ⟨rfl, by decide⟩ rfl (.nil m)
  have hone : s.Row eval [⟨1⟩] m [.scalar (.ofReal (.ofNat 1))] m := .cons rfl trivial rfl (.nil m)
  refine ⟨?_, ?_, ?_⟩
  · have hfirst : s.Row eval [⟨0⟩, ⟨1⟩] m [⟨2, 0, #[]⟩, .scalar (.ofReal (.ofNat 1))] m :=
      .cons rfl ⟨rfl, by decide⟩ rfl hone
    obtain ⟨column, hrun, hcolumn⟩ :=
      (hmatrices _ _ m (.cons hfirst (.cons hnone (.cons hone (.nil m))))).1
        ⟨by decide, by decide, by decide⟩
    exact ⟨column, hrun, hcolumn.height nofun, hcolumn.width _ (.head _), hcolumn.entry 1 0⟩
  · have hrow : s.Row eval [⟨1⟩, ⟨3⟩] m
        [.scalar (.ofReal (.ofNat 1)), .columnVector #[.ofReal (.ofNat 1), .ofReal (.ofNat 2)]] m :=
      .cons rfl trivial rfl
        (.cons rfl ⟨by decide, by decide, by decide +kernel⟩ (by decide +kernel) (.nil m))
    apply (hmatrices _ _ m (.cons hrow (.nil m))).2
    exact fun hfits => absurd hfits.level (by decide)
  · have hrefusal := hrefused [[⟨1⟩]] [⟨0⟩] ⟨2⟩ [⟨1⟩, ⟨3⟩] [] _ _ m m m (.text "a")
      (.cons hone (.nil m)) hnone rfl rfl
    exact hrefusal.1 ⟨by decide, by decide, by decide⟩ ⟨by decide, by decide⟩

end Setting

end MatrixScript
