import MatrixScript.Proofs.Cells
import MatrixScript.Proofs.Values.Matrices

/-!
# Sweeps in place

The iteration can be run on one matrix that keeps its size, with a count of the rows that are still
active. Then a cell may be read or written only if its row and its column are active, and a sweep is
made of partial steps: it fails as soon as one of them reaches for a cell outside of the active
block. It never does, and the block is left as the sweep on a square of its own leaves that square.
-/

namespace MatrixScript

/-- A counted loop of steps that may fail. -/
def forBetween? {α : Type} (start stop : Nat) (step : Nat → α → Option α) (x : α) : Option α :=
  foldBetween start stop (fun k x => x.bind (step k)) (some x)

/-- The turn of two rows, or of two columns, by a cosine and a sine. -/
structure Turn where
  top : Nat
  bottom : Nat
  c : Complex
  s : Complex

namespace Matrix

/-- Reads a cell of the leading block of `active` rows and columns, and of nothing else. -/
def readActive? (m : Matrix) (active i j : Nat) : Option Complex :=
  if i < active ∧ j < active then m.cell? i j else none

/-- Writes a cell that can be read. -/
def writeActive? (m : Matrix) (active i j : Nat) (z : Complex) : Option Matrix :=
  (m.readActive? active i j).map fun _ => m.setCell i j z

def mapDiagonal? (f : Complex → Complex) (active : Nat) : Matrix → Option Matrix :=
  forBetween? 0 active fun k m => do
    m.writeActive? active k k (f (← m.readActive? active k k))

/-- The turn that clears a cell below the diagonal, unless it is zero. -/
def turnFor? (m : Matrix) (active col row : Nat) : Option (Option Turn) := do
  let x ← m.readActive? active col col
  let y ← m.readActive? active row col
  let r := (x.norm * x.norm + y.norm * y.norm).sqrt
  if r.isZero || y.isZero then return none
  else return some ⟨col, row, x / Complex.ofReal r, y / Complex.ofReal r⟩

def turnRows? (active : Nat) (g : Turn) : Matrix → Option Matrix :=
  forBetween? 0 active fun k m => do
    let x ← m.readActive? active g.top k
    let y ← m.readActive? active g.bottom k
    let m ← m.writeActive? active g.top k (g.c.conj * x + g.s.conj * y)
    m.writeActive? active g.bottom k (g.c * y - g.s * x)

def turnColumns? (active : Nat) (m : Matrix) (g : Turn) : Option Matrix :=
  forBetween? 0 active
    (fun k m => do
      let x ← m.readActive? active k g.top
      let y ← m.readActive? active k g.bottom
      let m ← m.writeActive? active k g.top (x * g.c + y * g.s)
      m.writeActive? active k g.bottom (y * g.c.conj - x * g.s.conj))
    m

/-- Clears one cell, and notes the turn that was needed for it. -/
def clear? (active col row : Nat) : Matrix × List Turn → Option (Matrix × List Turn)
  | (m, turns) => do
    match ← m.turnFor? active col row with
    | none => return (m, turns)
    | some g => return (← m.turnRows? active g, turns ++ [g])

def triangulate? (m : Matrix) (active : Nat) : Option (Matrix × List Turn) :=
  forBetween? 0 active (fun col => forBetween? (col + 1) active (clear? active col)) (m, [])

def qrStep? (m : Matrix) (active : Nat) (shift : Complex) : Option Matrix := do
  let (m, turns) ← (← m.mapDiagonal? (· - shift) active).triangulate? active
  (← turns.foldlM (turnColumns? active) m).mapDiagonal? (· + shift) active

/-- The shift from the last two active rows and columns, of which there must be two. -/
def trailingShift? (m : Matrix) : (active : Nat) → Option Complex
  | i + 2 => do
    let a ← m.readActive? (i + 2) i i
    let b ← m.readActive? (i + 2) i (i + 1)
    let c ← m.readActive? (i + 2) (i + 1) i
    let d ← m.readActive? (i + 2) (i + 1) (i + 1)
    let half := Complex.ofReal Double.half
    let mean := (a + d) * half
    let gap := (a - d) * half
    let root := (gap * gap + b * c).sqrt
    let first := mean + root
    let second := mean - root
    return if (first - d).norm.le (second - d).norm then first else second
  | _ => none

/-- What is left of the last active row before the diagonal. -/
def residue? (m : Matrix) (last : Nat) : Option Double :=
  forBetween? 0 last (fun c sum => do return sum + (← m.readActive? (last + 1) last c).norm)
    Double.negativeZero

end Matrix

/-! ### Steps that do not fail -/

section Stays

variable {α β σ τ : Type} {R : α → σ → Prop} {S : β → τ → Prop}

/-- A partial step does not fail, and it gives what stands in a relation to `s`. -/
def Stays (R : α → σ → Prop) (x : Option α) (s : σ) : Prop := ∃ a, x = some a ∧ R a s

theorem Stays.bind {x : Option α} {s : σ} {f : α → Option β} {t : τ} (hx : Stays R x s)
    (hf : ∀ a, R a s → Stays S (f a) t) : Stays S (x >>= f) t := by
  obtain ⟨a, rfl, ha⟩ := hx
  exact hf a ha

/-- A loop does not fail if none of its steps does. What it leaves out at the start is allowed to be
there in the loop that it is compared to, if it has no effect there. -/
theorem stays_forBetween {n start : Nat} {step : Nat → α → Option α}
    {f : (k : Nat) → k < n → σ → σ} {a : α} {s : σ}
    (hskip : ∀ k (hk : k < n) s, k < start → f k hk s = s)
    (hstep : ∀ k (hk : k < n) a s, start ≤ k → R a s → Stays R (step k a) (f k hk s))
    (h : R a s) : Stays R (forBetween? start n step a) (n.fold f s) := by
  induction n with
  | zero => exact ⟨a, by rw [forBetween?, foldBetween, Nat.zero_sub, Nat.fold_zero], h⟩
  | succ n ih =>
      obtain ⟨b, hb, hrel⟩ := ih (fun k hk => hskip k (by omega)) fun k hk => hstep k (by omega)
      rw [forBetween?, foldBetween] at hb ⊢
      rw [Nat.fold_succ]
      by_cases hn : n < start
      -- the loop has not begun, and the other one has done nothing so far
      · rw [Nat.sub_eq_zero_of_le hn, Nat.fold_zero]
        rw [Nat.sub_eq_zero_of_le (Nat.le_of_lt hn), Nat.fold_zero] at hb
        rw [hskip n _ _ hn, hb]
        exact ⟨b, rfl, hrel⟩
      · rw [Nat.succ_sub (Nat.le_of_not_lt hn), Nat.fold_succ, hb, Option.bind_some,
          Nat.add_sub_of_le (Nat.le_of_not_lt hn)]
        exact hstep n _ b _ (Nat.le_of_not_lt hn) hrel

theorem stays_loop {n : Nat} {step : Nat → α → Option α} {f : (k : Nat) → k < n → σ → σ} {a : α}
    {s : σ} (hstep : ∀ k (hk : k < n) a s, R a s → Stays R (step k a) (f k hk s)) (h : R a s) :
    Stays R (forBetween? 0 n step a) (n.fold f s) :=
  stays_forBetween (fun k _ _ hk => absurd hk (Nat.not_lt_zero k))
    (fun k hk a s _ => hstep k hk a s) h

theorem stays_foldlM {step : α → β → Option α} {f : σ → τ → σ} {s : σ} {a : α} (g : τ → β)
    (hstep : ∀ a s t, R a s → Stays R (step a (g t)) (f s t)) (h : R a s) (ts : List τ) :
    Stays R ((ts.map g).foldlM step a) (ts.foldl f s) := by
  induction ts generalizing a s with
  | nil => exact ⟨a, rfl, h⟩
  | cons t ts ih =>
      rw [List.map_cons, List.foldlM_cons, List.foldl_cons]
      exact (hstep a s t h).bind fun b hb => ih hb

end Stays

/-! ### Cells of a square -/

namespace Square

variable {n : Nat}

theorem get_set (a : Square n) (i j i' j' : Fin n) (z : Complex) :
    (a.set i j z).get i' j' = if i' = i ∧ j' = j then z else a.get i' j' := by
  have hplace : i * n + j = i' * n + j' ↔ i' = i ∧ j' = j := by
    constructor
    · intro h
      obtain ⟨hi, hj⟩ := Matrix.eq_of_place_eq j.isLt j'.isLt h
      exact ⟨Fin.ext hi.symm, Fin.ext hj.symm⟩
    · rintro ⟨rfl, rfl⟩
      rfl
  have hwritten := offset_lt i.isLt j.isLt
  have hread := offset_lt i'.isLt j'.isLt
  change (a.cells.set (i * n + j) z hwritten)[i' * n + j'] = if _ then z else a.cells[i' * n + j']
  rw [Vector.getElem_set]
  simp only [hplace]

theorem get_ofFn (f : Fin (n * n) → Complex) (i j : Fin n) :
    (⟨Vector.ofFn f⟩ : Square n).get i j = f ⟨i * n + j, offset_lt i.isLt j.isLt⟩ := by
  have hlt := offset_lt i.isLt j.isLt
  change (Vector.ofFn f)[i * n + j] = _
  rw [Vector.getElem_ofFn]

theorem get_leading (a : Square (n + 1)) (i j : Fin n) :
    a.leading.get i j = a.get i.castSucc j.castSucc := by
  have hdiv : (i * n + j) / n = i := Matrix.place_div j.isLt
  have hmod : (i * n + j) % n = j := Matrix.place_mod j.isLt
  rw [leading, get_ofFn]
  simp only [hdiv, hmod]
  rfl

/-- The turn that a rotation makes. -/
def Rotation.turn (g : Rotation n) : Turn := ⟨g.top, g.bottom, g.c, g.s⟩

end Square

/-! ### The block of a matrix -/

/-- The leading block of a matrix holds what a square does. -/
structure Matrix.Holds {n : Nat} (m : Matrix) (a : Square n) : Prop where
  wellFormed : m.WellFormed
  rows_le : n ≤ m.rows
  cols_le : n ≤ m.cols
  cell (i j : Fin n) : m.cell? i j = some (a.get i j)

namespace Matrix.Holds

open Square

variable {m : Matrix} {n : Nat} {a : Square n}

theorem ofMatrix (h : m.WellFormed) (hsquare : m.rows = m.cols) : m.Holds (Square.ofMatrix m) where
  wellFormed := h
  rows_le := Nat.le_refl _
  cols_le := Nat.le_of_eq hsquare
  cell i j := by
    have hj : j < m.cols := hsquare ▸ j.isLt
    rw [cell?_eq_some_cell h i.isLt hj, Square.ofMatrix, get_ofFn]
    dsimp only
    rw [place_div j.isLt, place_mod j.isLt]

theorem leading {a : Square (n + 1)} (h : m.Holds a) : m.Holds a.leading where
  wellFormed := h.wellFormed
  rows_le := Nat.le_of_succ_le h.rows_le
  cols_le := Nat.le_of_succ_le h.cols_le
  cell i j := by
    rw [get_leading]
    exact h.cell i.castSucc j.castSucc

theorem read {i j : Nat} (h : m.Holds a) (hi : i < n) (hj : j < n) :
    m.readActive? n i j = some (a.get ⟨i, hi⟩ ⟨j, hj⟩) := by
  rw [readActive?, if_pos ⟨hi, hj⟩]
  exact h.cell ⟨i, hi⟩ ⟨j, hj⟩

theorem write {i j : Nat} (h : m.Holds a) (hi : i < n) (hj : j < n) (z : Complex) :
    Stays Holds (m.writeActive? n i j z) (a.set ⟨i, hi⟩ ⟨j, hj⟩ z) := by
  refine ⟨m.setCell i j z, by rw [writeActive?, h.read hi hj]; rfl, h.wellFormed.setCell i j z,
    h.rows_le, h.cols_le, fun i' j' => ?_⟩
  have hrow := Nat.lt_of_lt_of_le hi h.rows_le
  have hcol := Nat.lt_of_lt_of_le hj h.cols_le
  rw [cell?_setCell h.wellFormed hrow hcol, get_set]
  simp only [Fin.ext_iff, h.cell, apply_ite some]

theorem mapDiagonal (h : m.Holds a) (f : Complex → Complex) :
    Stays Holds (m.mapDiagonal? f n) (a.mapDiagonal f) := by
  refine stays_loop (fun k hk m a h => ?_) h
  rw [h.read hk hk]
  exact h.write hk hk _

theorem turnFor {col row : Nat} (h : m.Holds a) (hcol : col < n) (hrow : row < n) :
    m.turnFor? n col row = some ((a.rotation? ⟨col, hcol⟩ ⟨row, hrow⟩).map Rotation.turn) := by
  rw [turnFor?, h.read hcol hcol, h.read hrow hcol, rotation?]
  dsimp only [Option.bind_eq_bind, Option.bind_some]
  split <;> rfl

theorem turnRows (h : m.Holds a) (g : Rotation n) :
    Stays Holds (m.turnRows? n g.turn) (a.rotateRows g) := by
  refine stays_loop (fun k hk m a h => ?_) h
  dsimp only [Rotation.turn]
  rw [h.read g.top.isLt hk, h.read g.bottom.isLt hk]
  exact (h.write g.top.isLt hk _).bind fun m h => h.write g.bottom.isLt hk _

theorem turnColumns (h : m.Holds a) (g : Rotation n) :
    Stays Holds (m.turnColumns? n g.turn) (a.rotateColumns g) := by
  refine stays_loop (fun k hk m a h => ?_) h
  dsimp only [Rotation.turn]
  rw [h.read hk g.top.isLt, h.read hk g.bottom.isLt]
  exact (h.write hk g.top.isLt _).bind fun m h => h.write hk g.bottom.isLt _

/-- The turns are noted in the order in which they are made, the rotations the other way round. -/
def Notes (p : Matrix × List Turn) (q : Square n × List (Rotation n)) : Prop :=
  p.1.Holds q.1 ∧ p.2 = q.2.reverse.map Rotation.turn

theorem triangulate (h : m.Holds a) : Stays Notes (m.triangulate? n) a.triangulate := by
  refine stays_loop (fun col hcol p q hnotes => ?_) ⟨h, rfl⟩
  refine stays_forBetween (fun row _ q hrow => if_pos (Nat.le_of_lt_succ hrow))
    (fun row hrow p q hbelow hnotes => ?_) hnotes
  obtain ⟨m, turns⟩ := p
  obtain ⟨a, done⟩ := q
  obtain ⟨h, hturns⟩ := hnotes
  dsimp only at h hturns ⊢
  rw [if_neg (Nat.not_le_of_lt hbelow), clear?, h.turnFor hcol hrow]
  cases a.rotation? ⟨col, hcol⟩ ⟨row, hrow⟩ with
  | none => exact ⟨(m, turns), rfl, h, hturns⟩
  | some g =>
      obtain ⟨m', hm', hholds⟩ := h.turnRows g
      refine ⟨(m', turns ++ [g.turn]), ?_, hholds, ?_⟩
      · rw [Option.map_some]
        dsimp only [Option.bind_eq_bind, Option.bind_some]
        rw [hm']
        rfl
      · rw [hturns, List.reverse_cons, List.map_append]
        rfl

theorem qrStep (h : m.Holds a) (shift : Complex) :
    Stays Holds (m.qrStep? n shift) (a.qrStep shift) := by
  refine (h.mapDiagonal (· - shift)).bind fun m h => h.triangulate.bind fun p hnotes => ?_
  obtain ⟨m, turns⟩ := p
  obtain ⟨h, rfl⟩ := hnotes
  exact (stays_foldlM Rotation.turn (fun m a g h => turnColumns h g) h _).bind fun m h =>
    h.mapDiagonal (· + shift)

theorem trailingShift {a : Square (n + 2)} (h : m.Holds a) :
    m.trailingShift? (n + 2) = some a.trailingShift := by
  have hi : n < n + 2 := by omega
  have hj : n + 1 < n + 2 := by omega
  rw [trailingShift?, h.read hi hi, h.read hi hj, h.read hj hi, h.read hj hj]
  rfl

theorem residue {a : Square (n + 1)} (h : m.Holds a) : m.residue? n = some a.residue := by
  have hstays : Stays Eq (m.residue? n) a.residue := by
    refine stays_loop ?_ rfl
    rintro k hk sum _ rfl
    rw [h.read (Nat.lt_succ_self n) (Nat.lt_succ_of_lt hk)]
    exact ⟨_, rfl, rfl⟩
  obtain ⟨x, hx, rfl⟩ := hstays
  exact hx

end Matrix.Holds

end MatrixScript
