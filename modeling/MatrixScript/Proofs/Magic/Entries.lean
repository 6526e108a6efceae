import MatrixScript.Library.Matrices
import MatrixScript.Proofs.Cells
import MatrixScript.Proofs.Values.Matrices

/-!
# The entries of the squares

What the constructions leave in each cell, as a function of its row and its column. An even order
that is not a multiple of four is twice a number `p`. Its rows and columns come in two halves, and
the loops only ever exchange a cell with the one of the other half, `p` rows away, so what has to be
known of a cell is whether this has happened to it.
-/

namespace MatrixScript

namespace Magic

/-- Four odd squares of half the order: the entries of each are shifted by a multiple of the number
of entries in one of them. -/
def quartered (n r c : Nat) : Nat :=
  let half := n / 2
  let quarter :=
    match decide (r < half), decide (c < half) with
    | true, true => 0
    | false, false => 1
    | true, false => 2
    | false, true => 3
  odd half (r % half) (c % half) + quarter * (half * half)

/-- Whether the entry in this column and in row `r` of the upper or the lower half changes places
with the one of the other half. -/
def exchanged (n r c : Nat) : Bool :=
  let k := (n - 2) / 4
  (c < k || n - k + 1 ≤ c) != (r = k && (c = 0 || c = k))

/-- The even orders that are not multiples of four. -/
def singlyEven (n r c : Nat) : Nat :=
  let half := n / 2
  if exchanged n (r % half) c then quartered n ((r + half) % n) c else quartered n r c

/-- The entry of the magic square of order `n`. -/
def entry (n r c : Nat) : Nat :=
  if n % 2 = 1 then odd n r c else if n % 4 = 0 then doublyEven n r c else singlyEven n r c

/-! ### Stored squares -/

section Stored

variable {n i j r c : Nat} {cells : Array Nat}

theorem getD_tabulate (f : Nat → Nat → Nat) (hr : r < n) (hc : c < n) :
    (tabulate n f).getD (r * n + c) 0 = f r c := by
  have hplace := Matrix.place_lt hr hc
  rw [Array.getD_eq_getD_getElem?, tabulate, Array.getElem?_ofFn, dif_pos hplace]
  simp only [Option.getD_some, Matrix.place_div hc, Matrix.place_mod hc]

theorem getD_write (hsize : cells.size = n * n) (hi : i < n) (hj : j < n) (hc : c < n) (a : Nat) :
    (cells.setIfInBounds (i * n + j) a).getD (r * n + c) 0
      = if r = i ∧ c = j then a else cells.getD (r * n + c) 0 := by
  have hplace : i * n + j < cells.size := by
    rw [hsize]
    exact Matrix.place_lt hi hj
  rw [Array.getD_eq_getD_getElem?, Array.getD_eq_getD_getElem?, Array.getElem?_setIfInBounds]
  by_cases hsame : r = i ∧ c = j
  · rw [hsame.1, hsame.2, if_pos rfl, if_pos hplace, if_pos ⟨rfl, rfl⟩, Option.getD_some]
  · have hother : i * n + j ≠ r * n + c := by
      intro h
      obtain ⟨hrow, hcol⟩ := Matrix.eq_of_place_eq hj hc h
      exact hsame ⟨hrow.symm, hcol.symm⟩
    rw [if_neg hother, if_neg hsame]

end Stored

/-! ### Halves -/

/-- The row or column with number `i` in the first or the second half of an order `2 * p`. -/
def inHalf (p : Nat) (second : Bool) (i : Nat) : Nat := if second then i + p else i

/-- The multiple by which a quarter is shifted. -/
def quarter : (lower right : Bool) → Nat
  | false, false => 0
  | true, true => 1
  | false, true => 2
  | true, false => 3

section Halves

variable {p r c : Nat}

theorem inHalf_lt (hr : r < p) (second : Bool) : inHalf p second r < 2 * p := by
  cases second <;> simp only [inHalf, Bool.false_eq_true, if_true, if_false] <;> omega

theorem inHalf_mod (hr : r < p) (second : Bool) : inHalf p second r % p = r := by
  cases second with
  | false => exact Nat.mod_eq_of_lt hr
  | true => exact (Nat.add_mod_right r p).trans (Nat.mod_eq_of_lt hr)

theorem inHalf_opposite (hr : r < p) (second : Bool) :
    (inHalf p second r + p) % (2 * p) = inHalf p (!second) r := by
  cases second with
  | false =>
      have hsum : r + p < 2 * p := by omega
      exact Nat.mod_eq_of_lt hsum
  | true =>
      have hround : r + p + p = r + 2 * p := by omega
      change (r + p + p) % (2 * p) = r
      rw [hround, Nat.add_mod_right, Nat.mod_eq_of_lt (by omega)]

/-- Counted from the end, a place is in the other half. -/
theorem inHalf_reversed (hr : r < p) (second : Bool) :
    2 * p - 1 - inHalf p second r = inHalf p (!second) (p - 1 - r) := by
  cases second with
  | false =>
      change 2 * p - 1 - r = p - 1 - r + p
      omega
  | true =>
      change 2 * p - 1 - (r + p) = p - 1 - r
      omega

theorem decide_inHalf_lt (hr : r < p) (second : Bool) :
    decide (inHalf p second r < p) = !second := by
  cases second with
  | false => exact decide_eq_true hr
  | true => exact decide_eq_false (Nat.not_lt.mpr (Nat.le_add_left p r))

theorem exists_inHalf {i : Nat} (h : i < 2 * p) : ∃ second j, j < p ∧ i = inHalf p second j := by
  by_cases hfirst : i < p
  · exact ⟨false, i, hfirst, rfl⟩
  · exact ⟨true, i - p, by omega, (Nat.sub_add_cancel (Nat.not_lt.mp hfirst)).symm⟩

theorem inHalf_inj {second second' : Bool} {r' : Nat} (hr : r < p) (hr' : r' < p)
    (h : inHalf p second r = inHalf p second' r') : second = second' ∧ r = r' := by
  have hsecond : (!second) = !second' := by
    rw [← decide_inHalf_lt hr second, ← decide_inHalf_lt hr' second', h]
  constructor
  · exact Bool.not_inj hsecond
  · rw [← inHalf_mod hr second, h, inHalf_mod hr']

theorem quartered_inHalf (hr : r < p) (hc : c < p) (lower right : Bool) :
    quartered (2 * p) (inHalf p lower r) (inHalf p right c)
      = odd p r c + quarter lower right * (p * p) := by
  have hhalf : 2 * p / 2 = p := by omega
  unfold quartered
  dsimp only
  rw [hhalf, inHalf_mod hr, inHalf_mod hc, decide_inHalf_lt hr, decide_inHalf_lt hc]
  cases lower <;> cases right <;> rfl

end Halves

/-! ### Four quarters -/

/-- A square of order `2 * p` that has the right entry at row `r` and column `c`. -/
structure HasQuartered (p r c : Nat) (cells : Array Nat) : Prop where
  size : cells.size = 2 * p * (2 * p)
  entry : cells.getD (r * (2 * p) + c) 0 = quartered (2 * p) r c

/-- Writes the right entry to one cell. -/
def writeQuartered (p : Nat) (cells : Array Nat) (r c : Nat) : Array Nat :=
  cells.setIfInBounds (r * (2 * p) + c) (quartered (2 * p) r c)

section Quarters

variable {p i j r c : Nat} {cells : Array Nat}

theorem hasQuartered_write (hsize : cells.size = 2 * p * (2 * p)) (hr : r < 2 * p)
    (hc : c < 2 * p) : HasQuartered p r c (writeQuartered p cells r c) := by
  constructor
  · exact Array.size_setIfInBounds.trans hsize
  · rw [writeQuartered, getD_write hsize hr hc hc, if_pos ⟨rfl, rfl⟩]

/-- Only right entries are written, so it does not matter whether a cell is written again. -/
theorem HasQuartered.write (h : HasQuartered p r c cells) (hc : c < 2 * p) (hi : i < 2 * p)
    (hj : j < 2 * p) : HasQuartered p r c (writeQuartered p cells i j) := by
  constructor
  · exact Array.size_setIfInBounds.trans h.size
  · rw [writeQuartered, getD_write h.size hi hj hc]
    by_cases hsame : r = i ∧ c = j
    · rw [if_pos hsame, hsame.1, hsame.2]
    · rw [if_neg hsame, h.entry]

theorem size_writeQuarters (quadrant cells : Array Nat) (r c : Nat) :
    (writeQuarters p quadrant cells r c).size = cells.size := by
  simp only [writeQuarters, Array.size_setIfInBounds]

theorem writeQuarters_eq (cells : Array Nat) (hi : i < p) (hj : j < p) :
    writeQuarters p (tabulate p (odd p)) cells i j
      = writeQuartered p (writeQuartered p (writeQuartered p (writeQuartered p cells i j) i (j + p))
          (i + p) j) (i + p) (j + p) := by
  have hentry := quartered_inHalf hi hj
  have hfirst := hentry false false
  have hsecond := hentry false true
  have hthird := hentry true false
  have hfourth := hentry true true
  simp only [inHalf, quarter, Bool.false_eq_true, if_true, if_false, Nat.zero_mul, Nat.one_mul,
    Nat.add_zero] at hfirst hsecond hthird hfourth
  simp only [writeQuarters, writeQuartered, getD_tabulate _ hi hj, hfirst, hsecond, hthird, hfourth]

theorem HasQuartered.writeQuarters (h : HasQuartered p r c cells) (hc : c < 2 * p) (hi : i < p)
    (hj : j < p) : HasQuartered p r c (writeQuarters p (tabulate p (odd p)) cells i j) := by
  have hhere := h.write hc (i := i) (j := j) (by omega) (by omega)
  have hright := hhere.write hc (i := i) (j := j + p) (by omega) (by omega)
  have hbelow := hright.write hc (i := i + p) (j := j) (by omega) (by omega)
  rw [writeQuarters_eq cells hi hj]
  exact hbelow.write hc (by omega) (by omega)

theorem hasQuartered_writeQuarters (hsize : cells.size = 2 * p * (2 * p)) (hi : i < p) (hj : j < p)
    (lower right : Bool) :
    HasQuartered p (inHalf p lower i) (inHalf p right j)
      (Magic.writeQuarters p (tabulate p (odd p)) cells i j) := by
  rw [writeQuarters_eq cells hi hj]
  have hwrite {cells : Array Nat} (hsize : cells.size = 2 * p * (2 * p)) (l t : Bool) :=
    hasQuartered_write hsize (inHalf_lt hi l) (inHalf_lt hj t)
  have hsize' {cells : Array Nat} (hsize : cells.size = 2 * p * (2 * p)) (r c : Nat) :
      (writeQuartered p cells r c).size = 2 * p * (2 * p) := Array.size_setIfInBounds.trans hsize
  have hupper := hsize' (hsize' hsize i j) i (j + p)
  cases lower with
  | false =>
      have hkept {cells : Array Nat} {t : Bool} (h : HasQuartered p i (inHalf p t j) cells) :=
        (h.write (inHalf_lt hj t) (i := i + p) (j := j) (by omega) (by omega)).write
          (inHalf_lt hj t) (i := i + p) (j := j + p) (by omega) (by omega)
      cases right with
      | false => exact hkept ((hwrite hsize false false).write (inHalf_lt hj false) (by omega) (by omega))
      | true => exact hkept (hwrite (hsize' hsize i j) false true)
  | true =>
      cases right with
      | false => exact (hwrite hupper true false).write (inHalf_lt hj false) (by omega) (by omega)
      | true => exact hwrite (hsize' hupper (i + p) j) true true

theorem size_writeRow (hsize : cells.size = 2 * p * (2 * p)) (quadrant : Array Nat) (r : Nat) :
    (p.fold (fun c _ cells => writeQuarters p quadrant cells r c) cells).size = 2 * p * (2 * p) :=
  fold_keeps (P := fun cells : Array Nat => cells.size = 2 * p * (2 * p)) hsize
    fun c _ cells hcells => (size_writeQuarters quadrant cells r c).trans hcells

theorem size_quarters (p : Nat) : (quarters p).size = 2 * p * (2 * p) :=
  fold_keeps (P := fun cells : Array Nat => cells.size = 2 * p * (2 * p)) Array.size_replicate
    fun r _ _ hcells => size_writeRow hcells _ r

theorem hasQuartered_quarters (hi : i < p) (hj : j < p) (lower right : Bool) :
    HasQuartered p (inHalf p lower i) (inHalf p right j) (quarters p) := by
  have hcol := inHalf_lt hj right
  refine fold_reaches (P := fun cells : Array Nat => cells.size = 2 * p * (2 * p)) hi
    Array.size_replicate (fun r _ _ hcells => size_writeRow hcells _ r) (fun cells hcells => ?_)
    fun r hr _ h => fold_keeps h fun c hc _ h => h.writeQuarters hcol hr hc
  exact fold_reaches (P := fun cells : Array Nat => cells.size = 2 * p * (2 * p)) hj hcells
    (fun c _ cells hcells => (size_writeQuarters _ cells i c).trans hcells)
    (fun _ hcells => hasQuartered_writeQuarters hcells hi hj lower right)
    fun c hc _ h => h.writeQuarters hcol hi hc

end Quarters

/-! ### Exchanges -/

/-- The four quarters with some entries in the half where they do not belong. Which ones these are
is the same in both halves. -/
structure Moved (p : Nat) (moved : Nat → Nat → Bool) (cells : Array Nat) : Prop where
  size : cells.size = 2 * p * (2 * p)
  entry : ∀ r < p, ∀ c < 2 * p, ∀ lower,
    cells.getD (inHalf p lower r * (2 * p) + c) 0
      = quartered (2 * p) (inHalf p (lower != moved r c) r) c

section Exchanges

variable {p i j : Nat} {moved : Nat → Nat → Bool} {cells : Array Nat}

theorem moved_quarters (p : Nat) : Moved p (fun _ _ => false) (quarters p) := by
  refine ⟨size_quarters p, fun r hr c hc lower => ?_⟩
  obtain ⟨right, j, hj, rfl⟩ := exists_inHalf hc
  rw [Bool.bne_false]
  exact (hasQuartered_quarters hr hj lower right).entry

theorem Moved.congr {moved' : Nat → Nat → Bool} (h : Moved p moved cells)
    (heq : ∀ r < p, ∀ c < 2 * p, moved r c = moved' r c) : Moved p moved' cells := by
  refine ⟨h.size, fun r hr c hc lower => ?_⟩
  rw [← heq r hr c hc]
  exact h.entry r hr c hc lower

theorem getD_exchange (hsize : cells.size = 2 * p * (2 * p)) (hi : i < p) (hj : j < 2 * p)
    {r c : Nat} (hr : r < p) (hc : c < 2 * p) (lower : Bool) :
    (exchange p cells i j).getD (inHalf p lower r * (2 * p) + c) 0
      = cells.getD (inHalf p (decide (r = i ∧ c = j) != lower) r * (2 * p) + c) 0 := by
  have hupper : i * (2 * p) + j < cells.size := hsize ▸ Matrix.place_lt (by omega) hj
  have hlower : (i + p) * (2 * p) + j < cells.size := hsize ▸ Matrix.place_lt (by omega) hj
  rw [exchange, Array.swapIfInBounds_def, dif_pos hupper, dif_pos hlower,
    Array.getD_eq_getD_getElem?, Array.getD_eq_getD_getElem?, Array.getElem?_swap]
  have hplace (l : Bool) (h : inHalf p l i * (2 * p) + j = inHalf p lower r * (2 * p) + c) :
      (l = lower ∧ i = r) ∧ j = c := by
    obtain ⟨hrow, hcol⟩ := Matrix.eq_of_place_eq hj hc h
    exact ⟨inHalf_inj hi hr hrow, hcol⟩
  by_cases hsame : r = i ∧ c = j
  · obtain ⟨rfl, rfl⟩ := hsame
    rw [decide_eq_true ⟨rfl, rfl⟩, Bool.true_bne]
    cases lower with
    | false =>
        have hother : (r + p) * (2 * p) + c ≠ r * (2 * p) + c := fun h =>
          Bool.false_ne_true (hplace true h).1.1.symm
        exact congrArg (Option.getD · 0)
          (((if_neg hother).trans (if_pos rfl)).trans (Array.getElem?_eq_getElem hlower).symm)
    | true =>
        exact congrArg (Option.getD · 0) ((if_pos rfl).trans (Array.getElem?_eq_getElem hupper).symm)
  · have hother (l : Bool) : inHalf p l i * (2 * p) + j ≠ inHalf p lower r * (2 * p) + c := by
      intro h
      obtain ⟨⟨-, hrow⟩, hcol⟩ := hplace l h
      exact hsame ⟨hrow.symm, hcol.symm⟩
    rw [decide_eq_false hsame, Bool.false_bne]
    exact congrArg (Option.getD · 0) ((if_neg (hother true)).trans (if_neg (hother false)))

theorem Moved.exchange (h : Moved p moved cells) (hi : i < p) (hj : j < 2 * p) :
    Moved p (fun r c => moved r c != decide (r = i ∧ c = j)) (exchange p cells i j) := by
  refine ⟨Array.size_swapIfInBounds.trans h.size, fun r hr c hc lower => ?_⟩
  have hhalf (here : Bool) :
      ((here != lower) != moved r c) = (lower != (moved r c != here)) := by
    cases here <;> cases lower <;> cases moved r c <;> rfl
  rw [getD_exchange h.size hi hj hr hc, h.entry r hr c hc, hhalf]

theorem Moved.exchangeColumn (h : Moved p moved cells) (hj : j < 2 * p) :
    Moved p (fun r c => moved r c != decide (c = j)) (exchangeColumn p cells j) := by
  have hrows : ∀ m ≤ p, Moved p (fun r c => moved r c != decide (r < m ∧ c = j))
      (m.fold (fun r _ cells => Magic.exchange p cells r j) cells) := by
    intro m hm
    induction m with
    | zero => exact h.congr fun r _ c _ => by simp
    | succ m ih =>
        rw [Nat.fold_succ]
        refine ((ih (by omega)).exchange hm hj).congr fun r _ c _ => ?_
        have hrow : (decide (r < m ∧ c = j) != decide (r = m ∧ c = j))
            = decide (r < m + 1 ∧ c = j) := by
          rw [Bool.eq_iff_iff, bne_iff_ne, Ne, decide_eq_decide, decide_eq_true_iff]
          omega
        rw [Bool.bne_assoc, hrow]
  exact (hrows p (Nat.le_refl p)).congr fun r hr c _ => by simp only [hr, true_and]

theorem Moved.exchangeColumns {columns : List Nat} (h : Moved p moved cells)
    (hcolumns : ∀ c ∈ columns, c < 2 * p) (hnodup : columns.Nodup) :
    Moved p (fun r c => moved r c != decide (c ∈ columns))
      (columns.foldl (Magic.exchangeColumn p) cells) := by
  induction columns generalizing moved cells with
  | nil => exact h.congr fun r _ c _ => by simp
  | cons j columns ih =>
      obtain ⟨hj, hcolumns⟩ := List.forall_mem_cons.mp hcolumns
      obtain ⟨hfresh, hnodup⟩ := List.nodup_cons.mp hnodup
      refine (ih (h.exchangeColumn hj) hcolumns hnodup).congr fun r _ c _ => ?_
      have hcolumn : (decide (c = j) != decide (c ∈ columns)) = decide (c ∈ j :: columns) := by
        by_cases hc : c = j
        · rw [hc, decide_eq_true rfl, decide_eq_false hfresh,
            decide_eq_true (List.mem_cons_self (a := j)), Bool.bne_false]
        · rw [decide_eq_false hc, Bool.false_bne, decide_eq_decide, List.mem_cons,
            or_iff_right hc]
      rw [Bool.bne_assoc, hcolumn]

theorem mem_exchangedColumns {n k c : Nat} (hc : c < n) (hk : k ≤ n) :
    c ∈ exchangedColumns n k ↔ c < k ∨ n - k + 1 ≤ c := by
  rw [exchangedColumns, List.mem_append, List.mem_range, List.mem_range'_1]
  omega

theorem nodup_exchangedColumns {n k : Nat} (hk : 2 * k ≤ n) : (exchangedColumns n k).Nodup := by
  refine List.nodup_append.mpr ⟨List.nodup_range, List.nodup_range', ?_⟩
  intro c hlow d hhigh
  rw [List.mem_range] at hlow
  rw [List.mem_range'_1] at hhigh
  omega

/-- What the loops leave behind from order six on. -/
theorem moved_singlyEvenSquare {n : Nat} (hn : n % 4 = 2) (htwo : n ≠ 2) :
    Moved (n / 2) (exchanged n) (singlyEvenSquare n) := by
  obtain ⟨k, hk, hquarter⟩ : ∃ k, (n - 2) / 4 = k ∧ n = 2 * (2 * k + 1) := ⟨_, rfl, by omega⟩
  have hhalf : n / 2 = 2 * k + 1 := by omega
  have hwithin : ∀ c ∈ exchangedColumns n k, c < 2 * (n / 2) := by
    intro c hc
    rw [exchangedColumns, List.mem_append, List.mem_range, List.mem_range'_1] at hc
    omega
  have hcolumns := (moved_quarters (n / 2)).exchangeColumns hwithin
    (nodup_exchangedColumns (by omega))
  have hfirst := hcolumns.exchange (i := k) (j := 0) (by omega) (by omega)
  have hsecond := hfirst.exchange (i := k) (j := k) (by omega) (by omega)
  rw [singlyEvenSquare, hk]
  refine hsecond.congr fun r hr c hc => ?_
  have hcolumn : decide (c ∈ exchangedColumns n k) = (decide (c < k) || decide (n - k + 1 ≤ c)) := by
    rw [Bool.eq_iff_iff, decide_eq_true_iff, Bool.or_eq_true, decide_eq_true_iff,
      decide_eq_true_iff]
    exact mem_exchangedColumns (by omega) (by omega)
  -- The two columns of row `k` are different ones, so neither exchange undoes the other.
  have hmiddle : (decide (r = k ∧ c = 0) != decide (r = k ∧ c = k))
      = (decide (r = k) && (decide (c = 0) || decide (c = k))) := by
    rw [Bool.eq_iff_iff, bne_iff_ne, Ne, decide_eq_decide, Bool.and_eq_true, Bool.or_eq_true,
      decide_eq_true_iff, decide_eq_true_iff, decide_eq_true_iff]
    omega
  rw [Bool.false_bne, Bool.bne_assoc, hcolumn, hmiddle, exchanged, hk]

end Exchanges

/-! ### All orders -/

theorem getD_singlyEvenSquare {n r c : Nat} (hn : n % 4 = 2) (htwo : n ≠ 2) (hr : r < n)
    (hc : c < n) : (singlyEvenSquare n).getD (r * n + c) 0 = singlyEven n r c := by
  have hmoved := moved_singlyEvenSquare hn htwo
  obtain ⟨p, rfl⟩ : ∃ p, n = 2 * p := ⟨n / 2, by omega⟩
  have hhalf : 2 * p / 2 = p := by omega
  rw [hhalf] at hmoved
  obtain ⟨lower, i, hi, rfl⟩ := exists_inHalf hr
  rw [hmoved.entry i hi c hc lower, singlyEven, hhalf, inHalf_mod hi, inHalf_opposite hi]
  cases exchanged (2 * p) i c with
  | false => rw [Bool.bne_false, if_neg Bool.false_ne_true]
  | true => rw [Bool.bne_true, if_pos rfl]

theorem getD_square {n r c : Nat} (htwo : n ≠ 2) (hr : r < n) (hc : c < n) :
    (square n).getD (r * n + c) 0 = entry n r c := by
  unfold square entry
  by_cases hodd : n % 2 = 1
  · rw [if_pos hodd, if_pos hodd, getD_tabulate (odd n) hr hc]
  · by_cases hfour : n % 4 = 0
    · rw [if_neg hodd, if_neg hodd, if_pos hfour, if_pos hfour, getD_tabulate (doublyEven n) hr hc]
    · rw [if_neg hodd, if_neg hodd, if_neg hfour, if_neg hfour,
        getD_singlyEvenSquare (by omega) htwo hr hc]

end Magic

end MatrixScript
