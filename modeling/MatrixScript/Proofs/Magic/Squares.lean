import MatrixScript.Library.Standard
import MatrixScript.Proofs.Magic.Constructions
import MatrixScript.Proofs.Magic.Entries
import MatrixScript.Proofs.Values.Matrices
import MatrixScript.Proofs.Values.WholeNumbers

/-!
# Magic squares of every order

There is a magic square of every order but two. The library makes it as a matrix of doubles, and the
numbers in it are small enough that none of them is rounded.

Left are the even orders that are not multiples of four. Such an order is twice an odd number `p`.
Each quarter of the square holds the odd square of order `p`, shifted by a multiple of `p * p` that
depends on the quarter, and some cells of the upper half have changed places with the cells `p` rows
further down. So an entry is one of the odd square, shifted by a multiple that follows from which
cells have changed places, and the sum of a line is known once it is counted how many of its cells
have. In every line these cells stand next to each other.
-/

namespace MatrixScript

namespace Magic

open Finset

/-! ### Entries -/

theorem quarter_le (lower right : Bool) : quarter lower right ≤ 3 := by
  cases lower <;> cases right <;> decide

theorem quarter_inj {lower right lower' right' : Bool}
    (h : quarter lower right = quarter lower' right') : lower = lower' ∧ right = right' := by
  revert lower right lower' right'
  decide

theorem quarter_add_quarter (lower right : Bool) :
    quarter lower right + quarter (!lower) right = 3 := by
  cases lower <;> cases right <;> rfl

section Entries

variable {p r c : Nat}

/-- The entry is the one of the odd square, with the shift of the quarter that it came from. -/
theorem singlyEven_inHalf (hr : r < p) (hc : c < p) (lower right : Bool) :
    singlyEven (2 * p) (inHalf p lower r) (inHalf p right c)
      = odd p r c
        + quarter (lower != exchanged (2 * p) r (inHalf p right c)) right * (p * p) := by
  have hhalf : 2 * p / 2 = p := by omega
  unfold singlyEven
  dsimp only
  rw [hhalf, inHalf_mod hr, inHalf_opposite hr, quartered_inHalf hr hc, quartered_inHalf hr hc]
  cases exchanged (2 * p) r (inHalf p right c) with
  | false => rw [if_neg Bool.false_ne_true, Bool.bne_false]
  | true => rw [if_pos rfl, Bool.bne_true]

theorem singlyEven_bounds (hr : r < 2 * p) (hc : c < 2 * p) :
    1 ≤ singlyEven (2 * p) r c ∧ singlyEven (2 * p) r c ≤ 2 * p * (2 * p) := by
  obtain ⟨lower, i, hi, rfl⟩ := exists_inHalf hr
  obtain ⟨right, j, hj, rfl⟩ := exists_inHalf hc
  have hodd := odd_bounds (c := j) hi
  have hshift := Nat.mul_le_mul_right (p * p)
    (quarter_le (lower != exchanged (2 * p) i (inHalf p right j)) right)
  have hsize : 2 * p * (2 * p) = p * p + 3 * (p * p) := by ring
  rw [singlyEven_inHalf hi hj, hsize]
  omega

/-- The entry gives away the quarter that it came from and its place there, and so the column, which
tells whether the cell has changed places. -/
theorem singlyEven_inj {r' c' : Nat} (hr : r < 2 * p) (hc : c < 2 * p) (hr' : r' < 2 * p)
    (hc' : c' < 2 * p) (h : singlyEven (2 * p) r c = singlyEven (2 * p) r' c') :
    r = r' ∧ c = c' := by
  obtain ⟨lower, i, hi, rfl⟩ := exists_inHalf hr
  obtain ⟨right, j, hj, rfl⟩ := exists_inHalf hc
  obtain ⟨lower', i', hi', rfl⟩ := exists_inHalf hr'
  obtain ⟨right', j', hj', rfl⟩ := exists_inHalf hc'
  rw [singlyEven_inHalf hi hj, singlyEven_inHalf hi' hj'] at h
  have hodd := odd_bounds (c := j) hi
  have hodd' := odd_bounds (c := j') hi'
  have hplaces : quarter (lower != exchanged (2 * p) i (inHalf p right j)) right * (p * p)
        + (odd p i j - 1)
      = quarter (lower' != exchanged (2 * p) i' (inHalf p right' j')) right' * (p * p)
        + (odd p i' j' - 1) := by omega
  obtain ⟨hquarter, hplace⟩ := Matrix.eq_of_place_eq (by omega) (by omega) hplaces
  obtain ⟨rfl, rfl⟩ := odd_inj hi hj hi' hj' (by omega)
  obtain ⟨hlower, rfl⟩ := quarter_inj hquarter
  rw [Bool.bne_left_inj.mp hlower]
  exact ⟨rfl, rfl⟩

end Entries

/-! ### Sums -/

section Sums

variable {p : Nat}

theorem sum_halves (p : Nat) (f : Nat → Nat) :
    ∑ i ∈ range (2 * p), f i
      = ∑ i ∈ range p, f (inHalf p false i) + ∑ i ∈ range p, f (inHalf p true i) := by
  have hsecond : ∀ i ∈ range p, f (p + i) = f (inHalf p true i) := fun i _ => by
    rw [Nat.add_comm]
    rfl
  rw [two_mul, sum_range_add, sum_congr rfl hsecond]
  rfl

theorem two_mul_lineSum (n : Nat) : 2 * lineSum n = n * (n * n + 1) := by
  have heven : Even (n * (n * n + 1)) := by
    rw [Nat.even_mul, Nat.even_add_one, Nat.even_mul]
    tauto
  exact Nat.two_mul_div_two_of_even heven

/-- Two lines of odd squares, and as many shifts as three for each cell of one of them. -/
theorem eq_lineSum_of_shifts {s : Nat} (h : s = 2 * lineSum p + 3 * p * (p * p)) :
    s = lineSum (2 * p) := by
  have hodd := two_mul_lineSum p
  apply eq_lineSum
  rw [h]
  linear_combination 2 * hodd

/-- In a column, each cell has the shift that the other one of its pair has not. -/
theorem singlyEven_column {c : Nat} (hc : c < 2 * p) :
    ∑ r ∈ range (2 * p), singlyEven (2 * p) r c = lineSum (2 * p) := by
  obtain ⟨right, j, hj, rfl⟩ := exists_inHalf hc
  apply eq_lineSum_of_shifts
  have hpair : ∀ i ∈ range p,
      singlyEven (2 * p) (inHalf p false i) (inHalf p right j)
        + singlyEven (2 * p) (inHalf p true i) (inHalf p right j)
        = 2 * odd p i j + 3 * (p * p) := by
    intro i hi
    have hi := mem_range.mp hi
    have hshifts := quarter_add_quarter (exchanged (2 * p) i (inHalf p right j)) right
    rw [singlyEven_inHalf hi hj, singlyEven_inHalf hi hj, Bool.false_bne, Bool.true_bne,
      ← hshifts]
    ring
  rw [sum_halves, ← sum_add_distrib, sum_congr rfl hpair, sum_add_distrib, ← mul_sum,
    odd_column p j, sum_const, card_range, smul_eq_mul]
  ring

theorem sum_interval {lo moved kept : Nat} (hp : p = moved + kept) (hle : lo + moved ≤ p)
    (P : Nat → Prop) [DecidablePred P] (hP : ∀ i < p, P i ↔ lo ≤ i ∧ i < lo + moved) (x y : Nat) :
    ∑ i ∈ range p, (if P i then x else y) = moved * x + kept * y := by
  have hfilter : (range p).filter P = Ico lo (lo + moved) := by
    ext i
    rw [mem_filter, mem_range, mem_Ico]
    constructor
    · exact fun h => (hP i h.1).mp h.2
    · exact fun h => ⟨Nat.lt_of_lt_of_le h.2 hle, (hP i (Nat.lt_of_lt_of_le h.2 hle)).mpr h⟩
  have hcard : #((range p).filter fun i => ¬P i) = kept := by
    have hsum := card_filter_add_card_filter_not (s := range p) P
    rw [hfilter, Nat.card_Ico, card_range] at hsum
    omega
  rw [sum_ite, sum_const, sum_const, hfilter, hcard, Nat.card_Ico, Nat.add_sub_cancel_left,
    smul_eq_mul, smul_eq_mul]

/-- The part of a line in one quarter, if the cells of it that have changed places stand next to
each other. -/
theorem sum_singlyEven (lower right : Bool) (row col : Nat → Nat) (lo moved kept : Nat)
    (hrow : ∀ i < p, row i < p) (hcol : ∀ i < p, col i < p)
    (hodd : ∑ i ∈ range p, odd p (row i) (col i) = lineSum p)
    (hp : p = moved + kept) (hle : lo + moved ≤ p)
    (hmoved : ∀ i < p, exchanged (2 * p) (row i) (inHalf p right (col i)) = true
      ↔ lo ≤ i ∧ i < lo + moved) :
    ∑ i ∈ range p, singlyEven (2 * p) (inHalf p lower (row i)) (inHalf p right (col i))
      = lineSum p + (moved * quarter (!lower) right + kept * quarter lower right) * (p * p) := by
  have hentry : ∀ i ∈ range p,
      singlyEven (2 * p) (inHalf p lower (row i)) (inHalf p right (col i))
        = odd p (row i) (col i)
          + (if exchanged (2 * p) (row i) (inHalf p right (col i)) = true
              then quarter (!lower) right else quarter lower right) * (p * p) := by
    intro i hi
    have hi := mem_range.mp hi
    rw [singlyEven_inHalf (hrow i hi) (hcol i hi)]
    cases exchanged (2 * p) (row i) (inHalf p right (col i)) with
    | false => rw [if_neg Bool.false_ne_true, Bool.bne_false]
    | true => rw [if_pos rfl, Bool.bne_true]
  rw [sum_congr rfl hentry, sum_add_distrib, ← sum_mul, hodd, sum_interval hp hle _ hmoved]

end Sums

/-! ### Which cells have changed places

From here on the odd square has order `2 * m + 3`. In a half row of the left, `m + 1` cells have
changed places, and in one of the right `m` of them. -/

section Exchanged

variable (m : Nat) {r c : Nat}

theorem exchanged_eq_true_iff : exchanged (2 * (2 * m + 3)) r c = true
    ↔ ¬((c < m + 1 ∨ 3 * m + 6 ≤ c) ↔ (r = m + 1 ∧ (c = 0 ∨ c = m + 1))) := by
  have hquarter : (2 * (2 * m + 3) - 2) / 4 = m + 1 := by omega
  have hbound : 2 * (2 * m + 3) - (m + 1) + 1 = 3 * m + 6 := by omega
  unfold exchanged
  dsimp only
  rw [hquarter, hbound, bne_iff_ne, Ne, Bool.eq_iff_iff]
  simp only [Bool.or_eq_true, Bool.and_eq_true, decide_eq_true_eq]

/-- In the row with number `m + 1` the cells on the left are one further on than in the others. -/
theorem exchanged_left (hc : c < 2 * m + 3) :
    exchanged (2 * (2 * m + 3)) r (inHalf (2 * m + 3) false c) = true
      ↔ (if r = m + 1 then 1 else 0) ≤ c ∧ c < (if r = m + 1 then 1 else 0) + (m + 1) := by
  rw [exchanged_eq_true_iff]
  unfold inHalf
  simp only [Bool.false_eq_true, if_false]
  split <;> omega

theorem exchanged_right (hc : c < 2 * m + 3) :
    exchanged (2 * (2 * m + 3)) r (inHalf (2 * m + 3) true c) = true
      ↔ m + 3 ≤ c ∧ c < m + 3 + m := by
  rw [exchanged_eq_true_iff]
  unfold inHalf
  simp only [if_true]
  omega

theorem singlyEven_row (hr : r < 2 * (2 * m + 3)) :
    ∑ c ∈ range (2 * (2 * m + 3)), singlyEven (2 * (2 * m + 3)) r c
      = lineSum (2 * (2 * m + 3)) := by
  obtain ⟨lower, i, hi, rfl⟩ := exists_inHalf hr
  have hodd := odd_row (n := 2 * m + 3) (by omega) i
  have hleft := sum_singlyEven lower false (fun _ => i) (fun c => c) (if i = m + 1 then 1 else 0)
    (m + 1) (m + 2) (fun _ _ => hi) (fun _ hc => hc) hodd (by omega) (by split <;> omega)
    fun _ hc => exchanged_left m hc
  have hright := sum_singlyEven lower true (fun _ => i) (fun c => c) (m + 3) m (m + 3)
    (fun _ _ => hi) (fun _ hc => hc) hodd (by omega) (by omega) fun _ hc => exchanged_right m hc
  apply eq_lineSum_of_shifts
  rw [sum_halves, hleft, hright]
  cases lower <;> simp only [quarter, Bool.not_false, Bool.not_true] <;> ring

theorem singlyEven_diagonal :
    ∑ i ∈ range (2 * (2 * m + 3)), singlyEven (2 * (2 * m + 3)) i i
      = lineSum (2 * (2 * m + 3)) := by
  have hodd := (odd_balanced (n := 2 * m + 3) (by omega)).diagonal
  have hmoved : ∀ i < 2 * m + 3,
      exchanged (2 * (2 * m + 3)) i (inHalf (2 * m + 3) false i) = true
        ↔ 0 ≤ i ∧ i < 0 + (m + 2) := by
    intro i hi
    rw [exchanged_left m hi]
    split <;> omega
  have hupper := sum_singlyEven false false (fun i => i) (fun i => i) 0 (m + 2) (m + 1)
    (fun _ hi => hi) (fun _ hi => hi) hodd (by omega) (by omega) hmoved
  have hlower := sum_singlyEven true true (fun i => i) (fun i => i) (m + 3) m (m + 3)
    (fun _ hi => hi) (fun _ hi => hi) hodd (by omega) (by omega) fun _ hi => exchanged_right m hi
  apply eq_lineSum_of_shifts
  rw [sum_halves, hupper, hlower]
  simp only [quarter, Bool.not_false, Bool.not_true]
  ring

theorem singlyEven_antidiagonal :
    ∑ i ∈ range (2 * (2 * m + 3)), singlyEven (2 * (2 * m + 3)) i (2 * (2 * m + 3) - 1 - i)
      = lineSum (2 * (2 * m + 3)) := by
  have hodd := (odd_balanced (n := 2 * m + 3) (by omega)).antidiagonal
  have hcol : ∀ i < 2 * m + 3, 2 * m + 3 - 1 - i < 2 * m + 3 := fun i _ => by omega
  have hright : ∀ i < 2 * m + 3,
      exchanged (2 * (2 * m + 3)) i (inHalf (2 * m + 3) true (2 * m + 3 - 1 - i)) = true
        ↔ 0 ≤ i ∧ i < 0 + m := by
    intro i hi
    rw [exchanged_right m (hcol i hi)]
    omega
  have hleft : ∀ i < 2 * m + 3,
      exchanged (2 * (2 * m + 3)) i (inHalf (2 * m + 3) false (2 * m + 3 - 1 - i)) = true
        ↔ m + 1 ≤ i ∧ i < m + 1 + (m + 2) := by
    intro i hi
    rw [exchanged_left m (hcol i hi)]
    split <;> omega
  have hupper := sum_singlyEven false true (fun i => i) (fun i => 2 * m + 3 - 1 - i) 0 m (m + 3)
    (fun _ hi => hi) hcol hodd (by omega) (by omega) hright
  have hlower := sum_singlyEven true false (fun i => i) (fun i => 2 * m + 3 - 1 - i) (m + 1) (m + 2)
    (m + 1) (fun _ hi => hi) hcol hodd (by omega) (by omega) hleft
  have hopposite (lower : Bool) : ∀ i ∈ range (2 * m + 3),
      singlyEven (2 * (2 * m + 3)) (inHalf (2 * m + 3) lower i)
          (2 * (2 * m + 3) - 1 - inHalf (2 * m + 3) lower i)
        = singlyEven (2 * (2 * m + 3)) (inHalf (2 * m + 3) lower i)
          (inHalf (2 * m + 3) (!lower) (2 * m + 3 - 1 - i)) := by
    intro i hi
    rw [inHalf_reversed (mem_range.mp hi)]
  apply eq_lineSum_of_shifts
  rw [sum_halves, sum_congr rfl (hopposite false), sum_congr rfl (hopposite true), Bool.not_false,
    Bool.not_true, hupper, hlower]
  simp only [quarter, Bool.not_false, Bool.not_true]
  ring

end Exchanged

/-- The construction works from order six on. -/
theorem isMagic_singlyEven {n : Nat} (hn : n % 4 = 2) (htwo : n ≠ 2) :
    IsMagic n (singlyEven n) := by
  obtain ⟨m, rfl⟩ : ∃ m, n = 2 * (2 * m + 3) := ⟨(n - 6) / 4, by omega⟩
  constructor
  · exact bijOn_of_injOn (fun _ hr _ hc => singlyEven_bounds hr hc)
      fun _ hr _ hc _ hr' _ hc' => singlyEven_inj hr hc hr' hc'
  · exact fun _ hr => singlyEven_row m hr
  · exact fun _ hc => singlyEven_column hc
  · exact singlyEven_diagonal m
  · exact singlyEven_antidiagonal m

end Magic

/-! ### Every order -/

theorem Magic.isMagic_entry {n : Nat} (htwo : n ≠ 2) : IsMagic n (entry n) := by
  unfold entry
  by_cases hodd : n % 2 = 1
  · simpa only [if_pos hodd] using isMagic_odd hodd
  · by_cases hfour : n % 4 = 0
    · simpa only [if_neg hodd, if_pos hfour] using isMagic_doublyEven hfour
    · simpa only [if_neg hodd, if_neg hfour] using isMagic_singlyEven (by omega) htwo

namespace Matrix

theorem magic_eq_ok {n : Nat} (htwo : n ≠ 2) (hsize : n * n ≤ elementLimit) :
    magic n = .ok (generate n n fun r c => Complex.ofNat (Magic.entry n r c)) := by
  have hentries := generate_congr fun r hr c hc =>
    congrArg Complex.ofNat (Magic.getD_square htwo (n := n) (r := r) (c := c) hr hc)
  rw [magic, if_neg htwo, ofCells, elementCount_eq_ok_iff.mpr ⟨rfl, hsize⟩, ← hentries]
  rfl

end Matrix

namespace Library

/-- The library reads the order as a count and makes the matrix, whatever the variables are. -/
theorem call_magic_eq {n : Nat} (h : n < 2 ^ 53) (e : Environment) :
    (standard.call "magic" [.ofNat n]).run.run e = (Value.ofMatrix <$> Matrix.magic n, e) := by
  have hget : Arguments.get? ⟨[.ofNat n], []⟩ 0 = some (.ofNat n) := rfl
  have hcount : Arguments.count ⟨[.ofNat n], []⟩ 0 = .ok n := by
    rw [Arguments.count, Arguments.read, hget, Option.bind_some, Value.count?_ofNat h]
  have hcall : (standard.call "magic" [.ofNat n]).run.run e
      = (do Value.ofMatrix <$> Matrix.magic (← Arguments.count ⟨[.ofNat n], []⟩ 0), e) := rfl
  rw [hcall, hcount]
  rfl

/-- The matrix that `magic` gives is a magic square, and its entries are exact. -/
theorem call_magic {n : Nat} (htwo : n ≠ 2) (hsize : n * n ≤ elementLimit) :
    ∃ m entry, Matrix.magic n = .ok m
      ∧ (∀ e, (standard.call "magic" [.ofNat n]).run.run e = (.ok (.ofMatrix m), e))
      ∧ m.rows = n ∧ m.cols = n ∧ m.WellFormed
      ∧ (∀ r < n, ∀ c < n, m.cell? r c = some (.ofNat (entry r c))
          ∧ (Double.ofNat (entry r c)).toRat = entry r c)
      ∧ Magic.IsMagic n entry := by
  have hmagic := Magic.isMagic_entry htwo
  have hlimit : elementLimit = 2 ^ 27 := rfl
  have hn : n ≤ n * n := Nat.le_mul_self n
  refine ⟨_, Magic.entry n, Matrix.magic_eq_ok htwo hsize, fun e => ?_, rfl, rfl,
    Matrix.wellFormed_generate hsize _, fun r hr c hc => ⟨?_, ?_⟩, hmagic⟩
  · rw [call_magic_eq (by omega), Matrix.magic_eq_ok htwo hsize]
    rfl
  · exact Matrix.cell?_generate _ hr hc
  · have hcell : (r, c) ∈ (↑(Finset.range n) ×ˢ ↑(Finset.range n) : Set (Nat × Nat)) :=
      ⟨Finset.mem_coe.mpr (Finset.mem_range.mpr hr), Finset.mem_coe.mpr (Finset.mem_range.mpr hc)⟩
    have hentry : Magic.entry n r c ∈ Finset.Icc 1 (n * n) :=
      Finset.mem_coe.mp (hmagic.entries.mapsTo hcell)
    have hle := (Finset.mem_Icc.mp hentry).2
    exact Double.toRat_ofNat (by omega)

/-- The smallest order that is put together from four odd squares. -/
theorem call_magic_six : (6 ≠ 2 ∧ 6 * 6 ≤ elementLimit) ∧ Magic.lineSum 6 = 111
    ∧ ∃ m entry, Matrix.magic 6 = .ok m
      ∧ (∀ e, (standard.call "magic" [.ofNat 6]).run.run e = (.ok (.ofMatrix m), e))
      ∧ m.rows = 6 ∧ m.cols = 6 ∧ m.WellFormed
      ∧ (∀ r < 6, ∀ c < 6, m.cell? r c = some (.ofNat (entry r c))
          ∧ (Double.ofNat (entry r c)).toRat = entry r c)
      ∧ Magic.IsMagic 6 entry :=
  ⟨⟨by decide, by decide⟩, rfl, call_magic (by decide) (by decide)⟩

end Library

end MatrixScript
