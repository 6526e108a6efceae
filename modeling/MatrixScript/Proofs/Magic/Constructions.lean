import Mathlib.Algebra.BigOperators.Intervals
import Mathlib.Algebra.BigOperators.Ring.Finset
import Mathlib.Algebra.Module.Defs
import Mathlib.Data.Nat.ModEq
import Mathlib.Data.Nat.Prime.Basic
import Mathlib.Tactic.LinearCombination
import Mathlib.Tactic.Ring
import MatrixScript.Library.Matrices
import MatrixScript.Proofs.Cells

/-!
# What makes a square magic

Sums along a line are compared after doubling, since `n * (n * n + 1)` is even only as a whole. Two
facts carry the constructions. The remainders of an arithmetic progression whose step is coprime to
the modulus are all remainders, so their sum is known; this gives the rows and the columns of odd
orders. And in a square in which opposite entries add up to `n * n + 1`, both diagonals have the sum
that they should have, whatever the construction.

The constructions for odd orders and for multiples of four are balanced, which settles the
diagonals. In an odd order the two digits of an entry in base `n` are remainders of sums of row and
column, so along a row or a column each digit takes every value, and together they determine the
cell. In a multiple of four the numbers stand in order, except that about half of them have changed
places with those opposite to them; any four neighbouring entries of a row or a column that start at
a multiple of four have the same sum.
-/

namespace MatrixScript

namespace Magic

open Finset

/-- The sum of every line of a magic square. -/
def lineSum (n : Nat) : Nat := n * (n * n + 1) / 2

/-- The entries at rows and columns below `n` are the numbers from one to `n * n`, each of them once,
and all lines have the same sum. -/
structure IsMagic (n : Nat) (f : Nat → Nat → Nat) : Prop where
  entries : Set.BijOn (fun p : Nat × Nat => f p.1 p.2) (range n ×ˢ range n) (Icc 1 (n * n))
  row : ∀ r < n, ∑ c ∈ range n, f r c = lineSum n
  column : ∀ c < n, ∑ r ∈ range n, f r c = lineSum n
  diagonal : ∑ k ∈ range n, f k k = lineSum n
  antidiagonal : ∑ k ∈ range n, f k (n - 1 - k) = lineSum n

theorem eq_lineSum {n s : Nat} (h : 2 * s = n * (n * n + 1)) : s = lineSum n := by
  unfold lineSum
  omega

/-- There are as many cells as numbers, so no number is missing once none occurs twice. -/
theorem bijOn_of_injOn {n : Nat} {f : Nat → Nat → Nat}
    (hmaps : ∀ r < n, ∀ c < n, 1 ≤ f r c ∧ f r c ≤ n * n)
    (hinj : ∀ r < n, ∀ c < n, ∀ r' < n, ∀ c' < n, f r c = f r' c' → r = r' ∧ c = c') :
    Set.BijOn (fun p : Nat × Nat => f p.1 p.2) (range n ×ˢ range n) (Icc 1 (n * n)) := by
  have hmapsTo : Set.MapsTo (fun p : Nat × Nat => f p.1 p.2) ↑(range n ×ˢ range n)
      ↑(Icc 1 (n * n)) := by
    rintro ⟨r, c⟩ hp
    obtain ⟨hr, hc⟩ := mem_product.mp hp
    exact mem_coe.mpr (mem_Icc.mpr (hmaps r (mem_range.mp hr) c (mem_range.mp hc)))
  have hinjOn : Set.InjOn (fun p : Nat × Nat => f p.1 p.2) ↑(range n ×ˢ range n) := by
    rintro ⟨r, c⟩ hp ⟨r', c'⟩ hp' heq
    obtain ⟨hr, hc⟩ := mem_product.mp hp
    obtain ⟨hr', hc'⟩ := mem_product.mp hp'
    obtain ⟨rfl, rfl⟩ := hinj r (mem_range.mp hr) c (mem_range.mp hc) r' (mem_range.mp hr') c'
      (mem_range.mp hc') heq
    rfl
  have hcard : #(Icc 1 (n * n)) ≤ #(range n ×ˢ range n) := by
    rw [Nat.card_Icc, card_product, card_range]
    omega
  have hsurjOn := surjOn_of_injOn_of_card_le _ hmapsTo hinjOn hcard
  rw [← coe_product]
  exact ⟨hmapsTo, hinjOn, hsurjOn⟩

/-! ### Opposite entries -/

/-- Entries that lie opposite to each other add up to the same number. -/
def Balanced (n : Nat) (f : Nat → Nat → Nat) : Prop :=
  ∀ r < n, ∀ c < n, f r c + f (n - 1 - r) (n - 1 - c) = n * n + 1

section Balanced

variable {n : Nat} {f : Nat → Nat → Nat}

/-- A line that is its own opposite. -/
theorem Balanced.sum_eq (h : Balanced n f) (row col : Nat → Nat)
    (hrow : ∀ k < n, row k < n) (hcol : ∀ k < n, col k < n)
    (hrows : ∀ k < n, row (n - 1 - k) = n - 1 - row k)
    (hcols : ∀ k < n, col (n - 1 - k) = n - 1 - col k) :
    ∑ k ∈ range n, f (row k) (col k) = lineSum n := by
  apply eq_lineSum
  calc 2 * ∑ k ∈ range n, f (row k) (col k)
      = ∑ k ∈ range n, f (row k) (col k)
          + ∑ k ∈ range n, f (row (n - 1 - k)) (col (n - 1 - k)) := by
        rw [sum_range_reflect fun k => f (row k) (col k), two_mul]
    _ = ∑ k ∈ range n, (f (row k) (col k) + f (row (n - 1 - k)) (col (n - 1 - k))) :=
        sum_add_distrib.symm
    _ = ∑ _k ∈ range n, (n * n + 1) := by
        refine sum_congr rfl fun k hk => ?_
        have hk := mem_range.mp hk
        rw [hrows k hk, hcols k hk]
        exact h (row k) (hrow k hk) (col k) (hcol k hk)
    _ = n * (n * n + 1) := by rw [sum_const, card_range, smul_eq_mul]

theorem Balanced.diagonal (h : Balanced n f) : ∑ k ∈ range n, f k k = lineSum n :=
  h.sum_eq (fun k => k) (fun k => k) (fun _ hk => hk) (fun _ hk => hk) (fun _ _ => rfl)
    fun _ _ => rfl

theorem Balanced.antidiagonal (h : Balanced n f) :
    ∑ k ∈ range n, f k (n - 1 - k) = lineSum n :=
  h.sum_eq (fun k => k) (fun k => n - 1 - k) (fun _ hk => hk) (fun k hk => by omega)
    (fun _ _ => rfl) fun _ _ => rfl

end Balanced

/-! ### Remainders -/

section Remainders

variable {n k t : Nat}

theorem eq_of_mod_eq (hk : n.Coprime k) {i j : Nat} (hi : i < n) (hj : j < n)
    (h : (k * i + t) % n = (k * j + t) % n) : i = j := by
  have hmod : k * i ≡ k * j [MOD n] := Nat.ModEq.add_right_cancel' t h
  exact Nat.ModEq.eq_of_lt_of_lt (Nat.ModEq.cancel_left_of_coprime hk hmod) hi hj

/-- A progression with a step that is coprime to the modulus has every remainder once. -/
theorem sum_mod_of_coprime (hk : n.Coprime k) (t : Nat) :
    ∑ i ∈ range n, (k * i + t) % n = ∑ i ∈ range n, i := by
  have hmapsTo : Set.MapsTo (fun i => (k * i + t) % n) ↑(range n) ↑(range n) := fun i hi =>
    mem_coe.mpr (mem_range.mpr (Nat.mod_lt _ (Nat.zero_lt_of_lt (mem_range.mp hi))))
  have hinjOn : Set.InjOn (fun i => (k * i + t) % n) ↑(range n) := fun i hi j hj heq =>
    eq_of_mod_eq hk (mem_range.mp hi) (mem_range.mp hj) heq
  exact sum_nbij (fun i => (k * i + t) % n) hmapsTo hinjOn
    (surjOn_of_injOn_of_card_le _ hmapsTo hinjOn le_rfl) fun _ _ => rfl

/-- A line on which both digits of the entries in base `n` take every value. -/
theorem sum_digits (high low : Nat → Nat) (hhigh : ∑ i ∈ range n, high i = ∑ i ∈ range n, i)
    (hlow : ∑ i ∈ range n, low i = ∑ i ∈ range n, i) :
    ∑ i ∈ range n, (n * high i + low i + 1) = lineSum n := by
  have hgauss : (∑ i ∈ range n, i) * 2 = n * (n - 1) := sum_range_id_mul_two n
  have hsum : ∑ i ∈ range n, (n * high i + low i + 1)
      = n * (∑ i ∈ range n, i) + (∑ i ∈ range n, i) + n := by
    rw [sum_add_distrib, sum_add_distrib, ← mul_sum, hhigh, hlow, sum_const, card_range,
      smul_eq_mul, mul_one]
  apply eq_lineSum
  cases n with
  | zero => rfl
  | succ m =>
      rw [hsum]
      rw [Nat.add_sub_cancel] at hgauss
      linear_combination (m + 2) * hgauss

end Remainders

variable {n r c r' c' : Nat}

/-! ### Odd orders -/

theorem odd_bounds (hr : r < n) : 1 ≤ odd n r c ∧ odd n r c ≤ n * n := by
  have hpos : 0 < n := Nat.zero_lt_of_lt hr
  have hhigh : (r + c + 1 + n / 2) % n + 1 ≤ n := Nat.mod_lt _ hpos
  have hlow : (r + 2 * c + 1) % n < n := Nat.mod_lt _ hpos
  have hmul := Nat.mul_le_mul_left n hhigh
  rw [Nat.mul_add] at hmul
  unfold odd
  omega

/-- The digits of an entry determine first the column and then the row. -/
theorem odd_inj (hr : r < n) (hc : c < n) (hr' : r' < n) (hc' : c' < n)
    (h : odd n r c = odd n r' c') : r = r' ∧ c = c' := by
  have hpos : 0 < n := Nat.zero_lt_of_lt hr
  have hentry : n * ((r + c + 1 + n / 2) % n) + (r + 2 * c + 1) % n
      = n * ((r' + c' + 1 + n / 2) % n) + (r' + 2 * c' + 1) % n := Nat.succ.inj h
  have hlow : (r + 2 * c + 1) % n = (r' + 2 * c' + 1) % n := by
    have hmod := congrArg (· % n) hentry
    simpa only [Nat.mul_add_mod, Nat.mod_mod] using hmod
  have hhigh : (r + c + 1 + n / 2) % n = (r' + c' + 1 + n / 2) % n := by
    rw [hlow] at hentry
    exact Nat.eq_of_mul_eq_mul_left hpos (Nat.add_right_cancel hentry)
  have hsum : r + c ≡ r' + c' [MOD n] :=
    Nat.ModEq.add_right_cancel' (1 + n / 2) (by simpa only [Nat.ModEq, ← Nat.add_assoc] using hhigh)
  have hsum₂ : r + c + c ≡ r' + c' + c' [MOD n] :=
    Nat.ModEq.add_right_cancel' 1 (by simpa only [Nat.ModEq, Nat.add_assoc, two_mul] using hlow)
  have hcol : c = c' := Nat.ModEq.eq_of_lt_of_lt (hsum.add_left_cancel hsum₂) hc hc'
  rw [hcol] at hsum
  exact ⟨Nat.ModEq.eq_of_lt_of_lt (Nat.ModEq.add_right_cancel' c' hsum) hr hr', hcol⟩

theorem odd_row (hodd : n % 2 = 1) (r : Nat) : ∑ c ∈ range n, odd n r c = lineSum n := by
  have htwo : n.Coprime 2 := (Nat.coprime_two_left.mpr (Nat.odd_iff.mpr hodd)).symm
  refine sum_digits (fun c => (r + c + 1 + n / 2) % n) (fun c => (r + 2 * c + 1) % n) ?_ ?_
  · rw [← sum_mod_of_coprime (Nat.coprime_one_right n) (r + 1 + n / 2)]
    exact sum_congr rfl fun c _ => congrArg (· % n) (by ring)
  · rw [← sum_mod_of_coprime htwo (r + 1)]
    exact sum_congr rfl fun c _ => congrArg (· % n) (by ring)

theorem odd_column (n c : Nat) : ∑ r ∈ range n, odd n r c = lineSum n := by
  refine sum_digits (fun r => (r + c + 1 + n / 2) % n) (fun r => (r + 2 * c + 1) % n) ?_ ?_
  · rw [← sum_mod_of_coprime (Nat.coprime_one_right n) (c + 1 + n / 2)]
    exact sum_congr rfl fun r _ => congrArg (· % n) (by ring)
  · rw [← sum_mod_of_coprime (Nat.coprime_one_right n) (2 * c + 1)]
    exact sum_congr rfl fun r _ => congrArg (· % n) (by ring)

/-- Remainders that lie opposite to each other. -/
theorem mod_add_mod_of_sum {x y k : Nat} (hpos : 0 < n) (h : x + y + 1 = k * n) :
    x % n + y % n + 1 = n := by
  have hx := Nat.mod_lt x hpos
  have hy := Nat.mod_lt y hpos
  have hdvd : n ∣ x % n + y % n + 1 := by
    rw [Nat.dvd_iff_mod_eq_zero]
    have hmod : (x % n + y % n + 1) % n = (x + y + 1) % n := by
      simp only [Nat.add_mod, Nat.mod_mod]
    rw [hmod, h, Nat.mul_mod_left]
  obtain ⟨q, hq⟩ := hdvd
  have hone : q = 1 := by
    rcases q with _ | _ | q
    · omega
    · rfl
    · have hbig : n * 2 ≤ n * (q + 1 + 1) := Nat.mul_le_mul_left n (by omega)
      omega
  rw [hq, hone, Nat.mul_one]

theorem odd_balanced (hodd : n % 2 = 1) : Balanced n (odd n) := by
  intro r hr c hc
  have hpos : 0 < n := Nat.zero_lt_of_lt hr
  have hhigh := mod_add_mod_of_sum (k := 3) (x := r + c + 1 + n / 2)
    (y := n - 1 - r + (n - 1 - c) + 1 + n / 2) hpos (by omega)
  have hlow := mod_add_mod_of_sum (k := 3) (x := r + 2 * c + 1)
    (y := n - 1 - r + 2 * (n - 1 - c) + 1) hpos (by omega)
  unfold odd
  generalize (r + c + 1 + n / 2) % n = x at hhigh ⊢
  generalize (n - 1 - r + (n - 1 - c) + 1 + n / 2) % n = y at hhigh ⊢
  have hmul : n * x + n * y + n = n * n := by
    calc n * x + n * y + n = n * (x + y + 1) := by ring
      _ = n * n := by rw [hhigh]
  omega

theorem isMagic_odd (hodd : n % 2 = 1) : IsMagic n (odd n) where
  entries := bijOn_of_injOn (fun _ hr _ _ => odd_bounds hr)
    fun _ hr _ hc _ hr' _ hc' => odd_inj hr hc hr' hc'
  row r _ := odd_row hodd r
  column c _ := odd_column n c
  diagonal := (odd_balanced hodd).diagonal
  antidiagonal := (odd_balanced hodd).antidiagonal

/-! ### Multiples of four -/

/-- Opposite cells have opposite places. -/
theorem place_opposite (hr : r < n) (hc : c < n) :
    (n - 1 - r) * n + (n - 1 - c) + (r * n + c) + 1 = n * n := by
  obtain ⟨s, hs⟩ : ∃ s, n = s + 1 + r := ⟨n - 1 - r, by omega⟩
  have hopposite : n - 1 - r = s := by omega
  have hmul : n * n = s * n + n + r * n := by
    rw [← Nat.succ_mul, ← Nat.add_mul, ← hs]
  rw [hopposite, hmul]
  omega

/-- Opposite cells are treated alike. -/
theorem half_opposite (hn : n % 4 = 0) (hr : r < n) :
    (n - 1 - r + 1) % 4 / 2 = (r + 1) % 4 / 2 := by
  omega

theorem doublyEven_bounds (hr : r < n) (hc : c < n) :
    1 ≤ doublyEven n r c ∧ doublyEven n r c ≤ n * n := by
  have hplace := Matrix.place_lt hr hc
  unfold doublyEven
  split <;> omega

/-- A number that has changed places and one that has not are in opposite cells if they are equal,
but these are treated alike. -/
theorem doublyEven_ne (hn : n % 4 = 0) (hr : r < n) (hc : c < n) (hr' : r' < n) (hc' : c' < n)
    (hmoved : (r + 1) % 4 / 2 = (c + 1) % 4 / 2) (hkept : (r' + 1) % 4 / 2 ≠ (c' + 1) % 4 / 2) :
    n * n - (r * n + c) ≠ r' * n + c' + 1 := by
  intro heq
  have hopposite := place_opposite hr hc
  have hplace : r' * n + c' = (n - 1 - r) * n + (n - 1 - c) := by omega
  obtain ⟨rfl, rfl⟩ := Matrix.eq_of_place_eq hc' (by omega) hplace
  apply hkept
  rw [half_opposite hn hr, half_opposite hn hc, hmoved]

theorem doublyEven_inj (hn : n % 4 = 0) (hr : r < n) (hc : c < n) (hr' : r' < n) (hc' : c' < n)
    (h : doublyEven n r c = doublyEven n r' c') : r = r' ∧ c = c' := by
  have hplace := Matrix.place_lt hr hc
  have hplace' := Matrix.place_lt hr' hc'
  unfold doublyEven at h
  split at h <;> split at h
  · exact Matrix.eq_of_place_eq hc hc' (by omega)
  · rename_i hmoved hkept
    exact absurd h (doublyEven_ne hn hr hc hr' hc' hmoved hkept)
  · rename_i hkept hmoved
    exact absurd h.symm (doublyEven_ne hn hr' hc' hr hc hmoved hkept)
  · exact Matrix.eq_of_place_eq hc hc' (Nat.succ.inj h)

theorem doublyEven_balanced (hn : n % 4 = 0) : Balanced n (doublyEven n) := by
  intro r hr c hc
  have hplace := Matrix.place_lt hr hc
  have hopposite := place_opposite hr hc
  unfold doublyEven
  rw [half_opposite hn hr, half_opposite hn hc]
  split <;> omega

theorem sum_range_four (k : Nat) (f : Nat → Nat) :
    ∑ i ∈ range (4 * k), f i
      = ∑ j ∈ range k, (f (4 * j) + f (4 * j + 1) + f (4 * j + 2) + f (4 * j + 3)) := by
  induction k with
  | zero => rfl
  | succ k ih =>
      rw [Nat.mul_succ, sum_range_succ, sum_range_succ, sum_range_succ, sum_range_succ, ih,
        sum_range_succ]
      ring

/-- Lines that fall into blocks of four with the same sum. -/
theorem sum_blocks (hn : n % 4 = 0) {f : Nat → Nat}
    (hblock : ∀ j, 4 * j + 3 < n →
      f (4 * j) + f (4 * j + 1) + f (4 * j + 2) + f (4 * j + 3) = 2 * (n * n + 1)) :
    ∑ i ∈ range n, f i = lineSum n := by
  obtain ⟨k, rfl⟩ : ∃ k, n = 4 * k := ⟨n / 4, by omega⟩
  apply eq_lineSum
  have hsum : ∑ i ∈ range (4 * k), f i = ∑ _j ∈ range k, 2 * (4 * k * (4 * k) + 1) := by
    rw [sum_range_four]
    refine sum_congr rfl fun j hj => hblock j ?_
    have hj := mem_range.mp hj
    omega
  rw [hsum, sum_const, card_range, smul_eq_mul]
  ring

theorem doublyEven_row (hn : n % 4 = 0) (hr : r < n) :
    ∑ c ∈ range n, doublyEven n r c = lineSum n := by
  refine sum_blocks hn fun j hj => ?_
  have hlast := Matrix.place_lt hr hj
  -- Of four neighbours, the two in the middle belong to the other half than those at the ends.
  have hfirst : (4 * j + 1) % 4 / 2 = 0 := by omega
  have hsecond : (4 * j + 1 + 1) % 4 / 2 = 1 := by omega
  have hthird : (4 * j + 2 + 1) % 4 / 2 = 1 := by omega
  have hfourth : (4 * j + 3 + 1) % 4 / 2 = 0 := by omega
  unfold doublyEven
  rw [hfirst, hsecond, hthird, hfourth]
  have hhalf : (r + 1) % 4 / 2 = 0 ∨ (r + 1) % 4 / 2 = 1 := by omega
  rcases hhalf with hhalf | hhalf <;> rw [hhalf] <;> simp only [if_true, if_neg, zero_ne_one,
    one_ne_zero, not_false_eq_true] <;> omega

theorem doublyEven_column (hn : n % 4 = 0) (hc : c < n) :
    ∑ r ∈ range n, doublyEven n r c = lineSum n := by
  refine sum_blocks hn fun j hj => ?_
  have hlast := Matrix.place_lt hj hc
  have hfirst : (4 * j + 1) % 4 / 2 = 0 := by omega
  have hsecond : (4 * j + 1 + 1) % 4 / 2 = 1 := by omega
  have hthird : (4 * j + 2 + 1) % 4 / 2 = 1 := by omega
  have hfourth : (4 * j + 3 + 1) % 4 / 2 = 0 := by omega
  simp only [Nat.add_mul] at hlast
  unfold doublyEven
  rw [hfirst, hsecond, hthird, hfourth]
  simp only [Nat.add_mul]
  have hhalf : (c + 1) % 4 / 2 = 0 ∨ (c + 1) % 4 / 2 = 1 := by omega
  rcases hhalf with hhalf | hhalf <;> rw [hhalf] <;> simp only [if_true, if_neg, zero_ne_one,
    one_ne_zero, not_false_eq_true] <;> omega

theorem isMagic_doublyEven (hn : n % 4 = 0) : IsMagic n (doublyEven n) where
  entries := bijOn_of_injOn (fun _ hr _ hc => doublyEven_bounds hr hc)
    fun _ hr _ hc _ hr' _ hc' => doublyEven_inj hn hr hc hr' hc'
  row _ hr := doublyEven_row hn hr
  column _ hc := doublyEven_column hn hc
  diagonal := (doublyEven_balanced hn).diagonal
  antidiagonal := (doublyEven_balanced hn).antidiagonal

end Magic

end MatrixScript
