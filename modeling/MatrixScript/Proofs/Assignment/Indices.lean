import MatrixScript.Proofs.Values.Indexing
import MatrixScript.Proofs.Values.WholeNumbers

/-!
# The positions that indices stand for

Indices are doubles that count from one, positions are natural numbers that count from zero. A
number stands for at most one position, and every position for which a matrix may have room is that
of a number.
-/

namespace MatrixScript

theorem mapM_eq_ok_iff {ε α β : Type} {f : α → Except ε β} {xs : List α} {ys : List β} :
    xs.mapM f = .ok ys ↔ List.Forall₂ (fun x y => f x = .ok y) xs ys := by
  induction xs generalizing ys with
  | nil =>
      constructor
      · intro h
        cases h
        exact .nil
      · rintro ⟨⟩
        rfl
  | cons x xs ih =>
      rw [List.mapM_cons, bind_ok_iff]
      constructor
      · rintro ⟨y, hy, h⟩
        obtain ⟨rest, hrest, h⟩ := bind_ok_iff.mp h
        cases h
        exact .cons hy (ih.mp hrest)
      · rintro (_ | ⟨hy, hrest⟩)
        exact ⟨_, hy, bind_ok_iff.mpr ⟨_, ih.mpr hrest, rfl⟩⟩

/-- The number is one more than the position. -/
structure Complex.StandsFor (z : Complex) (p : Nat) : Prop where
  real : z.isReal = true
  number : z.re = Double.ofNat (p + 1)
  within : p < elementLimit

namespace IndexArg

/-- The positions that an index lists, where `extent` is where open ranges end. -/
inductive Lists (extent : Nat) : IndexArg → List Nat → Prop where
  | all : Lists extent .all (List.range extent)
  | scalar {z : Complex} {p : Nat} (h : z.StandsFor p) : Lists extent (.value (.scalar z)) [p]
  | matrix {m : Matrix} {picked : List Nat}
      (h : List.Forall₂ Complex.StandsFor m.data.toList picked) :
      Lists extent (.value (.matrix m)) picked
  | range {r bounded : Progression} {values : Array Double} {picked : List Nat}
      (hbounded : r.resolve (Double.ofNat extent) = .ok bounded)
      (hvalues : bounded.values? = some values)
      (h : List.Forall₂ (fun x p => (Complex.ofReal x).StandsFor p) values.toList picked) :
      Lists extent (.value (.range r)) picked

variable {z : Complex} {p extent : Nat} {arg : IndexArg}

/-- What the checks of an index let through. -/
theorem position_eq_ok (h : position z = .ok p) : z.isReal = true ∧ z.re.isWhole = true
    ∧ z.re.lt Double.one = false ∧ (Double.ofNat elementLimit).lt z.re = false
    ∧ z.re.toCount - 1 = p := by
  unfold position at h
  split at h
  · cases h
  · split at h
    · cases h
    · split at h
      · cases h
      · rename_i hinteger hlow hhigh
        rw [Bool.not_eq_true, Bool.not_eq_false'] at hinteger
        rw [Bool.not_eq_true] at hlow hhigh
        obtain ⟨hreal, hwhole⟩ := Bool.and_eq_true_iff.mp hinteger
        exact ⟨hreal, hwhole, hlow, hhigh, Except.ok.inj h⟩

theorem standsFor_of_position (h : position z = .ok p) : z.StandsFor p := by
  have hlimit : elementLimit = 2 ^ 27 := rfl
  obtain ⟨hreal, hwhole, hlow, hhigh, hp⟩ := position_eq_ok h
  obtain ⟨n, hpos, hle, hn⟩ := Double.exists_ofNat hwhole hlow hhigh (by decide) (by decide)
  have hcount : z.re.toCount = n := by
    rw [hn]
    exact Double.toNatBelow_ofNat hpos (by omega) (by omega)
  rw [hcount] at hp
  exact ⟨hreal, by rw [hn, ← hp, Nat.sub_add_cancel hpos], by omega⟩

theorem position_of_standsFor (h : z.StandsFor p) : position z = .ok p := by
  have hlimit : elementLimit = 2 ^ 27 := rfl
  have hone : Double.one = Double.ofNat 1 := by decide +kernel
  obtain ⟨hreal, hnumber, hwithin⟩ := h
  have hpos : 0 < p + 1 := Nat.succ_pos p
  have hbound : p + 1 < 2 ^ 53 := by omega
  have hinteger : z.isInteger = true := by
    rw [Complex.isInteger, hreal, hnumber, Double.isWhole_ofNat hpos hbound]
    rfl
  have hlow : z.re.lt Double.one = false := by
    rw [hnumber, hone]
    exact Double.ofNat_lt_eq_false Nat.one_pos hpos hbound
  have hhigh : (Double.ofNat elementLimit).lt z.re = false := by
    rw [hnumber]
    exact Double.ofNat_lt_eq_false hpos hwithin (by decide)
  have hcount : z.re.toCount = p + 1 := by
    rw [hnumber]
    exact Double.toNatBelow_ofNat hpos hbound (by omega)
  unfold position
  rw [hinteger, hlow, hhigh, hcount]
  rfl

theorem position_eq_ok_iff : position z = .ok p ↔ z.StandsFor p :=
  ⟨standsFor_of_position, position_of_standsFor⟩

theorem mapM_position_iff {zs : Array Complex} {picked : Array Nat} :
    zs.mapM position = .ok picked ↔ List.Forall₂ Complex.StandsFor zs.toList picked.toList := by
  have hlist (ps : List Nat) : zs.toList.mapM position = .ok ps
      ↔ List.Forall₂ Complex.StandsFor zs.toList ps := by
    rw [mapM_eq_ok_iff]
    exact ⟨.imp fun _ _ => position_eq_ok_iff.mp, .imp fun _ _ => position_eq_ok_iff.mpr⟩
  rw [Array.mapM_eq_mapM_toList, ← hlist, map_eq_pure_bind, bind_ok_iff]
  constructor
  · rintro ⟨ps, hps, h⟩
    cases h
    exact hps
  · exact fun h => ⟨_, h, rfl⟩

theorem exists_values {r bounded : Progression} {extent : Double}
    (h : r.resolve extent = .ok bounded) : ∃ values, bounded.values? = some values := by
  have hstop : ∃ e, bounded.stop = .at e := by
    unfold Progression.resolve at h
    split at h
    · rw [(Progression.make_eq_ok_iff.mp h).1]
      exact ⟨extent, rfl⟩
    · rename_i e he
      cases h
      exact ⟨e, he⟩
  obtain ⟨e, he⟩ := hstop
  exact Progression.exists_values? he

section Positions

variable {picked : Array Nat}

theorem positions_all_iff :
    all.positions extent = .ok picked ↔ Lists extent .all picked.toList := by
  constructor
  · intro h
    cases h
    rw [Array.toList_range]
    exact .all
  · intro h
    generalize hps : picked.toList = ps at h
    cases h
    rw [← Array.toList_range] at hps
    exact congrArg Except.ok (Array.toList_inj.mp hps).symm

theorem positions_scalar_iff :
    (value (.scalar z)).positions extent = .ok picked
      ↔ Lists extent (.value (.scalar z)) picked.toList := by
  refine mapM_position_iff.trans ?_
  generalize picked.toList = ps
  constructor
  · rintro (_ | ⟨hz, ⟨⟩⟩)
    exact .scalar hz
  · rintro ⟨⟩
    exact .cons ‹_› .nil

theorem positions_matrix_iff {m : Matrix} :
    (value (.matrix m)).positions extent = .ok picked
      ↔ Lists extent (.value (.matrix m)) picked.toList := by
  refine mapM_position_iff.trans ⟨.matrix, ?_⟩
  rintro ⟨⟩
  assumption

theorem positions_range_iff {r : Progression} :
    (value (.range r)).positions extent = .ok picked
      ↔ Lists extent (.value (.range r)) picked.toList := by
  have hlisted (values : Array Double) : (values.map Complex.ofReal).mapM position = .ok picked
      ↔ List.Forall₂ (fun x p => (Complex.ofReal x).StandsFor p) values.toList picked.toList := by
    rw [mapM_position_iff, Array.toList_map, List.forall₂_map_left_iff]
  constructor
  · intro h
    obtain ⟨data, hdata, hpicked⟩ := bind_ok_iff.mp h
    obtain ⟨bounded, hbounded, hreturn⟩ := bind_ok_iff.mp hdata
    obtain ⟨values, hvalues⟩ := exists_values hbounded
    rw [hvalues] at hreturn
    cases hreturn
    exact .range hbounded hvalues ((hlisted values).mp hpicked)
  · intro h
    cases h with
    | @range _ bounded values _ hbounded hvalues h =>
        refine bind_ok_iff.mpr ⟨values.map Complex.ofReal, ?_, (hlisted values).mpr h⟩
        refine bind_ok_iff.mpr ⟨bounded, hbounded, ?_⟩
        rw [hvalues]
        rfl

theorem positions_eq_ok_iff : arg.positions extent = .ok picked ↔ arg.Lists extent picked.toList := by
  cases arg with
  | all => exact positions_all_iff
  | value v =>
      cases v with
      | scalar z => exact positions_scalar_iff
      | matrix m => exact positions_matrix_iff
      | range r => exact positions_range_iff
      | _ =>
          -- nothing else is an index
          constructor
          · intro h
            cases h
          · intro h
            cases h

end Positions

/-- An index lists one sequence. -/
theorem Lists.unique {picked listed : List Nat} (h : arg.Lists extent picked)
    (h' : arg.Lists extent listed) : picked = listed := by
  have hsame : Except.ok picked.toArray = (.ok listed.toArray : Result (Array Nat)) :=
    (positions_eq_ok_iff.mpr h).symm.trans (positions_eq_ok_iff.mpr h')
  cases hsame
  rfl

theorem checkBounds_eq_ok_iff {ps : Array Nat} :
    checkBounds ps extent = .ok () ↔ ∀ p ∈ ps.toList, p < extent := by
  unfold checkBounds
  split
  · rename_i p hp
    have hfound := Array.find?_some hp
    have hbeyond : extent ≤ p := of_decide_eq_true hfound
    refine ⟨nofun, fun hall => absurd (hall p ?_) (Nat.not_lt.mpr hbeyond)⟩
    exact Array.mem_toList_iff.mpr (Array.mem_of_find?_eq_some hp)
  · rename_i hnone
    refine ⟨fun _ p hp => ?_, fun _ => rfl⟩
    have hfound := Array.find?_eq_none.mp hnone p (Array.mem_toList_iff.mp hp)
    exact Nat.not_le.mp (mt decide_eq_true hfound)

end IndexArg

end MatrixScript
