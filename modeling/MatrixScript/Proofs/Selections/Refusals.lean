import MatrixScript.Proofs.Assignment.Indices
import MatrixScript.Proofs.Values.Numbers

/-!
# Indices that are refused

An index spells out numbers, and it is refused for one of them: because it is not whole, because it
is not among the places of its dimension, or because it is larger than any matrix may be. An open
range can also be too long to be spelled out, and what is no number spells out nothing. An index
that lists places within the extent is not refused for any of these reasons.
-/

namespace MatrixScript

theorem exists_of_mapM_error {ε α β : Type} {f : α → Except ε β} {xs : List α} {e : ε}
    (h : xs.mapM f = .error e) : ∃ x ∈ xs, f x = .error e := by
  induction xs with
  | nil => cases h
  | cons x xs ih =>
      rw [List.mapM_cons] at h
      rcases bind_error_iff.mp h with hx | ⟨y, -, h⟩
      · exact ⟨x, List.mem_cons_self, hx⟩
      rcases bind_error_iff.mp h with hxs | ⟨ys, -, h⟩
      · obtain ⟨x', hmem, hx'⟩ := ih hxs
        exact ⟨x', List.mem_cons_of_mem x hmem, hx'⟩
      · cases h

theorem exists_of_forall₂ {α β : Type} {R : α → β → Prop} {xs : List α} {ys : List β} {x : α}
    (h : List.Forall₂ R xs ys) (hx : x ∈ xs) : ∃ y ∈ ys, R x y := by
  induction h with
  | nil => cases hx
  | cons hab _ ih =>
      rcases List.mem_cons.mp hx with rfl | hx
      · exact ⟨_, List.mem_cons_self, hab⟩
      · obtain ⟨y, hy, hxy⟩ := ih hx
        exact ⟨y, List.mem_cons_of_mem _ hy, hxy⟩

namespace IndexArg

/-- The numbers that an index spells out. The colon has no need to. -/
inductive Spells (extent : Nat) : IndexArg → Complex → Prop where
  | scalar (z : Complex) : Spells extent (.value (.scalar z)) z
  | matrix {m : Matrix} {z : Complex} (h : z ∈ m.data.toList) : Spells extent (.value (.matrix m)) z
  | range {r bounded : Progression} {values : Array Double} {x : Double}
      (hbounded : r.resolve (Double.ofNat extent) = .ok bounded)
      (hvalues : bounded.values? = some values) (h : x ∈ values.toList) :
      Spells extent (.value (.range r)) (.ofReal x)

/-- No number, or not a whole one. -/
inductive Unfit (extent : Nat) : IndexArg → Prop where
  | kind {v : Value} (h : v.kind ∉ [Kind.scalar, .matrix, .range]) : Unfit extent (.value v)
  | fraction {arg : IndexArg} {z : Complex} (hz : arg.Spells extent z) (h : z.isInteger = false) :
      Unfit extent arg

/-- A whole number below one or beyond the extent. -/
def Outside (extent : Nat) (arg : IndexArg) : Prop :=
  ∃ z, arg.Spells extent z ∧ z.isInteger = true ∧ z.re.toRat ∉ Set.Icc 1 (extent : ℚ)

/-- A whole number above the limit, or an open range of more numbers than that. -/
inductive Oversteps (extent : Nat) : IndexArg → Prop where
  | number {arg : IndexArg} {z : Complex} (hz : arg.Spells extent z) (hinteger : z.isInteger = true)
      (h : (elementLimit : ℚ) < z.re.toRat) : Oversteps extent arg
  | range {r : Progression} (hopen : r.stop = .open)
      (hlong : ({ r with stop := .at (Double.ofNat extent) } : Progression).isTooLong = true) :
      Oversteps extent (.value (.range r))

/-- The reasons against an index, each with the code of its error. -/
inductive Refused (extent : Nat) (arg : IndexArg) : ErrorCode → Prop where
  | unfit (h : arg.Unfit extent) : Refused extent arg .argumentValue
  | outside (h : arg.Outside extent) : Refused extent arg .argumentRange
  | oversteps (h : arg.Oversteps extent) : Refused extent arg .argumentRange

variable {arg : IndexArg} {extent p : Nat} {z : Complex} {fault : Fault} {picked : List Nat}
  {ps : Array Nat}

/-! ### What is listed and what is spelled out -/

theorem Spells.standsFor (hz : arg.Spells extent z) (h : arg.Lists extent picked) :
    ∃ p ∈ picked, z.StandsFor p := by
  cases hz with
  | scalar z =>
      cases h with
      | scalar h => exact ⟨_, List.mem_singleton_self _, h⟩
  | matrix hz =>
      cases h with
      | matrix h => exact exists_of_forall₂ h hz
  | range hbounded hvalues hx =>
      cases h with
      | range hbounded' hvalues' h =>
          cases hbounded.symm.trans hbounded'
          cases hvalues.symm.trans hvalues'
          obtain ⟨p, hp, hstands⟩ := exists_of_forall₂ h hx
          exact ⟨p, hp, hstands⟩

/-- A place beyond the extent is spelled out. -/
theorem Lists.exists_spells (h : arg.Lists extent picked) (hp : p ∈ picked) (hbeyond : extent ≤ p) :
    ∃ z, arg.Spells extent z ∧ z.StandsFor p := by
  cases h with
  | all => exact absurd (List.mem_range.mp hp) (Nat.not_lt.mpr hbeyond)
  | scalar h =>
      obtain rfl := List.mem_singleton.mp hp
      exact ⟨_, .scalar _, h⟩
  | matrix h =>
      obtain ⟨z, hz, hstands⟩ := exists_of_forall₂ h.flip hp
      exact ⟨z, .matrix hz, hstands⟩
  | range hbounded hvalues h =>
      obtain ⟨x, hx, hstands⟩ := exists_of_forall₂ h.flip hp
      exact ⟨_, .range hbounded hvalues hx, hstands⟩

theorem isInteger_of_standsFor (h : z.StandsFor p) : z.isInteger = true := by
  obtain ⟨hreal, hwhole, -⟩ := position_eq_ok (position_of_standsFor h)
  exact Bool.and_eq_true_iff.mpr ⟨hreal, hwhole⟩

theorem toRat_of_standsFor (h : z.StandsFor p) : z.re.toRat = p + 1 := by
  have hlimit : elementLimit = 2 ^ 27 := rfl
  have hwithin := h.within
  rw [h.number, Double.toRat_ofNat (by omega)]
  push_cast
  rfl

/-- No reason speaks against an index that lists places within the extent. -/
theorem Lists.not_refused (h : arg.Lists extent picked) (hwithin : ∀ p ∈ picked, p < extent)
    (code : ErrorCode) : ¬arg.Refused extent code := by
  rintro (⟨hkind | ⟨hz, hfraction⟩⟩ | ⟨z, hz, -, houtside⟩ | ⟨⟨hz, -, habove⟩ | ⟨hopen, hlong⟩⟩)
  · cases h <;> exact hkind (by simp [Value.kind])
  · obtain ⟨p, -, hp⟩ := hz.standsFor h
    exact Bool.false_ne_true (hfraction.symm.trans (isInteger_of_standsFor hp))
  · obtain ⟨p, hmem, hp⟩ := hz.standsFor h
    refine houtside ?_
    rw [toRat_of_standsFor hp]
    exact ⟨by simp, by exact_mod_cast hwithin p hmem⟩
  · obtain ⟨p, -, hp⟩ := hz.standsFor h
    rw [toRat_of_standsFor hp] at habove
    have habove : elementLimit < p + 1 := by exact_mod_cast habove
    exact absurd hp.within (Nat.not_lt.mpr (Nat.le_of_lt_succ habove))
  · cases h with
    | range hbounded =>
        rw [Progression.resolve, hopen] at hbounded
        obtain ⟨rfl, hwell⟩ := Progression.make_eq_ok_iff.mp hbounded
        exact Bool.false_ne_true (hwell.not_tooLong.symm.trans hlong)

/-! ### Errors -/

theorem toRat_lt_one (h : z.re.lt Double.one = true) : z.re.toRat < 1 := by
  have hone : Double.one.toRat = 1 := by
    rw [show Double.one = Double.ofNat 1 by decide +kernel, Double.toRat_ofNat (by decide)]
    rfl
  exact hone ▸ Double.toRat_lt_toRat h

theorem limit_lt_toRat (h : (Double.ofNat elementLimit).lt z.re = true) :
    (elementLimit : ℚ) < z.re.toRat :=
  Double.toRat_ofNat (n := elementLimit) (by decide) ▸ Double.toRat_lt_toRat h

/-- A number is refused because it is not whole, or because it is too small or too large. -/
theorem position_error (h : position z = .error fault) :
    z.isInteger = false ∧ fault.code = .argumentValue
    ∨ z.isInteger = true ∧ (z.re.toRat < 1 ∨ (elementLimit : ℚ) < z.re.toRat)
      ∧ fault.code = .argumentRange := by
  unfold position at h
  split at h
  · rename_i hinteger
    cases h
    exact .inl ⟨(Bool.not_eq_true' _).mp hinteger, rfl⟩
  · rename_i hinteger
    rw [Bool.not_eq_true, Bool.not_eq_false'] at hinteger
    split at h
    · cases h
      exact .inr ⟨hinteger, .inl (toRat_lt_one ‹_›), rfl⟩
    · split at h
      · cases h
        exact .inr ⟨hinteger, .inr (limit_lt_toRat ‹_›), rfl⟩
      · cases h

theorem refused_of_position (hz : arg.Spells extent z) (h : position z = .error fault) :
    arg.Refused extent fault.code := by
  rcases position_error h with ⟨hfraction, hcode⟩ | ⟨hinteger, hlow | hhigh, hcode⟩
  · exact hcode ▸ .unfit (.fraction hz hfraction)
  · exact hcode ▸ .outside ⟨z, hz, hinteger, fun hinside => absurd hinside.1 (not_le.mpr hlow)⟩
  · exact hcode ▸ .oversteps (.number hz hinteger hhigh)

theorem refused_of_mapM {zs : Array Complex} (hzs : ∀ z ∈ zs.toList, arg.Spells extent z)
    (h : zs.mapM position = .error fault) : arg.Refused extent fault.code := by
  rw [Array.mapM_eq_mapM_toList, map_eq_pure_bind] at h
  rcases bind_error_iff.mp h with hps | ⟨ps, -, h⟩
  · obtain ⟨z, hz, hfault⟩ := exists_of_mapM_error hps
    exact refused_of_position (hzs z hz) hfault
  · cases h

theorem refused_of_resolve {r : Progression} (hr : r.WellFormed)
    (h : r.resolve (Double.ofNat extent) = .error fault) :
    (value (.range r)).Refused extent fault.code := by
  unfold Progression.resolve at h
  split at h
  · rename_i hopen
    have hstep : (r.step.isZero || r.step.isNaN) = false := by
      rw [hr.step_nonzero, hr.step_number]
      rfl
    simp only [Progression.make, hstep, Bool.false_eq_true, if_false] at h
    split at h
    · cases h
      exact .oversteps (.range hopen ‹_›)
    · cases h
  · cases h

theorem refused_of_range {r : Progression} (hr : r.WellFormed)
    (h : (value (.range r)).positions extent = .error fault) :
    (value (.range r)).Refused extent fault.code := by
  rcases bind_error_iff.mp h with hnumbers | ⟨zs, hnumbers, h⟩
  · rcases bind_error_iff.mp hnumbers with hbounded | ⟨bounded, -, hnever⟩
    · exact refused_of_resolve hr hbounded
    · cases hnever
  · obtain ⟨bounded, hbounded, hzs⟩ := bind_ok_iff.mp hnumbers
    obtain ⟨values, hvalues⟩ := exists_values hbounded
    rw [hvalues] at hzs
    cases hzs
    refine refused_of_mapM (fun z hz => ?_) h
    rw [Option.getD_some, Array.toList_map] at hz
    obtain ⟨x, hx, rfl⟩ := List.mem_map.mp hz
    exact .range hbounded hvalues hx

theorem refused_of_positions (harg : arg.WellFormed) (h : arg.positions extent = .error fault) :
    arg.Refused extent fault.code := by
  cases arg with
  | all => cases h
  | value v =>
      cases v with
      | scalar z =>
          refine refused_of_mapM (fun w hw => ?_) h
          obtain rfl := List.mem_singleton.mp hw
          exact .scalar w
      | matrix m => exact refused_of_mapM (fun _ => .matrix) h
      | range r => exact refused_of_range harg h
      | _ =>
          -- nothing else is a number
          cases h
          exact .unfit (.kind (by simp [Value.kind]))

/-- A place beyond the extent is that of a number outside. -/
theorem refused_of_checkBounds (hps : arg.positions extent = .ok ps)
    (h : checkBounds ps extent = .error fault) : arg.Refused extent fault.code := by
  unfold checkBounds at h
  split at h
  · rename_i p hp
    cases h
    have hfound := Array.find?_some hp
    have hbeyond : extent ≤ p := of_decide_eq_true hfound
    have hmem := Array.mem_toList_iff.mpr (Array.mem_of_find?_eq_some hp)
    obtain ⟨z, hz, hstands⟩ := (positions_eq_ok_iff.mp hps).exists_spells hmem hbeyond
    refine .outside ⟨z, hz, isInteger_of_standsFor hstands, fun hinside => ?_⟩
    rw [toRat_of_standsFor hstands] at hinside
    have hle : p + 1 ≤ extent := by exact_mod_cast hinside.2
    exact absurd hle (Nat.not_le.mpr (Nat.lt_succ_of_le hbeyond))
  · cases h

theorem refused_of_positionsWithin (harg : arg.WellFormed)
    (h : arg.positionsWithin extent = .error fault) : arg.Refused extent fault.code := by
  rcases bind_error_iff.mp h with hps | ⟨ps, hps, h⟩
  · exact refused_of_positions harg hps
  rcases bind_error_iff.mp h with hbounds | ⟨_, -, hnever⟩
  · exact refused_of_checkBounds hps hbounds
  · cases hnever

end IndexArg

end MatrixScript
