import Mathlib.Order.Nat
import MatrixScript.Call.Signature
import MatrixScript.Proofs.Overloads.Slots
import MatrixScript.Proofs.Values.Progressions

/-!
# Splitting the arguments

A matched call is cut where the variadic parameter stands: as many arguments as there are fixed
parameters in front of it, those that it takes, and as many as there are fixed parameters behind it.
Every argument is handed on in its place, as its slot has it.
-/

namespace MatrixScript

/-- What a slot hands on of an argument. A matrix of one element stands for its element, and a
scalar or a bounded range for its matrix, where these are asked for. -/
inductive ParamKind.Hands : ParamKind → Value → Value → Prop where
  | any (v : Value) : Hands .any v v
  | same {k : Kind} {v : Value} (h : v.kind = k) : Hands (.only k) v v
  | element {m : Matrix} {z : Complex} (hrows : m.rows = 1) (hcols : m.cols = 1)
      (hz : m.data[0]? = some z) : Hands (.only .scalar) (.matrix m) (.scalar z)
  | scalar (z : Complex) : Hands (.only .matrix) (.scalar z) (.matrix (Matrix.scalar z))
  | range {r : Progression} {values : Array Double} (h : r.values? = some values) :
      Hands (.only .matrix) (.range r) (.matrix (Matrix.columnVector (values.map Complex.ofReal)))

/-- Every slot hands on its own argument. -/
inductive ParamKind.HandsAll : List ParamKind → List Value → List Value → Prop where
  | nil : HandsAll [] [] []
  | cons {k : ParamKind} {v w : Value} {kinds : List ParamKind} {args bound : List Value}
      (h : k.Hands v w) (hrest : HandsAll kinds args bound) :
      HandsAll (k :: kinds) (v :: args) (w :: bound)

/-- How the parameters of a signature split the arguments. -/
inductive Signature.Splits : List Param → List Value → Arguments → Prop where
  | fixed {kinds : List ParamKind} {args bound : List Value}
      (h : ParamKind.HandsAll kinds args bound) : Splits (kinds.map .fixed) args ⟨bound, []⟩
  | around {front back : List ParamKind} {v : Variadic}
      {first middle last first' middle' last' : List Value}
      (hfirst : ParamKind.HandsAll front first first') (htakes : v.Takes middle.length)
      (hmiddle : ParamKind.HandsAll (List.replicate middle.length v.kind) middle middle')
      (hlast : ParamKind.HandsAll back last last') :
      Splits (around front v back) (first ++ middle ++ last) ⟨first' ++ last', middle'⟩

namespace ParamKind

variable {k : ParamKind} {v w : Value} {kinds : List ParamKind} {args bound : List Value}

/-! ### One argument -/

theorem Hands.kind {kind : Kind} (h : (only kind).Hands v w) : w.kind = kind := by
  cases h with
  | same h => exact h
  | element => rfl
  | scalar => rfl
  | range => rfl

theorem Hands.eq_of_kind {kind : Kind} (h : (only kind).Hands v w) (hkind : v.kind = kind) :
    w = v := by
  cases h with
  | same => rfl
  | element => cases hkind
  | scalar => cases hkind
  | range => cases hkind

theorem converted_of_kind {kind : Kind} (h : v.kind = kind) : v.converted kind = v := by
  subst h
  cases v <;> rfl

theorem hands_converted {kind : Kind} (h : v.converts kind = true) :
    (only kind).Hands v (v.converted kind) := by
  unfold Value.converts at h
  split at h
  · rename_i m
    obtain ⟨z, hz⟩ := Option.isSome_iff_exists.mp h
    rw [Value.converted, hz, Option.elim_some]
    obtain ⟨⟨hrows, hcols⟩, hz⟩ := Option.ite_none_right_eq_some.mp hz
    exact .element hrows hcols hz
  · exact .scalar _
  · rename_i r
    cases hstop : r.stop with
    | «at» stop =>
        obtain ⟨values, hvalues⟩ := Progression.exists_values? hstop
        rw [Value.converted, Progression.toMatrix?, hvalues, Option.map_some, Option.elim_some]
        exact .range hvalues
    | «open» =>
        rw [Progression.isOpen, hstop] at h
        cases h
  · cases h

theorem hands_coerce (h : k.fit v ≠ .rejected) : k.Hands v (k.coerce v) := by
  cases k with
  | any => exact .any v
  | only kind =>
      rw [fit] at h
      by_cases hkind : v.kind = kind
      · rw [coerce, converted_of_kind hkind]
        exact .same hkind
      · rw [if_neg hkind] at h
        by_cases hconverts : v.converts kind = true
        · exact hands_converted hconverts
        · exact absurd (if_neg hconverts) h

/-! ### A run of arguments -/

theorem handsAll_coerce (h : List.Forall₂ (fun k v => k.fit v ≠ .rejected) kinds args) :
    HandsAll kinds args (kinds.zipWith coerce args) := by
  induction h with
  | nil => exact .nil
  | cons hfit _ ih => exact .cons (hands_coerce hfit) ih

theorem HandsAll.length_args (h : HandsAll kinds args bound) : args.length = kinds.length := by
  induction h with
  | nil => rfl
  | cons _ _ ih => exact congrArg (· + 1) ih

theorem HandsAll.length_bound (h : HandsAll kinds args bound) : bound.length = kinds.length := by
  induction h with
  | nil => rfl
  | cons _ _ ih => exact congrArg (· + 1) ih

theorem HandsAll.exists_hands (h : HandsAll kinds args bound) {i : Nat} (hk : kinds[i]? = some k) :
    ∃ v w, args[i]? = some v ∧ bound[i]? = some w ∧ k.Hands v w := by
  induction h generalizing i with
  | nil => cases hk
  | cons hhands _ ih =>
      cases i with
      | zero =>
          cases hk
          exact ⟨_, _, rfl, rfl, hhands⟩
      | succ i => exact ih hk

end ParamKind

namespace Signature

variable {s : Signature} {params : List Param} {args : List Value} {bound : Arguments}
  {kinds : List ParamKind} {rest : Nat}

/-! ### Splitting -/

/-- An argument as its slot has it, marked with whether the slot is the variadic one. -/
def handOn (slot : Slot) (v : Value) : Bool × Value := (slot.isVariadic, slot.kind.coerce v)

theorem zipWith_handOn (flag : Bool) (kinds : List ParamKind) (args : List Value) :
    (kinds.map fun k => ⟨k, flag⟩).zipWith handOn args
      = (kinds.zipWith ParamKind.coerce args).map (flag, ·) := by
  rw [List.zipWith_map_left, List.map_zipWith]
  rfl

/-- The arguments whose marks are wanted. -/
def withMark (wanted : Bool → Bool) (marked : List (Bool × Value)) : List Value :=
  (marked.filter (wanted ·.1)).map (·.2)

theorem withMark_append (wanted : Bool → Bool) (marked others : List (Bool × Value)) :
    withMark wanted (marked ++ others) = withMark wanted marked ++ withMark wanted others := by
  rw [withMark, List.filter_append, List.map_append]
  rfl

theorem withMark_map (wanted : Bool → Bool) (flag : Bool) (vs : List Value) :
    withMark wanted (vs.map (flag, ·)) = if wanted flag then vs else [] := by
  induction vs with
  | nil => exact (ite_self []).symm
  | cons v vs ih =>
      rw [withMark] at ih ⊢
      cases hwanted : wanted flag <;> simp_all

theorem bind_of_slots {slots : List Slot} (h : s.slots? args.length = some slots) :
    s.bind args = ⟨withMark (!·) (slots.zipWith handOn args),
      withMark id (slots.zipWith handOn args)⟩ := by
  rw [bind, h]
  rfl

theorem exists_append_of_forall₂ {α β : Type} {R : α → β → Prop} {xs ys : List α} {zs : List β}
    (h : List.Forall₂ R (xs ++ ys) zs) :
    ∃ as bs, zs = as ++ bs ∧ List.Forall₂ R xs as ∧ List.Forall₂ R ys bs :=
  ⟨zs.take xs.length, zs.drop xs.length, (List.take_append_drop _ _).symm,
    (List.forall₂_take_append zs xs ys h.flip).flip,
    (List.forall₂_drop_append zs xs ys h.flip).flip⟩

theorem splits_fixed (h : Matches ⟨kinds.map .fixed⟩ args rest) :
    Splits (kinds.map .fixed) args (bind ⟨kinds.map .fixed⟩ args)
      ∧ (bind ⟨kinds.map .fixed⟩ args).rest.length = rest := by
  have hslots := slots?_eq (s := ⟨kinds.map .fixed⟩) (.fixed kinds) h.leaves
  have hfits := h.fits
  simp only [flatMap_fixed] at hslots hfits
  rw [bind_of_slots hslots, zipWith_handOn, withMark_map, withMark_map]
  exact ⟨.fixed (ParamKind.handsAll_coerce (List.forall₂_map_left_iff.mp hfits)),
    (h.leaves.none (variadic_notMem_fixed kinds)).symm⟩

theorem splits_around {front back : List ParamKind} {v : Variadic}
    (h : Matches ⟨around front v back⟩ args rest) :
    Splits (around front v back) args (bind ⟨around front v back⟩ args)
      ∧ (bind ⟨around front v back⟩ args).rest.length = rest := by
  have hslots := slots?_eq (s := ⟨around front v back⟩) (.around front v back) h.leaves
  have hfits := h.fits
  have htakes := h.leaves.takes v ((variadic_mem_around front v back).mpr rfl)
  have hmiddles : List.replicate rest (⟨v.kind, true⟩ : Slot)
      = (List.replicate rest v.kind).map fun k => ⟨k, true⟩ := by rw [List.map_replicate]
  simp only [flatMap_around, hmiddles] at hslots hfits
  obtain ⟨first, others, rfl, hfirst, hothers⟩ := exists_append_of_forall₂ hfits
  obtain ⟨middle, last, rfl, hmiddle, hlast⟩ := exists_append_of_forall₂ hothers
  have hrest : middle.length = rest := by
    rw [← hmiddle.length_eq, List.length_map, List.length_replicate]
  subst hrest
  have hmiddle' := ParamKind.handsAll_coerce (List.forall₂_map_left_iff.mp hmiddle)
  rw [bind_of_slots hslots, List.zipWith_append hfirst.length_eq,
    List.zipWith_append hmiddle.length_eq, zipWith_handOn, zipWith_handOn, zipWith_handOn]
  simp only [withMark_append, withMark_map, Bool.not_false, Bool.not_true, id, if_true,
    Bool.false_eq_true, if_false, List.nil_append, List.append_nil]
  rw [← List.append_assoc]
  refine ⟨.around (ParamKind.handsAll_coerce (List.forall₂_map_left_iff.mp hfirst)) htakes hmiddle'
    (ParamKind.handsAll_coerce (List.forall₂_map_left_iff.mp hlast)), ?_⟩
  rw [hmiddle'.length_bound, List.length_replicate]

theorem splits_bind (hform : Form s.params) (h : s.Matches args rest) :
    Splits s.params args (s.bind args) ∧ (s.bind args).rest.length = rest := by
  obtain ⟨params⟩ := s
  change Form params at hform
  cases hform with
  | fixed kinds => exact splits_fixed h
  | around front v back => exact splits_around h

/-! ### Positions -/

/-- The argument of the fixed parameter at a position, when the variadic one takes `rest`. -/
def argumentAt (s : Signature) (rest p : Nat) : Nat :=
  match s.variadicAt? with
  | none => p
  | some first => if p < first then p else p + rest - 1

/-- The fixed parameters in front of a position. -/
def fixedBefore (s : Signature) (p : Nat) : Nat := (s.params.take p).countP (·.variadic?.isNone)

theorem fixedBefore_fixed {p : Nat} (hp : p ≤ kinds.length) :
    fixedBefore ⟨kinds.map .fixed⟩ p = p := by
  rw [fixedBefore, ← List.map_take, countP_fixed, List.length_take, Nat.min_eq_left hp]

theorem fixedBefore_front {front back : List ParamKind} {v : Variadic} {p : Nat}
    (hp : p ≤ front.length) : fixedBefore ⟨around front v back⟩ p = p := by
  rw [fixedBefore, around, List.take_append_of_le_length (by rwa [List.length_map])]
  exact fixedBefore_fixed hp

theorem fixedBefore_back {front back : List ParamKind} {v : Variadic} {j : Nat}
    (hj : j ≤ back.length) :
    fixedBefore ⟨around front v back⟩ (front.length + 1 + j) = front.length + j := by
  have hdrop : front.length + 1 + j - front.length = j + 1 := by omega
  rw [fixedBefore, around, List.take_append, List.countP_append, List.length_map, hdrop,
    List.take_succ_cons, List.countP_cons, List.take_of_length_le (by rw [List.length_map]; omega),
    countP_fixed]
  exact congrArg (front.length + ·) (fixedBefore_fixed hj)

theorem getElem?_of_fixed {p : Nat} {k : ParamKind}
    (h : (kinds.map Param.fixed)[p]? = some (.fixed k)) : kinds[p]? = some k := by
  rw [List.getElem?_map] at h
  obtain ⟨k', hk', heq⟩ := Option.map_eq_some_iff.mp h
  cases heq
  exact hk'

/-- Where a fixed parameter finds its argument, and where that is handed on to. -/
theorem exists_hands_of_splits (h : Splits s.params args bound) {p : Nat} {k : ParamKind}
    (hp : s.params[p]? = some (.fixed k)) :
    ∃ v w, args[s.argumentAt bound.rest.length p]? = some v
      ∧ bound.fixed[s.fixedBefore p]? = some w ∧ k.Hands v w := by
  obtain ⟨params⟩ := s
  change Splits params args bound at h
  change params[p]? = _ at hp
  cases h with
  | @fixed kinds _ bound h =>
      have hnone : variadicAt? ⟨kinds.map .fixed⟩ = none := findIdx?_fixed kinds
      have hk := getElem?_of_fixed hp
      have hlt := (List.getElem?_eq_some_iff.mp hk).1
      rw [argumentAt, hnone, fixedBefore_fixed hlt.le]
      exact h.exists_hands hk
  | @around front back v first middle last first' middle' last' hfirst _ hmiddle hlast =>
      have hfirstLength := hfirst.length_args
      have hfirstLength' := hfirst.length_bound
      have hmiddleLength := hmiddle.length_bound.trans List.length_replicate
      rw [argumentAt, variadicAt?_around]
      dsimp only
      rw [hmiddleLength]
      rcases lt_trichotomy p front.length with hfront | rfl | hback
      · rw [around, List.getElem?_append_left (by rwa [List.length_map])] at hp
        obtain ⟨a, w, ha, hw, hhands⟩ := hfirst.exists_hands (getElem?_of_fixed hp)
        rw [if_pos hfront, fixedBefore_front hfront.le, List.append_assoc,
          List.getElem?_append_left (hfirstLength ▸ hfront),
          List.getElem?_append_left (hfirstLength' ▸ hfront)]
        exact ⟨a, w, ha, hw, hhands⟩
      · rw [around, List.getElem?_append_right (by rw [List.length_map]), List.length_map,
          Nat.sub_self] at hp
        cases hp
      · obtain ⟨j, rfl⟩ := Nat.exists_eq_add_of_lt hback
        have hpast : front.length + j + 1 - front.length = j + 1 := by omega
        rw [around, List.getElem?_append_right (by rw [List.length_map]; omega), List.length_map,
          hpast, List.getElem?_cons_succ] at hp
        have hk := getElem?_of_fixed hp
        obtain ⟨a, w, ha, hw, hhands⟩ := hlast.exists_hands hk
        have hplace : front.length + j + 1 + middle.length - 1 = (first ++ middle).length + j := by
          rw [List.length_append]
          omega
        rw [if_neg (by omega), hplace, Nat.add_right_comm,
          fixedBefore_back (List.getElem?_eq_some_iff.mp hk).1.le,
          List.getElem?_append_right (Nat.le_add_right _ _), Nat.add_sub_cancel_left,
          ← hfirstLength', List.getElem?_append_right (Nat.le_add_right _ _),
          Nat.add_sub_cancel_left]
        exact ⟨a, w, ha, hw, hhands⟩

/-! ### Arguments that are bound -/

theorem paramAt_lt (hform : Form s.params) (hleaves : s.Leaves args.length rest) {i : Nat}
    (hi : i < args.length) : s.paramAt rest i < s.params.length := by
  have hwithin : i < (s.params.flatMap (Param.slots rest)).length := by
    rwa [length_slots hform hleaves]
  have hslot := getElem?_slots hform hleaves i
  rw [List.getElem?_eq_getElem hwithin] at hslot
  obtain ⟨p, hp, -⟩ := Option.map_eq_some_iff.mp hslot
  exact (List.getElem?_eq_some_iff.mp hp).1

/-- Every argument of a matched call has a parameter, and the call is split by the parameters: the
variadic one has a run of arguments of a length that it takes, and the fixed ones have those in
front of it and behind it, these by as many places later as the run is long, less one. A slot that
is not for values of any kind hands on one of its own, which is the argument if that is one. -/
theorem bind_of_match {name : String} {rank : Score} (hvalid : s.validate name = .ok ())
    (hmatch : s.score? args = some rank) :
    ∃ rest, s.restCount? args.length = some rest
      ∧ (∀ i < args.length, s.paramAt rest i < s.params.length)
      ∧ Splits s.params args (s.bind args) ∧ (s.bind args).rest.length = rest
      ∧ (∀ p k, s.params[p]? = some (.fixed k) →
        ∃ v w, args[s.argumentAt rest p]? = some v
          ∧ (s.bind args).fixed[s.fixedBefore p]? = some w ∧ k.Hands v w)
      ∧ ∀ k v w, (ParamKind.only k).Hands v w → w.kind = k ∧ (v.kind = k → w = v) := by
  have hform := form_of_validate hvalid
  obtain ⟨rest, hranks⟩ := (score?_eq_some_iff hform).mp hmatch
  have hleaves := hranks.fits.leaves
  obtain ⟨hsplits, hrest⟩ := splits_bind hform hranks.fits
  refine ⟨rest, (restCount?_eq_some_iff hform).mpr hleaves, fun i hi => paramAt_lt hform hleaves hi,
    hsplits, hrest, fun p k hp => ?_, fun k v w h => ⟨h.kind, h.eq_of_kind⟩⟩
  exact hrest ▸ exists_hands_of_splits hsplits hp

/-- Three of six arguments go to the variadic parameter in the middle, and both of the last two are
two places behind their parameters. The last one is a matrix where a scalar is asked for. -/
theorem bind_of_match_middle :
    let s : Signature := ⟨[.fixed (.only .matrix), .variadic ⟨.only .scalar, 1, some 5, 2⟩,
      .fixed .any, .fixed (.only .scalar)]⟩
    let one : Value := .matrix (Matrix.scalar Complex.one)
    let args : List Value := [.ofNat 2, .ofNat 3, one, .ofNat 4, .text "x", one]
    s.validate "f" = .ok () ∧ s.score? args = some ⟨true, 4⟩
      ∧ Splits s.params args (s.bind args) ∧ (s.bind args).rest.length = 3
      ∧ ∃ w, (s.bind args).fixed[2]? = some w ∧ (ParamKind.only .scalar).Hands one w
        ∧ w.kind = .scalar := by
  intro s one args
  have hvalid : s.validate "f" = .ok () := rfl
  have hmatch : s.score? args = some ⟨true, 4⟩ := by decide +kernel
  obtain ⟨rest, hrest, -, hsplits, hlength, hfixed, hkinds⟩ := bind_of_match hvalid hmatch
  have hthree : s.restCount? args.length = some 3 := by decide
  obtain rfl : 3 = rest := Option.some.inj (hthree.symm.trans hrest)
  obtain ⟨v, w, hv, hw, hhands⟩ := hfixed 3 (.only .scalar) rfl
  cases hv
  exact ⟨hvalid, hmatch, hsplits, hlength, w, hw, hhands, (hkinds _ _ _ hhands).1⟩

end Signature

end MatrixScript
