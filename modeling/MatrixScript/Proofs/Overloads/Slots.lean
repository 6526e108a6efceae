import Mathlib.Data.List.Forall2
import MatrixScript.Call.Signature

/-!
# Arguments and their slots

A call deals its arguments out to the parameters in order: one to each fixed parameter and all that
are left over to the variadic one. The signature finds the slot of an argument from its number; here
the slots are the parameters themselves, with as many copies of the variadic one as it takes.
-/

namespace MatrixScript

/-- A step at a time from the least count on, as far as the largest. -/
def Variadic.Takes (v : Variadic) (n : Nat) : Prop :=
  (∃ j, n = v.least + j * v.step) ∧ ∀ most, v.most = some most → n ≤ most

/-- The slots of a parameter, when the variadic one takes `rest` arguments. -/
def Param.slots (rest : Nat) : Param → List Slot
  | .fixed k => [⟨k, false⟩]
  | .variadic v => List.replicate rest ⟨v.kind, true⟩

namespace Signature

/-- All arguments but `rest` of them go to fixed parameters, and the variadic one, if there is one,
takes these. -/
structure Leaves (s : Signature) (n rest : Nat) : Prop where
  count : n = s.params.countP (·.variadic?.isNone) + rest
  takes : ∀ v, Param.variadic v ∈ s.params → v.Takes rest
  none : (∀ v, Param.variadic v ∉ s.params) → rest = 0

/-- Every argument fits the slot that it is dealt to. -/
structure Matches (s : Signature) (args : List Value) (rest : Nat) : Prop where
  leaves : s.Leaves args.length rest
  fits : List.Forall₂ (fun slot v => slot.kind.fit v ≠ .rejected)
    (s.params.flatMap (Param.slots rest)) args

/-- The rank of a match: whether an argument of a fixed parameter has to be converted, and how far
apart the counts of the variadic parameter are. -/
structure RanksWith (s : Signature) (args : List Value) (rest : Nat) (rank : Score) : Prop where
  fits : s.Matches args rest
  coerced : rank.coerced = true ↔ ∃ slot v, (slot, v) ∈ (s.params.flatMap (Param.slots rest)).zip args
    ∧ slot.isVariadic = false ∧ slot.kind.fit v = .coerced
  window : ∀ v, Param.variadic v ∈ s.params → rank.window = v.window
  narrow : (∀ v, Param.variadic v ∉ s.params) → rank.window = 0

def Ranks (s : Signature) (args : List Value) (rank : Score) : Prop :=
  ∃ rest, s.RanksWith args rest rank

/-! ### Valid signatures -/

/-- Fixed parameters on both sides of a variadic one. -/
def around (front : List ParamKind) (v : Variadic) (back : List ParamKind) : List Param :=
  front.map .fixed ++ .variadic v :: back.map .fixed

/-- The parameters of a signature with at most one variadic one. -/
inductive Form : List Param → Prop where
  | fixed (kinds : List ParamKind) : Form (kinds.map .fixed)
  | around (front : List ParamKind) (v : Variadic) (back : List ParamKind) :
      Form (around front v back)

theorem eq_map_fixed {params : List Param} (h : params.filterMap Param.variadic? = []) :
    ∃ kinds : List ParamKind, params = kinds.map .fixed := by
  induction params with
  | nil => exact ⟨[], rfl⟩
  | cons p params ih =>
      cases p with
      | fixed k =>
          obtain ⟨kinds, rfl⟩ := ih h
          exact ⟨k :: kinds, rfl⟩
      | variadic v => cases h

theorem form_of_single {params : List Param} {v : Variadic}
    (h : params.filterMap Param.variadic? = [v]) : Form params := by
  have hparts : ∃ front back : List ParamKind,
      params = around front v back := by
    induction params with
    | nil => cases h
    | cons p params ih =>
        cases p with
        | fixed k =>
            obtain ⟨front, back, rfl⟩ := ih h
            exact ⟨k :: front, back, rfl⟩
        | variadic w =>
            obtain ⟨rfl, hrest⟩ := List.cons.inj h
            obtain ⟨back, rfl⟩ := eq_map_fixed hrest
            exact ⟨[], back, rfl⟩
  obtain ⟨front, back, rfl⟩ := hparts
  exact .around front v back

theorem form_of_validate {s : Signature} {name : String} (h : s.validate name = .ok ()) :
    Form s.params := by
  unfold validate at h
  split at h
  · rename_i hnone
    obtain ⟨kinds, hkinds⟩ := eq_map_fixed hnone
    rw [hkinds]
    exact .fixed kinds
  · exact form_of_single ‹_›
  · cases h

/-! ### Fixed parameters -/

section Fixed

variable (kinds : List ParamKind)

theorem findSome?_fixed : (kinds.map Param.fixed).findSome? Param.variadic? = none := by
  induction kinds with
  | nil => rfl
  | cons k kinds ih => exact ih

theorem findIdx?_fixed : (kinds.map Param.fixed).findIdx? (·.variadic?.isSome) = none := by
  rw [List.findIdx?_eq_none_iff]
  intro p hp
  obtain ⟨k, -, rfl⟩ := List.mem_map.mp hp
  rfl

theorem countP_fixed : (kinds.map Param.fixed).countP (·.variadic?.isNone) = kinds.length := by
  rw [List.countP_eq_length.mpr, List.length_map]
  intro p hp
  obtain ⟨k, -, rfl⟩ := List.mem_map.mp hp
  rfl

theorem flatMap_fixed (rest : Nat) :
    (kinds.map Param.fixed).flatMap (Param.slots rest) = kinds.map fun k => ⟨k, false⟩ := by
  rw [List.flatMap_map]
  exact List.flatMap_pure_eq_map _ kinds

theorem variadic_notMem_fixed (v : Variadic) : Param.variadic v ∉ kinds.map Param.fixed := by
  intro hmem
  obtain ⟨k, -, hk⟩ := List.mem_map.mp hmem
  cases hk

end Fixed

section Around

variable (front : List ParamKind) (v : Variadic) (back : List ParamKind)

theorem variadic_mem_around {w : Variadic} : Param.variadic w ∈ around front v back ↔ w = v := by
  rw [around, List.mem_append, List.mem_cons, or_iff_right (variadic_notMem_fixed front w),
    or_iff_left (variadic_notMem_fixed back w), Param.variadic.injEq]

theorem variadic?_around : variadic? ⟨around front v back⟩ = some v := by
  rw [variadic?, around, List.findSome?_append, findSome?_fixed, Option.none_or]
  rfl

theorem variadicAt?_around : variadicAt? ⟨around front v back⟩ = some front.length := by
  have hhead : (Param.variadic v :: back.map .fixed).findIdx? (·.variadic?.isSome) = some 0 := rfl
  rw [variadicAt?, around, List.findIdx?_append, findIdx?_fixed, Option.none_or, List.length_map,
    hhead, Option.map_some, Nat.zero_add]

theorem length_around : (around front v back).length = front.length + 1 + back.length := by
  rw [around, List.length_append, List.length_cons, List.length_map, List.length_map]
  omega

theorem countP_around :
    (around front v back).countP (·.variadic?.isNone) = front.length + back.length := by
  rw [around, List.countP_append, countP_fixed, List.countP_cons, countP_fixed]
  rfl

theorem flatMap_around (rest : Nat) :
    (around front v back).flatMap (Param.slots rest)
      = front.map (fun k => ⟨k, false⟩) ++ (List.replicate rest ⟨v.kind, true⟩
        ++ back.map fun k => ⟨k, false⟩) := by
  rw [around, List.flatMap_append, flatMap_fixed, List.flatMap_cons, flatMap_fixed]
  rfl

end Around

/-! ### How many arguments the variadic parameter takes -/

theorem acceptsCount_iff {v : Variadic} {n : Nat} : v.acceptsCount n = true ↔ v.Takes n := by
  have hsteps : (v.least ≤ n ∧ (n - v.least) % v.step = 0) ↔ ∃ j, n = v.least + j * v.step := by
    constructor
    · rintro ⟨hle, hmod⟩
      obtain ⟨j, hj⟩ := Nat.dvd_of_mod_eq_zero hmod
      exact ⟨j, by rw [Nat.mul_comm, ← hj, Nat.add_sub_cancel' hle]⟩
    · rintro ⟨j, rfl⟩
      rw [Nat.add_sub_cancel_left]
      exact ⟨Nat.le_add_right _ _, Nat.mul_mod_left _ _⟩
  rw [Variadic.acceptsCount, Variadic.Takes, ← hsteps, Bool.and_eq_true, Bool.and_eq_true,
    decide_eq_true_iff, decide_eq_true_iff, and_right_comm]
  refine and_congr_right fun _ => ?_
  cases v.most with
  | none => exact ⟨fun _ _ h => (by cases h), fun _ => rfl⟩
  | some most =>
      rw [Option.all_some, decide_eq_true_iff]
      constructor
      · rintro h _ ⟨⟩
        exact h
      · exact fun h => h most rfl

theorem restCount?_fixed_iff {kinds : List ParamKind} {n rest : Nat} :
    restCount? ⟨kinds.map .fixed⟩ n = some rest ↔ Leaves ⟨kinds.map .fixed⟩ n rest := by
  have hnone : variadic? ⟨kinds.map .fixed⟩ = none := findSome?_fixed kinds
  rw [restCount?, hnone]
  dsimp only
  rw [List.length_map]
  constructor
  · intro hrest
    obtain ⟨hn, hrest⟩ := Option.ite_none_right_eq_some.mp hrest
    cases hrest
    exact ⟨hn.trans (countP_fixed kinds).symm,
      fun v hv => absurd hv (variadic_notMem_fixed kinds v), fun _ => rfl⟩
  · rintro ⟨hcount, -, hrest⟩
    obtain rfl := hrest (variadic_notMem_fixed kinds)
    exact if_pos (hcount.trans (countP_fixed kinds))

theorem restCount?_around_iff {front back : List ParamKind} {v : Variadic} {n rest : Nat} :
    restCount? ⟨around front v back⟩ n = some rest ↔ Leaves ⟨around front v back⟩ n rest := by
  have hcounted := countP_around front v back
  have hmem {w : Variadic} := variadic_mem_around front v back (w := w)
  have hlength : (around front v back).length - 1 = front.length + back.length := by
    rw [length_around]
    omega
  rw [restCount?, variadic?_around]
  dsimp only
  rw [hlength]
  constructor
  · intro hrest
    obtain ⟨haccepts, hrest⟩ := Option.ite_none_right_eq_some.mp hrest
    obtain ⟨hle, htakes⟩ := Bool.and_eq_true_iff.mp haccepts
    have hle := of_decide_eq_true hle
    cases hrest
    refine ⟨?_, fun w hw => ?_, fun hnone => absurd (hmem.mpr rfl) (hnone v)⟩
    · change n = (around front v back).countP _ + _
      omega
    · rw [hmem.mp hw]
      exact acceptsCount_iff.mp htakes
  · rintro ⟨hcount, htakes, -⟩
    change n = (around front v back).countP _ + _ at hcount
    have hrest : n - (front.length + back.length) = rest := by omega
    rw [hrest, acceptsCount_iff.mpr (htakes v (hmem.mpr rfl)), Bool.and_true,
      if_pos (decide_eq_true (by omega))]

theorem restCount?_eq_some_iff {s : Signature} {n rest : Nat} (h : Form s.params) :
    s.restCount? n = some rest ↔ s.Leaves n rest := by
  obtain ⟨params⟩ := s
  change Form params at h
  cases h with
  | fixed kinds => exact restCount?_fixed_iff
  | around front v back => exact restCount?_around_iff

/-! ### The slot of an argument -/

theorem slot_of_getElem? {s : Signature} {rest i : Nat} {slot : Slot}
    (h : s.params[s.paramAt rest i]?.map Param.slot = some slot) : s.slot rest i = slot := by
  rw [Signature.slot, h, Option.getD_some]

theorem getElem?_fixed (kinds : List ParamKind) (i : Nat) :
    (kinds.map Param.fixed)[i]?.map Param.slot = (kinds.map fun k => ⟨k, false⟩)[i]? := by
  rw [← List.getElem?_map, List.map_map]
  rfl

/-- The arguments in front of the variadic ones are dealt out by their number, and those behind them
by their number from the end. -/
theorem getElem?_around (front : List ParamKind) (v : Variadic) (back : List ParamKind)
    (rest i : Nat) :
    (around front v back)[paramAt ⟨around front v back⟩ rest i]?.map Param.slot
      = ((around front v back).flatMap (Param.slots rest))[i]? := by
  rw [paramAt, variadicAt?_around, flatMap_around]
  dsimp only
  by_cases hfront : i < front.length
  · rw [if_neg (by omega), if_neg (by omega), around,
      List.getElem?_append_left (by rwa [List.length_map]), getElem?_fixed,
      List.getElem?_append_left (by rwa [List.length_map])]
  · rw [List.getElem?_append_right (by rw [List.length_map]; omega), List.length_map]
    by_cases hrest : i < front.length + rest
    · rw [if_pos ⟨by omega, hrest⟩, around,
        List.getElem?_append_right (Nat.le_of_eq (List.length_map _)), List.length_map, Nat.sub_self,
        List.getElem?_append_left (by rw [List.length_replicate]; omega),
        List.getElem?_replicate_of_lt (by omega)]
      rfl
    · have hbehind : i + 1 - rest - front.length = i - front.length - rest + 1 := by omega
      rw [if_neg (by omega), if_pos (by omega), around,
        List.getElem?_append_right (by rw [List.length_map]; omega), List.length_map, hbehind,
        List.getElem?_cons_succ, getElem?_fixed,
        List.getElem?_append_right (by rw [List.length_replicate]; omega), List.length_replicate]

/-- The parameter of an argument has the argument's slot. -/
theorem getElem?_slots {s : Signature} {n rest : Nat} (h : Form s.params) (hn : s.Leaves n rest)
    (i : Nat) : s.params[s.paramAt rest i]?.map Param.slot
      = (s.params.flatMap (Param.slots rest))[i]? := by
  obtain ⟨params⟩ := s
  change Form params at h
  cases h with
  | fixed kinds =>
      have hnone : variadicAt? ⟨kinds.map .fixed⟩ = none := findIdx?_fixed kinds
      rw [hn.none (variadic_notMem_fixed kinds), paramAt, hnone, flatMap_fixed]
      exact getElem?_fixed kinds i
  | around front v back => exact getElem?_around front v back rest i

theorem length_slots {s : Signature} {n rest : Nat} (h : Form s.params) (hn : s.Leaves n rest) :
    (s.params.flatMap (Param.slots rest)).length = n := by
  obtain ⟨params⟩ := s
  have hcount := hn.count
  change Form params at h
  change n = params.countP _ + rest at hcount
  cases h with
  | fixed kinds =>
      rw [hn.none (variadic_notMem_fixed kinds), countP_fixed] at hcount
      rw [flatMap_fixed, List.length_map, hcount, Nat.add_zero]
  | around front v back =>
      rw [countP_around] at hcount
      rw [flatMap_around, List.length_append, List.length_append, List.length_map,
        List.length_replicate, List.length_map, hcount]
      omega

theorem map_slot {s : Signature} {n rest : Nat} (h : Form s.params) (hn : s.Leaves n rest) :
    (List.range n).map (s.slot rest) = s.params.flatMap (Param.slots rest) := by
  have hlength := length_slots h hn
  refine List.ext_getElem (by rw [List.length_map, List.length_range, hlength]) fun i hi hi' => ?_
  rw [List.getElem_map, List.getElem_range]
  exact slot_of_getElem? ((getElem?_slots h hn i).trans (List.getElem?_eq_getElem hi'))

/-- The slots of a call are those that its parameters give. -/
theorem slots?_eq {s : Signature} {n rest : Nat} (h : Form s.params) (hn : s.Leaves n rest) :
    s.slots? n = some (s.params.flatMap (Param.slots rest)) := by
  rw [slots?, (restCount?_eq_some_iff h).mpr hn, Option.map_some, map_slot h hn]

/-! ### Ranks -/

theorem any_zipWith_iff {slots : List Slot} {args : List Value}
    {p : Slot × ParamKind.Fit → Bool} :
    (slots.zipWith (fun slot v => (slot, slot.kind.fit v)) args).any p = true
      ↔ ∃ slot v, (slot, v) ∈ slots.zip args ∧ p (slot, slot.kind.fit v) = true := by
  rw [← List.map_uncurry_zip_eq_zipWith, List.any_map, List.any_eq_true, Prod.exists]
  rfl

theorem coerced_iff {slots : List Slot} {args : List Value} :
    (slots.zipWith (fun slot v => (slot, slot.kind.fit v)) args).any
        (fun (slot, fit) => fit = .coerced && !slot.isVariadic) = true
      ↔ ∃ slot v, (slot, v) ∈ slots.zip args ∧ slot.isVariadic = false
        ∧ slot.kind.fit v = .coerced := by
  rw [any_zipWith_iff]
  refine exists_congr fun slot => exists_congr fun v => and_congr_right fun _ => ?_
  rw [Bool.and_eq_true, decide_eq_true_iff, Bool.not_eq_true', and_comm]

theorem fits_iff {slots : List Slot} {args : List Value} (h : slots.length = args.length) :
    List.Forall₂ (fun slot v => slot.kind.fit v ≠ .rejected) slots args
      ↔ ¬(slots.zipWith (fun slot v => (slot, slot.kind.fit v)) args).any (·.2 = .rejected) = true := by
  rw [any_zipWith_iff, List.forall₂_iff_zip, and_iff_right h]
  constructor
  · rintro hfits ⟨slot, v, hmem, hrejected⟩
    exact hfits hmem (of_decide_eq_true hrejected)
  · intro hnone slot v hmem hrejected
    exact hnone ⟨slot, v, hmem, decide_eq_true hrejected⟩

theorem window_iff {params : List Param} {window : Nat} (h : Form params) :
    window = (variadic? ⟨params⟩).elim 0 Variadic.window
      ↔ (∀ v, Param.variadic v ∈ params → window = v.window)
        ∧ ((∀ v, Param.variadic v ∉ params) → window = 0) := by
  cases h with
  | fixed kinds =>
      have hnone : variadic? ⟨kinds.map .fixed⟩ = none := findSome?_fixed kinds
      have hnot := variadic_notMem_fixed kinds
      rw [hnone, Option.elim_none]
      constructor
      · exact fun hzero => ⟨fun v hv => absurd hv (hnot v), fun _ => hzero⟩
      · exact fun hwindow => hwindow.2 hnot
  | around front v back =>
      have hmem := (variadic_mem_around front v back).mpr rfl
      rw [variadic?_around, Option.elim_some]
      constructor
      · intro hwindow
        refine ⟨fun w hw => ?_, fun hnone => absurd hmem (hnone v)⟩
        rw [(variadic_mem_around front v back).mp hw, hwindow]
      · exact fun hwindow => hwindow.1 v hmem

/-- The score of a signature is its rank by the slots that its parameters give. -/
theorem score?_eq_some_iff {s : Signature} {args : List Value} {rank : Score}
    (h : Form s.params) : s.score? args = some rank ↔ s.Ranks args rank := by
  constructor
  · intro hsome
    obtain ⟨slots, hslots, hrank⟩ := Option.bind_eq_some_iff.mp hsome
    obtain ⟨rest, hcount, -⟩ := Option.map_eq_some_iff.mp hslots
    have hrest := (restCount?_eq_some_iff h).mp hcount
    rw [slots?_eq h hrest] at hslots
    cases hslots
    obtain ⟨haccepted, hrank⟩ := Option.ite_none_left_eq_some.mp hrank
    cases hrank
    have hwindow := (window_iff h).mp rfl
    exact ⟨rest, ⟨hrest, (fits_iff (length_slots h hrest)).mpr haccepted⟩, coerced_iff, hwindow.1,
      hwindow.2⟩
  · rintro ⟨rest, ⟨hrest, hfits⟩, hcoerced, hwindow, hnarrow⟩
    have haccepted := (fits_iff (length_slots h hrest)).mp hfits
    have hrank := Bool.eq_iff_iff.mpr (coerced_iff.trans hcoerced.symm)
    refine Option.bind_eq_some_iff.mpr ⟨_, slots?_eq h hrest, (if_neg haccepted).trans ?_⟩
    rw [hrank, ← (window_iff h).mpr ⟨hwindow, hnarrow⟩]
    rfl

theorem exists_ranks_iff {s : Signature} {args : List Value} (h : Form s.params) :
    (∃ rank, s.Ranks args rank) ↔ ∃ rest, s.Matches args rest := by
  constructor
  · rintro ⟨_, rest, hranks⟩
    exact ⟨rest, hranks.fits⟩
  · rintro ⟨rest, hmatch⟩
    obtain ⟨hwindow, hnarrow⟩ := (window_iff h).mp rfl
    exact ⟨⟨_, _⟩, rest, hmatch, coerced_iff, hwindow, hnarrow⟩

end Signature

end MatrixScript
