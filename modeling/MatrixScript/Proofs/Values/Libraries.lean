import MatrixScript.Environment
import MatrixScript.Value.Basic
import MatrixScript.Library.Standard
import MatrixScript.Proofs.Values.Operations

/-!
# Well-formed environments and libraries

A property that every bound value has in every scope is kept by binding a value that has it, and by
whatever only opens, closes or clears scopes. Environments are well-formed when all values bound in
them are.

A library is sound when its constants are well-formed and its functions, called with well-formed
arguments, keep the variables well-formed and give nothing else. Arguments are converted to the
kinds of their slots before a function sees them, and a conversion of a well-formed value gives one.
-/

namespace MatrixScript

def Scope.WellFormed (s : Scope) : Prop := ∀ b ∈ s, b.2.WellFormed

/-- All bindings of all scopes are well-formed, the hidden ones included. -/
def Environment.WellFormed (e : Environment) : Prop := ∀ s ∈ e.scopes, s.WellFormed

theorem Capture.allWellFormed_iff {captures : List Capture} :
    Capture.AllWellFormed captures ↔ ∀ c ∈ captures, c.value.WellFormed := by
  induction captures with
  | nil => exact ⟨fun _ => nofun, fun _ => trivial⟩
  | cons c captures ih =>
      obtain ⟨name, v⟩ := c
      rw [List.forall_mem_cons, ← ih]
      rfl

theorem Series.allWellFormed_iff {series : List Series} :
    Series.AllWellFormed series ↔ ∀ s ∈ series, s.WellFormed := by
  induction series with
  | nil => exact ⟨fun _ => nofun, fun _ => trivial⟩
  | cons s series ih =>
      rw [List.forall_mem_cons, ← ih]
      rfl

/-- Every value that is bound in some scope has the property, the hidden ones included. -/
def Environment.Each (p : Value → Prop) (e : Environment) : Prop := ∀ s ∈ e.scopes, ∀ b ∈ s, p b.2

variable {p : Value → Prop} {name : String} {v : Value}

namespace Scope

variable {s : Scope}

theorem each_lookup (h : ∀ b ∈ s, p b.2) (hv : s.lookup name = some v) : p v := by
  obtain ⟨b, hb, rfl⟩ := Option.map_eq_some_iff.mp hv
  exact h b (List.mem_of_find?_eq_some hb)

theorem each_erase (h : ∀ b ∈ s, p b.2) (name : String) : ∀ b ∈ s.erase name, p b.2 :=
  fun b hb => h b (List.mem_filter.mp hb).1

theorem each_define (h : ∀ b ∈ s, p b.2) (name : String) (hv : p v) :
    ∀ b ∈ s.define name v, p b.2 :=
  List.forall_mem_cons.mpr ⟨hv, each_erase h name⟩

end Scope

namespace Environment

variable {e : Environment}

theorem each_iff :
    e.Each p ↔ (∀ b ∈ e.innermost, p b.2) ∧ ∀ s ∈ e.outer, ∀ b ∈ s, p b.2 :=
  List.forall_mem_cons

theorem each_empty : empty.Each p := each_iff.mpr ⟨nofun, nofun⟩

namespace Each

theorem lookup (h : e.Each p) (hv : e.lookup name = some v) : p v := by
  obtain ⟨s, hs, hv⟩ := List.exists_of_findSome?_eq_some hv
  exact Scope.each_lookup (h s hs) hv

theorem define (h : e.Each p) (name : String) (hv : p v) : (e.define name v).Each p :=
  each_iff.mpr ⟨Scope.each_define (each_iff.mp h).1 name hv, (each_iff.mp h).2⟩

theorem push (h : e.Each p) : e.push.Each p := each_iff.mpr ⟨nofun, h⟩

theorem pop (h : e.Each p) : e.pop.Each p := by
  have houter := (each_iff.mp h).2
  unfold Environment.pop
  split
  · exact h
  · rename_i s rest hscopes
    rw [hscopes] at houter
    exact each_iff.mpr (List.forall_mem_cons.mp houter)

theorem clear (h : e.Each p) : e.clear.Each p := each_iff.mpr ⟨nofun, (each_iff.mp h).2⟩

theorem eraseFirst {scopes : List Scope} (h : ∀ s ∈ scopes, ∀ b ∈ s, p b.2) (name : String) :
    ∀ s ∈ Environment.eraseFirst name scopes, ∀ b ∈ s, p b.2 := by
  induction scopes with
  | nil => exact h
  | cons s scopes ih =>
      obtain ⟨hs, hrest⟩ := List.forall_mem_cons.mp h
      unfold Environment.eraseFirst
      split
      · exact List.forall_mem_cons.mpr ⟨Scope.each_erase hs name, hrest⟩
      · exact List.forall_mem_cons.mpr ⟨hs, ih hrest⟩

theorem erase (h : e.Each p) (name : String) : (e.erase name).Each p := by
  obtain ⟨hinnermost, houter⟩ := each_iff.mp h
  unfold Environment.erase
  split
  · exact each_iff.mpr ⟨Scope.each_erase hinnermost name, houter⟩
  · exact each_iff.mpr ⟨hinnermost, eraseFirst houter name⟩

theorem capture (h : e.Each p) (names : List String) : ∀ c ∈ e.capture names, p c.value := by
  intro c hc
  obtain ⟨name, -, hname⟩ := List.mem_filterMap.mp hc
  obtain ⟨v, hv, rfl⟩ := Option.map_eq_some_iff.mp hname
  exact h.lookup hv

end Each

theorem wellFormed_empty : empty.WellFormed := each_empty

theorem WellFormed.lookup (h : e.WellFormed) (hv : e.lookup name = some v) : v.WellFormed :=
  Each.lookup h hv

theorem WellFormed.define (h : e.WellFormed) (name : String) (hv : v.WellFormed) :
    (e.define name v).WellFormed :=
  Each.define h name hv

theorem WellFormed.push (h : e.WellFormed) : e.push.WellFormed := Each.push h

theorem WellFormed.pop (h : e.WellFormed) : e.pop.WellFormed := Each.pop h

theorem WellFormed.clear (h : e.WellFormed) : e.clear.WellFormed := Each.clear h

theorem WellFormed.erase (h : e.WellFormed) (name : String) : (e.erase name).WellFormed :=
  Each.erase h name

theorem WellFormed.capture (h : e.WellFormed) (names : List String) :
    Capture.AllWellFormed (e.capture names) :=
  Capture.allWellFormed_iff.mpr (Each.capture h names)

end Environment

/-! ### Arguments -/

structure Arguments.WellFormed (args : Arguments) : Prop where
  fixed : ∀ v ∈ args.fixed, v.WellFormed
  rest : ∀ v ∈ args.rest, v.WellFormed

theorem Signature.wellFormed_bind (s : Signature) {args : List Value}
    (h : ∀ v ∈ args, v.WellFormed) : (s.bind args).WellFormed := by
  have hbound : ∀ b ∈ ((s.slots? args.length).getD []).zipWith
      (fun slot v => (slot.isVariadic, slot.kind.coerce v)) args, b.2.WellFormed := by
    intro b hb
    rw [← List.map_uncurry_zip_eq_zipWith] at hb
    obtain ⟨⟨slot, v⟩, hmem, rfl⟩ := List.mem_map.mp hb
    exact (h v (List.of_mem_zip hmem).2).coerce slot.kind
  constructor
  · intro v hv
    obtain ⟨b, hb, rfl⟩ := List.mem_map.mp hv
    exact hbound b (List.mem_filter.mp hb).1
  · intro v hv
    obtain ⟨b, hb, rfl⟩ := List.mem_map.mp hv
    exact hbound b (List.mem_filter.mp hb).1

namespace Arguments

variable {args : Arguments}

/-- What is read from an argument has every property that reading any well-formed value has. -/
theorem read_yields {α : Type} {P : α → Prop} {f : Value → Option α} (h : args.WellFormed)
    (hread : ∀ v x, v.WellFormed → f v = some x → P x) (expected : String) (k : Nat) :
    Yields (args.read expected f k) P := by
  unfold read
  split
  · rename_i x hx
    obtain ⟨v, hv, hfx⟩ := Option.bind_eq_some_iff.mp hx
    exact yields_ok (hread v x (h.fixed v (List.mem_of_getElem? hv)) hfx)
  · exact yields_error _

theorem matrix_yields (h : args.WellFormed) (k : Nat) :
    Yields (args.matrix k) Matrix.WellFormed := by
  refine read_yields h (fun v m hv hm => ?_) _ k
  cases v <;> cases hm
  exact hv

theorem set_yields (h : args.WellFormed) (k : Nat) :
    Yields (args.set k) ElementSet.WellFormed := by
  refine read_yields h (fun v s hv hs => ?_) _ k
  cases v <;> cases hs
  exact hv

theorem plot_yields (h : args.WellFormed) (k : Nat) :
    Yields (args.plot k) fun p => Series.AllWellFormed p.2 := by
  refine read_yields h (fun v p hv hp => ?_) _ k
  cases v <;> cases hp
  exact hv

theorem wellFormed_of_get? (h : args.WellFormed) {k : Nat} {v : Value}
    (hv : args.get? k = some v) : v.WellFormed :=
  h.fixed v (List.mem_of_getElem? hv)

end Arguments

/-! ### Functions -/

/-- Well-formed arguments give a well-formed value, and variables stay well-formed. -/
def Native.Sound (f : Native) : Prop :=
  ∀ name args, args.WellFormed → Keeps Environment.WellFormed (f name args) Value.WellFormed

theorem Native.Sound.ofResult {f : Arguments → Result Value}
    (h : ∀ args, args.WellFormed → Yields (f args) Value.WellFormed) :
    Native.Sound (.ofResult f) :=
  fun _ args hargs _ he => ⟨he, h args hargs⟩

def Overload.Sound (o : Overload) : Prop := Native.Sound o.run

/-- All overloads of all functions of a table are sound. -/
def SoundTable (table : List (String × List Overload)) : Prop := ∀ f ∈ table, ∀ o ∈ f.2, o.Sound

theorem soundTable_nil : SoundTable [] := List.forall_mem_nil _

theorem soundTable_cons {f : String × List Overload} {table : List (String × List Overload)} :
    SoundTable (f :: table) ↔ (∀ o ∈ f.2, o.Sound) ∧ SoundTable table :=
  List.forall_mem_cons

theorem SoundTable.append {table more : List (String × List Overload)} (h : SoundTable table)
    (hmore : SoundTable more) : SoundTable (table ++ more) :=
  List.forall_mem_append.mpr ⟨h, hmore⟩

structure Library.Sound (l : Library) : Prop where
  functions : SoundTable l.functions
  constants : ∀ c ∈ l.constants, c.2.WellFormed

theorem Overload.Sound.fixed {kinds : List Kind} {f : Arguments → Result Value}
    (h : ∀ args, args.WellFormed → Yields (f args) Value.WellFormed) :
    Overload.Sound (.fixed kinds f) :=
  Native.Sound.ofResult h

namespace Overload

variable {overloads : List Overload} {args : List Value} {best : Option Lead} {o : Overload}

theorem overload_of_meet {lead : Lead} (h : meet args best o = some lead) :
    lead.overload = o ∨ ∃ earlier, best = some earlier ∧ lead.overload = earlier.overload := by
  unfold meet at h
  split at h
  · exact .inr ⟨lead, h, rfl⟩
  · split at h
    · cases h
      exact .inl rfl
    · rename_i earlier
      split at h
      · exact .inr ⟨lead, h, rfl⟩
      · split at h
        · cases h
          exact .inr ⟨earlier, rfl, rfl⟩
        · cases h
          exact .inl rfl

theorem mem_of_foldl_meet {lead : Lead} (h : overloads.foldl (meet args) best = some lead) :
    lead.overload ∈ overloads ∨ ∃ earlier, best = some earlier ∧ lead.overload = earlier.overload := by
  induction overloads generalizing best with
  | nil => exact .inr ⟨lead, h, rfl⟩
  | cons o rest ih =>
      rcases ih h with hrest | ⟨earlier, hmeet, heq⟩
      · exact .inl (List.mem_cons_of_mem o hrest)
      · rw [heq]
        rcases overload_of_meet hmeet with rfl | hbest
        · exact .inl List.mem_cons_self
        · exact .inr hbest

theorem select_mem {name : String} (h : select name overloads args = .ok o) : o ∈ overloads := by
  unfold select at h
  split at h
  · cases h
  · rename_i lead hlead
    split at h
    · cases h
    · cases h
      rcases mem_of_foldl_meet hlead with hmem | ⟨_, hnone, -⟩
      · exact hmem
      · cases hnone

end Overload

namespace Library

variable {l : Library} {name : String}

theorem Sound.overloads (h : l.Sound) {o : Overload} (ho : o ∈ l.overloads name) : o.Sound := by
  unfold Library.overloads at ho
  cases hfound : l.functions.find? (·.1 == name) with
  | none =>
      rw [hfound] at ho
      cases ho
  | some f =>
      rw [hfound] at ho
      exact h.functions f (List.mem_of_find?_eq_some hfound) o ho

theorem Sound.call (h : l.Sound) (name : String) {args : List Value}
    (hargs : ∀ v ∈ args, v.WellFormed) :
    Keeps Environment.WellFormed (l.call name args) Value.WellFormed := by
  unfold Library.call
  split
  · exact keeps_throw _
  · split
    · exact keeps_throw _
    · rename_i o hselect
      exact h.overloads (Overload.select_mem hselect) name _ (o.signature.wellFormed_bind hargs)

theorem Sound.constant? (h : l.Sound) {v : Value} (hv : l.constant? name = some v) :
    v.WellFormed := by
  obtain ⟨c, hc, rfl⟩ := Option.map_eq_some_iff.mp hv
  exact h.constants c (List.mem_of_find?_eq_some hc)

end Library

end MatrixScript
