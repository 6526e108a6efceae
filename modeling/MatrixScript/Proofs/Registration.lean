import Mathlib.Data.List.Nodup
import MatrixScript.Evaluation.Evaluator
import MatrixScript.Library.Standard
import MatrixScript.Proofs.Values.Keeping

/-!
# Registration in a library

Functions and constants stand in two tables, and two paths look names up: a name that is read as a
value is looked for among the constants first, a name that is called among the functions first. They
agree because registering keeps every name out of one of the tables. It also keeps the overloads of
a function apart, and lets only such signatures in that some call can match.
-/

namespace MatrixScript

/-- At most one variadic slot, whose counts go up in steps and do not end before they start. -/
structure Signature.Valid (s : Signature) : Prop where
  single : s.params.countP (·.variadic?.isSome) ≤ 1
  step : ∀ v, Param.variadic v ∈ s.params → v.step ≠ 0
  bounds : ∀ v, Param.variadic v ∈ s.params → ∀ most, v.most = some most → v.least ≤ most

namespace Signature

theorem mem_variadics {s : Signature} {v : Variadic} :
    v ∈ s.params.filterMap Param.variadic? ↔ Param.variadic v ∈ s.params := by
  rw [List.mem_filterMap]
  constructor
  · rintro ⟨p, hp, hv⟩
    cases p with
    | fixed k => cases hv
    | variadic w =>
        cases hv
        exact hp
  · intro hv
    exact ⟨_, hv, rfl⟩

theorem valid_iff_variadics {s : Signature} :
    s.Valid ↔ (s.params.filterMap Param.variadic?).length ≤ 1
      ∧ ∀ v ∈ s.params.filterMap Param.variadic?, v.step ≠ 0
        ∧ ∀ most, v.most = some most → v.least ≤ most := by
  rw [List.length_filterMap_eq_countP]
  constructor
  · intro h
    refine ⟨h.single, fun v hv => ?_⟩
    rw [mem_variadics] at hv
    exact ⟨h.step v hv, h.bounds v hv⟩
  · rintro ⟨hsingle, hslot⟩
    refine ⟨hsingle, fun v hv => ?_, fun v hv => ?_⟩
    · exact (hslot v (mem_variadics.mpr hv)).1
    · exact (hslot v (mem_variadics.mpr hv)).2

theorem validate_eq_ok_iff {s : Signature} (name : String) :
    s.validate name = .ok () ↔ s.Valid := by
  rw [valid_iff_variadics, validate]
  split
  · rename_i hnone
    simp [hnone]
  · rename_i v hsingle
    have hmost : v.most.any (· < v.least) = true ↔ ∃ most, v.most = some most ∧ most < v.least := by
      simp [Option.any_eq_true]
    rw [hsingle]
    by_cases hstep : v.step = 0
    · simp [hstep]
    · by_cases hany : v.most.any (· < v.least) = true
      · obtain ⟨most, hmost, hless⟩ := hmost.mp hany
        have hbad : ¬v.least ≤ most := Nat.not_le.mpr hless
        simp [hstep, hmost, hbad]
      · have hbounds : ∀ most, v.most = some most → v.least ≤ most := by
          intro most hsome
          by_contra hless
          exact hany (hmost.mpr ⟨most, hsome, Nat.not_le.mp hless⟩)
        simpa [hstep, hany] using hbounds
  · rename_i hnone hsingle
    refine iff_of_false nofun ?_
    rintro ⟨hlength, -⟩
    match hslots : s.params.filterMap Param.variadic? with
    | [] => exact hnone hslots
    | [v] => exact hsingle v hslots
    | _ :: _ :: _ =>
        rw [hslots] at hlength
        simp at hlength

instance (s : Signature) : Decidable s.Valid := decidable_of_iff _ (s.validate_eq_ok_iff "")

end Signature

namespace Library

inductive Registration where
  | function (name : String) (overload : Overload)
  | constant (name : String) (value : Value)

/-- What registering an entry does to the tables. -/
def Registration.add : Registration → Registering Unit
  | .function name o => addFunction name o
  | .constant name v => addConstant name v

def enter (l : Library) : Registration → Result Library
  | .function name o => l.register name o
  | .constant name v => l.registerConstant name v

/-- The library after registering something, whether that succeeds or fails. -/
def attempt (l : Library) (entry : Registration) : Library := (entry.add.run.run l).2

/-- The overloads and the constants that have been registered under their names, in this order. -/
structure Log where
  overloads : List (String × Overload)
  constants : List (String × Value)

namespace Log

def functionNames (log : Log) : List String := log.overloads.map (·.1)

def constantNames (log : Log) : List String := log.constants.map (·.1)

/-- The signatures under the names of their functions. -/
def signatures (log : Log) : List (String × Signature) :=
  log.overloads.map fun f => (f.1, f.2.signature)

/-- What stands in the way of a registration: a signature that is not valid, a name of the other
kind, or a constant or a signature that is registered already. -/
def Refuses (log : Log) : Registration → Prop
  | .function name o =>
    ¬o.signature.Valid ∨ name ∈ log.constantNames ∨ (name, o.signature) ∈ log.signatures
  | .constant name _ => name ∈ log.functionNames ∨ name ∈ log.constantNames

instance (log : Log) : DecidablePred log.Refuses
  | .function .. => inferInstanceAs (Decidable (_ ∨ _ ∨ _))
  | .constant .. => inferInstanceAs (Decidable (_ ∨ _))

def adding (log : Log) : Registration → Log
  | .function name o => { log with overloads := log.overloads ++ [(name, o)] }
  | .constant name v => { log with constants := log.constants ++ [(name, v)] }

/-- Whatever is not refused is added. -/
def record (log : Log) (entry : Registration) : Log :=
  if log.Refuses entry then log else log.adding entry

/-- The tables hold what the log says. -/
structure Describes (log : Log) (l : Library) : Prop where
  functions : ∀ name, l.hasFunction name = true ↔ name ∈ log.functionNames
  overloads : ∀ name, l.overloads name = (log.overloads.filter (·.1 == name)).map (·.2)
  constants : ∀ name v, l.constant? name = some v ↔ (name, v) ∈ log.constants

/-- No name is of both kinds, and nothing has been registered twice or with a signature that is not
valid. -/
structure Coherent (log : Log) : Prop where
  apart : ∀ name ∈ log.functionNames, name ∉ log.constantNames
  distinct : log.signatures.Nodup
  valid : ∀ f ∈ log.overloads, f.2.signature.Valid
  single : log.constantNames.Nodup

end Log

/-- The log of a library to start from. -/
def log (l : Library) : Log := ⟨l.functions.flatMap fun f => f.2.map (f.1, ·), l.constants⟩

/-- No name is both a constant and a function, and the overloads of a function have different valid
signatures. -/
structure Coherent (l : Library) : Prop where
  apart : ∀ name, l.hasFunction name = true → l.constant? name = none
  distinct : ∀ name, ((l.overloads name).map (·.signature)).Nodup
  valid : ∀ name, ∀ o ∈ l.overloads name, o.signature.Valid

variable {l l' : Library} {name other : String} {o : Overload} {v : Value} {log : Log}
  {entry : Registration}

/-! ### Registering -/

theorem enter_eq_ok_iff : l.enter entry = .ok l' ↔ entry.add.run.run l = (.ok (), l') := by
  cases entry <;> exact run_seqRight_get_eq_ok_iff

/-- An entry of the table once the function has one more overload. -/
def extended (name : String) (o : Overload) (f : String × List Overload) :
    String × List Overload :=
  (f.1, if f.1 = name then f.2 ++ [o] else f.2)

theorem functions_insert_of_hasFunction (h : l.hasFunction name = true) :
    (l.insert name o).functions = l.functions.map (extended name o) := by
  rw [insert, if_pos h]
  apply List.map_congr_left
  intro f hf
  by_cases hname : f.1 = name <;> simp [extended, hname]

theorem functions_insert_of_not_hasFunction (h : l.hasFunction name = false) :
    (l.insert name o).functions = l.functions ++ [(name, [o])] := by
  simp [insert, h]

theorem hasFunction_eq_isSome : l.hasFunction name = (l.functions.find? (·.1 == name)).isSome := by
  rw [hasFunction, Bool.eq_iff_iff, List.find?_isSome, List.any_eq_true]

theorem find?_eq_none_of_not_hasFunction (h : l.hasFunction name = false) :
    l.functions.find? (·.1 == name) = none := by
  rwa [hasFunction_eq_isSome, Option.isSome_eq_false_iff, Option.isNone_iff_eq_none] at h

theorem hasFunction_insert :
    (l.insert name o).hasFunction other = (l.hasFunction other || name == other) := by
  cases hname : l.hasFunction name with
  | true =>
      rw [hasFunction, functions_insert_of_hasFunction hname, List.any_map]
      change l.hasFunction other = _
      by_cases hother : name = other
      · rw [← hother, hname, Bool.true_or]
      · simp [hother]
  | false =>
      rw [hasFunction, functions_insert_of_not_hasFunction hname]
      simp [hasFunction]

/-- Only the overloads under the name change, by one behind the others. -/
theorem overloads_insert :
    (l.insert name o).overloads other
      = if name = other then l.overloads other ++ [o] else l.overloads other := by
  cases hname : l.hasFunction name with
  | true =>
      have hfind : ((l.functions.map (extended name o)).find? (·.1 == other))
          = (l.functions.find? (·.1 == other)).map (extended name o) := by
        rw [List.find?_map]
        rfl
      rw [overloads, functions_insert_of_hasFunction hname, hfind, overloads]
      cases hfound : l.functions.find? (·.1 == other) with
      | none =>
          have hneq : name ≠ other := by
            rintro rfl
            rw [hasFunction_eq_isSome, hfound] at hname
            cases hname
          simp [hneq]
      | some f =>
          have hkey : f.1 = other := by simpa using List.find?_some hfound
          by_cases heq : name = other
          · simp [extended, hkey, heq]
          · simp [extended, hkey, heq, Ne.symm heq]
  | false =>
      rw [overloads, functions_insert_of_not_hasFunction hname, List.find?_append, overloads]
      by_cases heq : name = other
      · subst heq
        simp [find?_eq_none_of_not_hasFunction hname]
      · simp [heq]

theorem constant?_append :
    constant? { l with constants := l.constants ++ [(name, v)] } other
      = (l.constant? other).or (if name = other then some v else none) := by
  rw [constant?, List.find?_append, Option.map_or]
  by_cases hname : name = other <;> simp [constant?, hname]

theorem constant?_insert : (l.insert name o).constant? other = l.constant? other := by
  rw [insert]
  split <;> rfl

/-- The library with one more entry. -/
def adding (l : Library) : Registration → Library
  | .function name o => l.insert name o
  | .constant name v => { l with constants := l.constants ++ [(name, v)] }

theorem run_addFunction_of_valid (hvalid : o.signature.Valid) :
    (addFunction name o).run.run l
      = if (l.constant? name).isSome || (l.overloads name).any (·.signature = o.signature) then
          (.error (.duplicateRegistration (name ++ o.signature.text)), l)
        else (.ok (), l.insert name o) := by
  have hvalidate : (liftM (o.signature.validate name) : Registering Unit).run.run l
      = (.ok (), l) := by
    rw [(Signature.validate_eq_ok_iff name).mpr hvalid]
    rfl
  have hget : (get : Registering Library).run.run l = (.ok l, l) := rfl
  rw [addFunction, run_bind_of_ok hvalidate, run_bind_of_ok hget]
  split <;> rfl

theorem run_addFunction_of_not_valid (hvalid : ¬o.signature.Valid) :
    ∃ e, (addFunction name o).run.run l = (.error e, l) := by
  cases hsignature : o.signature.validate name with
  | ok u => exact absurd ((Signature.validate_eq_ok_iff name).mp hsignature) hvalid
  | error e =>
      have hvalidate : (liftM (o.signature.validate name) : Registering Unit).run.run l
          = (.error e, l) := by
        rw [hsignature]
        rfl
      exact ⟨e, run_bind_of_error hvalidate⟩

theorem run_addConstant :
    (addConstant name v).run.run l
      = if (l.constant? name).isSome || l.hasFunction name then
          (.error (.duplicateRegistration name), l)
        else (.ok (), { l with constants := l.constants ++ [(name, v)] }) := by
  have hget : (get : Registering Library).run.run l = (.ok l, l) := rfl
  rw [addConstant, run_bind_of_ok hget]
  split <;> rfl

namespace Log.Describes

variable (h : log.Describes l)

include h

theorem constant?_isSome_iff : (l.constant? name).isSome = true ↔ name ∈ log.constantNames := by
  rw [Option.isSome_iff_exists, constantNames, List.mem_map]
  constructor
  · rintro ⟨v, hv⟩
    exact ⟨_, (h.constants name v).mp hv, rfl⟩
  · rintro ⟨⟨other, v⟩, hmem, rfl⟩
    exact ⟨v, (h.constants other v).mpr hmem⟩

theorem mem_overloads_iff : o ∈ l.overloads name ↔ (name, o) ∈ log.overloads := by
  simp [h.overloads]

theorem any_overloads_iff {signature : Signature} :
    (l.overloads name).any (·.signature = signature) = true ↔ (name, signature) ∈ log.signatures := by
  simp [h.mem_overloads_iff, signatures]

/-- What the log refuses fails, and leaves no trace. -/
theorem run_add_of_refuses (hrefuses : log.Refuses entry) :
    ∃ e, entry.add.run.run l = (.error e, l) := by
  cases entry with
  | function name o =>
      by_cases hvalid : o.signature.Valid
      · have htaken := (Or.resolve_left hrefuses) (not_not.mpr hvalid)
        rw [← h.constant?_isSome_iff, ← h.any_overloads_iff, ← Bool.or_eq_true] at htaken
        exact ⟨_, (run_addFunction_of_valid hvalid).trans (if_pos htaken)⟩
      · exact run_addFunction_of_not_valid hvalid
  | constant name v =>
      have htaken := hrefuses.symm
      rw [← h.constant?_isSome_iff, ← h.functions, ← Bool.or_eq_true] at htaken
      exact ⟨_, run_addConstant.trans (if_pos htaken)⟩

theorem run_add_of_admits (hadmits : ¬log.Refuses entry) :
    entry.add.run.run l = (.ok (), l.adding entry) := by
  cases entry with
  | function name o =>
      obtain ⟨hvalid, hfree⟩ := not_or.mp hadmits
      rw [← h.constant?_isSome_iff, ← h.any_overloads_iff, ← Bool.or_eq_true] at hfree
      exact (run_addFunction_of_valid (not_not.mp hvalid)).trans (if_neg hfree)
  | constant name v =>
      have hfree := mt Or.symm hadmits
      rw [← h.constant?_isSome_iff, ← h.functions, ← Bool.or_eq_true] at hfree
      exact run_addConstant.trans (if_neg hfree)

theorem adding (hadmits : ¬log.Refuses entry) : (log.adding entry).Describes (l.adding entry) := by
  cases entry with
  | function name o =>
      refine ⟨fun other => ?_, fun other => ?_, fun other v => ?_⟩
      · rw [Library.adding, hasFunction_insert, Bool.or_eq_true, h.functions, beq_iff_eq]
        simp [Log.adding, functionNames, eq_comm]
      · rw [Library.adding, overloads_insert, h.overloads]
        by_cases hname : name = other <;> simp [Log.adding, hname]
      · rw [Library.adding, constant?_insert]
        exact h.constants other v
  | constant name v =>
      obtain ⟨-, hnew⟩ := not_or.mp hadmits
      refine ⟨h.functions, h.overloads, fun other w => ?_⟩
      rw [Library.adding, Log.adding, List.mem_append, List.mem_singleton, Prod.mk.injEq,
        ← h.constants, constant?_append]
      by_cases hname : name = other
      · subst hname
        rw [← h.constant?_isSome_iff, Option.not_isSome_iff_eq_none] at hnew
        simp [hnew, eq_comm]
      · simp [hname, Ne.symm hname]

/-- The log and the library are extended by the same entry, or neither of them is. -/
theorem record (entry : Registration) : (log.record entry).Describes (l.attempt entry) := by
  by_cases hrefuses : log.Refuses entry
  · obtain ⟨e, hrun⟩ := h.run_add_of_refuses hrefuses
    rw [attempt, hrun, Log.record, if_pos hrefuses]
    exact h
  · rw [attempt, h.run_add_of_admits hrefuses, Log.record, if_neg hrefuses]
    exact h.adding hrefuses

/-- By induction on the entries. -/
theorem foldl_record (entries : List Registration) :
    (entries.foldl Log.record log).Describes (entries.foldl attempt l) := by
  induction entries generalizing l log with
  | nil => exact h
  | cons entry entries ih => exact ih (h.record entry)

theorem enter_error_iff (entry : Registration) :
    (∃ e, l.enter entry = .error e) ↔ log.Refuses entry := by
  have hok : (∃ l', l.enter entry = .ok l') ↔ ¬log.Refuses entry := by
    simp only [enter_eq_ok_iff]
    constructor
    · rintro ⟨l', hrun⟩ hrefuses
      obtain ⟨e, hfailed⟩ := h.run_add_of_refuses hrefuses
      cases hrun.symm.trans hfailed
    · exact fun hadmits => ⟨_, h.run_add_of_admits hadmits⟩
  rw [← not_iff_not, ← hok]
  cases l.enter entry with
  | ok l' => exact iff_of_true nofun ⟨l', rfl⟩
  | error e => exact iff_of_false (not_not.mpr ⟨e, rfl⟩) nofun

theorem attempt_of_error {e : Fault} (hentry : l.enter entry = .error e) : l.attempt entry = l := by
  obtain ⟨e', hrun⟩ := h.run_add_of_refuses ((h.enter_error_iff entry).mp ⟨e, hentry⟩)
  rw [attempt, hrun]

end Log.Describes

/-! ### Coherence -/

namespace Log.Coherent

variable (h : log.Coherent)

include h

theorem adding (hadmits : ¬log.Refuses entry) : (log.adding entry).Coherent := by
  cases entry with
  | function name o =>
      obtain ⟨hvalid, hconstant, hsignature⟩ : o.signature.Valid ∧ name ∉ log.constantNames
          ∧ (name, o.signature) ∉ log.signatures := by
        simpa [Refuses] using hadmits
      refine ⟨?_, ?_, ?_, h.single⟩
      · rw [Log.adding, functionNames, List.map_append, List.forall_mem_append]
        exact ⟨h.apart, List.forall_mem_singleton.mpr hconstant⟩
      · rw [Log.adding, signatures, List.map_append]
        exact h.distinct.append (List.nodup_singleton _) (List.disjoint_singleton.mpr hsignature)
      · rw [Log.adding, List.forall_mem_append]
        exact ⟨h.valid, List.forall_mem_singleton.mpr hvalid⟩
  | constant name v =>
      obtain ⟨hfunction, hconstant⟩ := not_or.mp hadmits
      refine ⟨fun other hother hmem => ?_, h.distinct, h.valid, ?_⟩
      · rw [Log.adding, constantNames, List.map_append, List.mem_append] at hmem
        rcases hmem with hmem | hmem
        · exact h.apart other hother hmem
        · obtain rfl : other = name := List.mem_singleton.mp hmem
          exact hfunction hother
      · rw [Log.adding, constantNames, List.map_append]
        exact h.single.append (List.nodup_singleton _) (List.disjoint_singleton.mpr hconstant)

theorem record (entry : Registration) : (log.record entry).Coherent := by
  rw [Log.record]
  split
  · exact h
  · rename_i hadmits
    exact h.adding hadmits

/-- By induction on the entries. -/
theorem foldl_record (entries : List Registration) :
    (entries.foldl Log.record log).Coherent := by
  induction entries generalizing log with
  | nil => exact h
  | cons entry entries ih => exact ih (h.record entry)

/-- A library that a coherent log describes. -/
theorem coherent (hlog : log.Describes l) : l.Coherent where
  apart name hname := by
    rw [← Option.not_isSome_iff_eq_none, hlog.constant?_isSome_iff]
    exact h.apart name ((hlog.functions name).mp hname)
  distinct name := by
    have hnodup := h.distinct.sublist ((List.filter_sublist (p := (·.1 == name))).map _)
    have hkey : ((log.overloads.filter (·.1 == name)).map fun f => (f.1, f.2.signature))
        = ((log.overloads.filter (·.1 == name)).map (·.2.signature)).map (name, ·) := by
      rw [List.map_map]
      refine List.map_congr_left fun f hf => ?_
      rw [Function.comp_apply, eq_of_beq (List.mem_filter.mp hf).2]
    rw [hlog.overloads, List.map_map]
    rw [hkey] at hnodup
    exact hnodup.of_map
  valid name o ho := h.valid _ (hlog.mem_overloads_iff.mp ho)

end Log.Coherent

theorem overloads_of_nodup {table : List (String × List Overload)}
    (h : (table.map (·.1)).Nodup) (name : String) :
    ((table.find? (·.1 == name)).map (·.2)).getD []
      = ((table.flatMap fun f => f.2.map (f.1, ·)).filter (·.1 == name)).map (·.2) := by
  induction table with
  | nil => rfl
  | cons f table ih =>
      obtain ⟨hnew, hnodup⟩ := List.nodup_cons.mp h
      rw [List.flatMap_cons, List.filter_append, List.map_append, ← ih hnodup]
      by_cases hname : f.1 = name
      · have hnone : table.find? (·.1 == name) = none := by
          refine List.find?_eq_none.mpr fun g hg hkey => hnew ?_
          exact List.mem_map.mpr ⟨g, hg, (eq_of_beq hkey).trans hname.symm⟩
        simp [hname, hnone, List.filter_map, Function.comp_def]
      · simp [hname, List.filter_map, Function.comp_def]

theorem constant_of_nodup {table : List (String × Value)} (h : (table.map (·.1)).Nodup) :
    (table.find? (·.1 == name)).map (·.2) = some v ↔ (name, v) ∈ table := by
  induction table with
  | nil => simp
  | cons c table ih =>
      obtain ⟨hnew, hnodup⟩ := List.nodup_cons.mp h
      by_cases hname : c.1 = name
      · have hnot : (name, v) ∉ table := fun hmem =>
          hnew (List.mem_map.mpr ⟨_, hmem, hname.symm⟩)
        simp [hname, hnot, Prod.ext_iff, eq_comm]
      · simp [hname, ih hnodup, Prod.ext_iff, Ne.symm hname]

/-- Each name stands in one place of each table, and no function is without an overload. -/
theorem describes_log (hfunctions : (l.functions.map (·.1)).Nodup)
    (hoverloads : ∀ f ∈ l.functions, f.2 ≠ []) (hconstants : (l.constants.map (·.1)).Nodup) :
    l.log.Describes l where
  functions name := by
    simp only [hasFunction, List.any_eq_true, beq_iff_eq, Log.functionNames, log, List.mem_map,
      List.mem_flatMap]
    constructor
    · rintro ⟨f, hf, rfl⟩
      obtain ⟨o, os, hos⟩ := List.exists_cons_of_ne_nil (hoverloads f hf)
      exact ⟨_, ⟨f, hf, o, hos ▸ List.mem_cons_self, rfl⟩, rfl⟩
    · rintro ⟨_, ⟨f, hf, o, -, rfl⟩, rfl⟩
      exact ⟨f, hf, rfl⟩
  overloads name := overloads_of_nodup hfunctions name
  constants name v := constant_of_nodup hconstants

theorem describes_empty : empty.log.Describes empty :=
  describes_log .nil nofun .nil

theorem coherent_log_empty : empty.log.Coherent := ⟨nofun, .nil, nofun, .nil⟩

theorem describes_standard : standard.log.Describes standard :=
  describes_log (by decide +kernel) (by decide +kernel) (by decide +kernel)

/-- The built-in tables were never checked by a registration, but they would have passed. -/
theorem coherent_log_standard : standard.log.Coherent where
  apart := by decide +kernel
  distinct := by decide +kernel
  valid := by decide +kernel
  single := by decide +kernel

theorem coherent_standard : standard.Coherent := coherent_log_standard.coherent describes_standard

end Library

/-! ### Two ways to look a name up -/

namespace Setting

variable {s : Setting} {name : String}

/-- Reading a name and then calling or indexing what it stands for is what a call by name does. -/
theorem callNamed_eq_lookup (h : s.library.Coherent) (eval : Evaluator) (ids : List NodeId) :
    s.callNamed eval name ids = s.lookup name >>= fun target => s.apply eval target ids := by
  rw [callNamed, lookup, bind_assoc]
  apply bind_congr
  intro visible
  cases visible with
  | some target => rfl
  | none =>
      simp only [Option.none_or, Library.value?]
      cases hname : s.library.hasFunction name with
      | true =>
          rw [h.apart name hname]
          rfl
      | false =>
          cases hconstant : s.library.constant? name <;> rfl

end Setting

namespace Library

/-- Whatever is registered with the empty or the standard library, and whether it succeeds or fails,
the library holds what the calls that were not refused have registered. No name is both a constant
and a function, and the overloads of each name have different valid signatures. A registration fails
exactly if what has been registered so far refuses it, and leaves no trace then. In every
environment, a name that is called is resolved like one that is read. -/
theorem coherent_of_registered {base : Library} (hbase : base = empty ∨ base = standard)
    (entries : List Registration) :
    let l := entries.foldl attempt base
    let log := entries.foldl Log.record base.log
    log.Describes l ∧ l.Coherent
    ∧ (∀ entry, ((∃ e, l.enter entry = .error e) ↔ log.Refuses entry)
      ∧ ∀ e, l.enter entry = .error e → l.attempt entry = l)
    ∧ ∀ s : Setting, s.library = l → ∀ (eval : Evaluator) (fuel : Nat) (callee : NodeId)
        (name : String) (ids : List NodeId), s.forest.kind? callee = some (.name name) →
      s.call eval callee ids
        = s.value eval fuel (.name name) >>= fun target => s.apply eval target ids := by
  intro l log
  obtain ⟨hdescribes, hlog⟩ : log.Describes l ∧ log.Coherent := by
    rcases hbase with rfl | rfl
    · exact ⟨describes_empty.foldl_record entries, coherent_log_empty.foldl_record entries⟩
    · exact ⟨describes_standard.foldl_record entries, coherent_log_standard.foldl_record entries⟩
  have hcoherent := hlog.coherent hdescribes
  refine ⟨hdescribes, hcoherent,
    fun entry => ⟨hdescribes.enter_error_iff entry, fun _ => hdescribes.attempt_of_error⟩, ?_⟩
  intro s hs eval fuel callee name ids hcallee
  have hkind : s.kind callee = pure (.name name) := by
    rw [Forest.kind?, Option.map_eq_some_iff] at hcallee
    obtain ⟨node, hnode, hname⟩ := hcallee
    rw [Setting.kind, Setting.node, hnode]
    simp [hname]
  rw [Setting.call, hkind, pure_bind]
  exact Setting.callNamed_eq_lookup (hs ▸ hcoherent) eval ids

/-- A constant is registered twice, and then a function under its name. -/
theorem coherent_of_registered_twice :
    let one : Registration := .constant "one" (.ofNat 1)
    let l := [one, one, .function "one" (.fixed [] fun _ => .ok (.ofNat 1))].foldl attempt standard
    let s : Setting := ⟨⟨#[⟨.name "one", ⟨0, 3⟩⟩]⟩, l, none, .ofLimit 1⟩
    l.Coherent ∧ (∃ e, l.enter one = .error e)
      ∧ ∀ eval, s.call eval ⟨0⟩ []
        = s.value eval 0 (.name "one") >>= fun target => s.apply eval target [] := by
  intro one l s
  obtain ⟨-, hcoherent, hrefuses, hresolves⟩ := coherent_of_registered (.inr (Eq.refl standard))
    [one, one, .function "one" (.fixed [] fun _ => .ok (.ofNat 1))]
  refine ⟨hcoherent, (hrefuses one).1.mpr (.inr (by decide +kernel)), fun eval => ?_⟩
  exact hresolves s rfl eval 0 ⟨0⟩ "one" [] rfl

end Library

end MatrixScript
