import MatrixScript.Proofs.Printing.Syntax
import MatrixScript.Proofs.Reading.Progress
import Mathlib.Data.List.Find

/-!
# Where chains of operators halt

Behind a printed operand stands a closing mark, the end of a line, or an operator. The chain of
operators behind the operand halts there if the operator, where it is one, binds too loosely. How
tightly the operators of the grammar bind is read off its table.
-/

namespace MatrixScript

namespace Printing

open Reading Grammar

/-- No operator that stands next binds at a level or above. -/
def Halts (mode : Mode) (level : Nat) (rest : List Char) : Prop :=
  ∀ (fuel : Nat) (least : UInt8) (k : Nat) (id : NodeId) (r : Reader), level ≤ least.toNat →
    r.cursor.rest = rest → standard.chain (.standard mode fuel) least (k + 1) id r = .ok (id, r)

/-- Neither a word nor a symbol goes on. -/
def Apart (rest : List Char) : Prop := ∀ c ∈ rest.head?, isWordChar c = false ∧ c ≠ '='

/-- The marks that end an operand wherever they stand. -/
def closing : List Char := [';', ',', ')', ']', '}']

variable {mode : Mode} {level : Nat} {rest d : List Char} {c : Char}

theorem Halts.mono {level' : Nat} (h : Halts mode level rest) (hle : level ≤ level') :
    Halts mode level' rest :=
  fun fuel least k id r hleast => h fuel least k id r (Nat.le_trans hle hleast)

theorem Apart.endsWord (h : Apart rest) : EndsWord rest := fun c hc => (h c hc).1

theorem apart_cons (hword : isWordChar c = false) (hsign : c ≠ '=') (d : List Char) :
    Apart (c :: d) := by
  intro x hx
  cases hx
  exact ⟨hword, hsign⟩

theorem apart_blank (d : List Char) : Apart (' ' :: d) := apart_cons (by decide) (by decide) d

theorem plain_closing (hc : c ∈ closing) (d : List Char) : Plain (c :: d) := by
  have hall : ∀ x ∈ closing, x ∉ triggers := by decide
  intro x hx
  cases hx
  exact hall c hc

theorem apart_closing (hc : c ∈ closing) (d : List Char) : Apart (c :: d) := by
  have hall : ∀ x ∈ closing, isWordChar x = false ∧ x ≠ '=' := by decide
  exact apart_cons (hall c hc).1 (hall c hc).2 d

/-! ### Ends -/

theorem halts_end (hc : c ∈ '\n' :: closing)
    (hsettled : ∀ offset, standard.Settled mode.flags ⟨offset, c :: d⟩) :
    Halts mode level (c :: d) := by
  intro fuel least k id r _ hrest
  have hr : standard.Settled mode.flags r.cursor := by
    have h := hsettled r.cursor.offset
    rwa [← hrest] at h
  have hskip := skip_stays (s := .standard mode fuel) rfl hr
  have hmark : [';', ',', ')', ']', '}', '\n'].contains c = true := by
    have hall : ∀ x ∈ '\n' :: closing, [';', ',', ')', ']', '}', '\n'].contains x = true := by
      decide
    exact hall c hc
  refine chain_eq_ok_iff.mpr ⟨false, r, hskip, .inl ⟨?_, rfl, rfl⟩⟩
  rw [hrest, endsOperators, hmark, Bool.true_or, Bool.true_or, Bool.true_or]

theorem halts_closing (hc : c ∈ closing) (d : List Char) : Halts mode level (c :: d) :=
  halts_end (List.mem_cons_of_mem _ hc) fun offset =>
    Plain.settled (c := ⟨offset, c :: d⟩) (plain_closing hc d) mode.flags

theorem settled_newline (hmode : mode.flags.newlineSignificant = true) {c : Cursor}
    (hc : c.rest = '\n' :: d) : standard.Settled mode.flags c := by
  intro t ht
  rw [Cursor.peek?, hc] at ht
  have hnewline : some Transform.newline = some t := ht
  cases hnewline
  rw [Transform.newline, if_pos hmode]
  exact .inl rfl

theorem halts_newline (hmode : mode.flags.newlineSignificant = true) (d : List Char) :
    Halts mode level ('\n' :: d) :=
  halts_end List.mem_cons_self fun _ => settled_newline hmode rfl

/-! ### Operators that bind too loosely -/

theorem halts_symbol {op : Operator} (hop : op ∈ standard.operators)
    (hlevel : op.precedence.toNat < level) (hflat : mode.flags.inMatrix = false) (hd : Plain d) :
    Halts mode level (' ' :: (op.symbol ++ ' ' :: d)) := by
  intro fuel least k id r hleast hrest
  have hskip := skip_blank (s := .standard mode fuel) rfl hrest
    (settled_symbol hop mode.flags rfl hd)
  have hloose : op.precedence < least :=
    UInt8.lt_iff_toNat_lt.mpr (Nat.lt_of_lt_of_le hlevel hleast)
  exact chain_loose hskip (endsOperators_symbol hop hflat _ _) (findOperator?_symbol hop d) hloose

/-- An operator right behind an operand. -/
theorem halts_trailing {op : Operator} {bytes : Nat} (hplain : Plain rest)
    (hends : endsOperators standard mode.flags false rest = false)
    (hfound : ∀ premise, standard.findOperator? rest premise = some ⟨op, bytes⟩)
    (hlevel : op.precedence.toNat < level) : Halts mode level rest := by
  intro fuel least k id r hleast hrest
  subst hrest
  have hskip := skip_stays (s := .standard mode fuel) rfl (hplain.settled mode.flags)
  have hloose : op.precedence < least :=
    UInt8.lt_iff_toNat_lt.mpr (Nat.lt_of_lt_of_le hlevel hleast)
  exact chain_loose (c := r.cursor) hskip hends hfound hloose

theorem Mark.endsOperators (mark : Mark) (flags : Flags) (d : List Char) :
    standard.endsOperators flags false (mark.symbol :: d) = false := by
  cases mark <;> rfl

theorem Mark.findOperator? (mark : Mark) (hd : Apart d) (premise : Option (List Char)) :
    standard.findOperator? (mark.symbol :: d) premise = some ⟨mark.operator, 1⟩ := by
  cases mark with
  | transpose => rfl
  | factorial =>
      cases d with
      | nil => rfl
      | cons x d =>
          have hx : ('=' == x) = false := beq_eq_false_iff_ne.mpr (hd x rfl).2.symm
          -- Of the symbols that start with the mark, only the one for inequality is longer.
          have hsame : ∀ op ∈ standard.operators,
              op.symbol.isPrefixOf ('!' :: x :: d) = op.symbol.isPrefixOf ['!'] := by
            intro op hop
            rw [mem_standard_operators] at hop
            simp only [Operator.standard, List.mem_cons, List.not_mem_nil, or_false] at hop
            rcases hop with rfl | rfl | rfl | rfl | rfl | rfl | rfl | rfl | rfl | rfl | rfl | rfl
              | rfl | rfl | rfl | rfl | rfl | rfl | rfl | rfl | rfl | rfl | rfl | rfl | rfl | rfl
              | rfl | rfl | rfl <;>
              simp [Operator.assignment, Operator.lambda, Operator.range, Operator.call,
                Operator.binary, Operator.trailingUnary, List.isPrefixOf, hx]
          have hfind : standard.operators.find? (·.symbol.isPrefixOf ('!' :: x :: d))
              = some Mark.factorial.operator := by
            rw [List.find?_congr hsame]
            rfl
          change standard.findOperator? ('!' :: x :: d) premise = _
          rw [Grammar.findOperator?, hfind]
          rfl

theorem halts_mark (mark : Mark) (hd : Apart d) (hlevel : Precedence.trailing.toNat < level) :
    Halts mode level (mark.symbol :: d) := by
  have hplain : Plain (mark.symbol :: d) := by
    cases mark with
    | transpose => exact fun x hx => by cases hx; decide
    | factorial => exact fun x hx => by cases hx; decide
  exact halts_trailing hplain (mark.endsOperators _ d) (mark.findOperator? hd) hlevel

theorem halts_call (hlevel : Precedence.call.toNat < level) : Halts mode level ('(' :: d) := by
  have hplain : Plain ('(' :: d) := fun x hx => by cases hx; decide
  have hfound (premise : Option (List Char)) :
      standard.findOperator? ('(' :: d) premise = some ⟨Operator.call, 1⟩ := rfl
  exact halts_trailing hplain rfl hfound hlevel

/-! ### Levels of the operators between operands -/

/-- How an operator groups that joins any two operands, whatever they are. -/
def joins? (op : Operator) : Option Assoc :=
  match op.fixity with
  | .joining assoc build =>
    match build NodeId.absent NodeId.absent (Reader.ofText []) with
    | .ok _ => some assoc
    | .error _ => none
  | .trailing _ => none

theorem joins?_levels : ∀ op ∈ Operator.standard, ∀ assoc ∈ joins? op,
    2 < op.precedence.toNat ∧ op.precedence.toNat ≤ 10
      ∧ (assoc = .right ↔ op.precedence.toNat = 7 ∨ op.precedence.toNat = 10) := by
  decide

namespace Infix

variable (op : Infix)

theorem operator_mem : op.operator ∈ standard.operators := by
  cases op with
  | binary symbol precedence assoc op listed => exact listed
  | range => exact mem_standard_operators.mpr (by simp [Operator.standard, operator])

theorem levels : Precedence.lambda.toNat < op.level ∧ op.level ≤ Precedence.power.toNat
    ∧ (op.assoc = .right ↔ op.level = 7 ∨ op.level = 10) := by
  have hjoins : joins? op.operator = some op.assoc := by cases op <;> rfl
  exact joins?_levels _ (mem_standard_operators.mp op.operator_mem) _ hjoins

/-- Operators of one level group alike. -/
theorem assoc_eq {op op' : Infix} (h : op.level = op'.level) : op.assoc = op'.assoc := by
  have hright : op.assoc = .right ↔ op'.assoc = .right := by
    rw [op.levels.2.2, op'.levels.2.2, h]
  cases ha : op.assoc with
  | right => exact (hright.mp ha).symm
  | left =>
      cases ha' : op'.assoc with
      | left => rfl
      | right =>
          rw [hright.mpr ha'] at ha
          cases ha

end Infix

end Printing

end MatrixScript
