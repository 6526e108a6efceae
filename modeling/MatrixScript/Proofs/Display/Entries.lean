import MatrixScript.Proofs.Display.Decimals
import MatrixScript.Proofs.Layout.Ownership
import MatrixScript.Proofs.Printing.Operands
import Mathlib.Tactic.IntervalCases

/-!
# Reading entries of matrices

A written number is read as one node, and one more for its sign. In a matrix such entries stand
between commas, and the rows between semicolons, so that each ends where the next separator is. What
has been read is found again in the forest later on, when it has grown.
-/

namespace MatrixScript

open Reading Grammar

/-- The node of a number, which may have a sign in front of it. -/
inductive Forest.Writes (f : Forest) (x : Double) (id : NodeId) : Prop where
  | number {span : Span} (h : f.get? id = some ⟨.real x, span⟩)
  | negated {operand : NodeId} {y : Double} {span inner : Span}
      (h : f.get? id = some ⟨.unary .neg operand, span⟩)
      (hoperand : f.get? operand = some ⟨.real y, inner⟩) (hx : x = -y)

theorem Forest.Writes.extends {f f' : Forest} {x : Double} {id : NodeId} (h : f.Writes x id)
    (hgrown : f.Extends f') : f'.Writes x id := by
  cases h with
  | number h => exact .number (hgrown.get?_eq_some h)
  | negated h hoperand hx =>
      exact .negated (hgrown.get?_eq_some h) (hgrown.get?_eq_some hoperand) hx

/-- What is read where a number is written. -/
def Double.reread (x : Double) : Double :=
  if x.isNegative && !x.isZero then -(Decimal.toDouble x.abs.text.toList)
  else Decimal.toDouble x.abs.text.toList

theorem Numeral.figures {cs : List Char} (h : Numeral cs) : ∀ c ∈ cs, isFigure c = true := by
  cases h with
  | whole hds => exact hds.figures
  | fraction hds hfs =>
      exact List.forall_mem_append.mpr ⟨hds.figures, List.forall_mem_cons.mpr ⟨rfl, hfs.figures⟩⟩

namespace Display

variable {mode : Mode} {fuel : Nat} {least : UInt8} {r r₀ r₁ : Reader} {cs d : List Char} {b : Bool}

/-! ### Numbers -/

theorem digit_mem {c : Char} (h : c.isDigit = true) :
    c ∈ ['0', '1', '2', '3', '4', '5', '6', '7', '8', '9'] := by
  have hbounds : 48 ≤ c.toNat ∧ c.toNat ≤ 57 := by
    simpa [Char.isDigit, UInt32.le_iff_toNat_le] using h
  have hc : c = Char.ofNat c.toNat := (Char.ofNat_toNat c).symm
  obtain ⟨hlow, hhigh⟩ := hbounds
  rw [hc]
  interval_cases c.toNat <;> decide

theorem findForm?_digit {c : Char} (h : c.isDigit = true) (flags : Flags) (d : List Char) :
    standard.findForm? (c :: d) flags = some Form.number := by
  have hmem := digit_mem h
  simp only [List.mem_cons, List.not_mem_nil, or_false] at hmem
  cases flags with
  | mk a b e f =>
    rcases hmem with rfl | rfl | rfl | rfl | rfl | rfl | rfl | rfl | rfl | rfl <;> cases b <;> rfl

theorem byteCount_numeral (h : Numeral cs) : byteCount cs = cs.length :=
  byteCount_of_isFigure h.figures

theorem Numeral.plain (h : Numeral cs) (d : List Char) : Grammar.Plain (cs ++ d) := by
  obtain ⟨c, ds, rfl, hc⟩ := h.head
  have hall : ∀ x ∈ ['0', '1', '2', '3', '4', '5', '6', '7', '8', '9'], x ∉ triggers := by decide
  intro x hx
  cases hx
  exact hall c (digit_mem hc)

theorem halts_entry (hd : EndsEntry d) (level : Nat) : Printing.Halts mode level d := by
  cases d with
  | nil => exact fun fuel least k id r _ hrest => chain_atEnd rfl hrest
  | cons c d =>
      have hall : ∀ x ∈ [',', ';', ']'], x ∈ Printing.closing := by decide
      exact Printing.halts_closing (hall c (hd c rfl)) d

/-- An operand whose node is new is the whole expression in front of what ends an entry. -/
theorem expression_of_read (least : UInt8) (r₁ : Reader) (hd : EndsEntry d)
    (hskip : (Surroundings.standard mode fuel).skip r₀ = .ok (b, r)) {form : Form}
    (hform : standard.findForm? r.cursor.rest mode.flags = some form) {kind : NodeKind NodeId}
    {span : Span}
    (hread : form.read (.standard mode fuel) r = .ok (r₁.forest.nextId, r₁.withNode kind span))
    (hroom : r₁.forest.size < 4294967295) (hkind : kind.isControlFlow = false)
    (hrest : r₁.cursor.rest = d) :
    standard.expression (fuel + 1) mode least r₀
      = .ok (r₁.forest.nextId, (r₁.withNode kind span).afterOperand form r₁.forest.nextId) := by
  have hoperand := operand_eq_ok_iff.mpr ⟨b, r, hskip, form, hform, _, hread, rfl⟩
  have hflow : ((r₁.withNode kind span).forest.kind? r₁.forest.nextId).any (·.isControlFlow)
      = false := by
    have hnode : (r₁.withNode kind span).forest.kind? r₁.forest.nextId = some kind :=
      Forest.kind?_push hroom ⟨kind, span⟩
    rw [hnode, Option.any_some, hkind]
  refine expression_eq_ok_iff.mpr ⟨_, _, hoperand, .inr ⟨hflow, ?_⟩⟩
  exact halts_entry hd 0 fuel least _ _ _ (Nat.zero_le _) hrest

/-- A number is read as the node of what the decimal stands for. -/
theorem number_reads (least : UInt8) (hcs : Numeral cs) (hd : EndsEntry d)
    (hskip : (Surroundings.standard mode fuel).skip r₀ = .ok (b, r))
    (hr : r.cursor.rest = cs ++ d) (hroom : r.forest.size < 4294967295) :
    ∃ span r₁, standard.expression (fuel + 1) mode least r₀ = .ok (r.forest.nextId, r₁)
      ∧ r₁.forest = (r.forest.push ⟨.real (Decimal.toDouble cs), span⟩).2
      ∧ r₁.cursor.rest = d := by
  have hlength : Form.numberLength r.cursor.rest = cs.length := by
    rw [hr, numberLength_append hcs hd]
  have htake : r.cursor.rest.take cs.length = cs := by
    rw [hr, List.take_left]
  have hadvance : r.cursor.advance cs.length = ⟨r.cursor.offset + cs.length, d⟩ := by
    rw [← byteCount_numeral hcs]
    exact Cursor.advance_append hr
  have hletter : startsWithWord ['i'] d = false := by
    cases d with
    | nil => rfl
    | cons c d =>
        have hc := hd c rfl
        simp only [List.mem_cons, List.not_mem_nil, or_false] at hc
        rcases hc with rfl | rfl | rfl <;> rfl
  let behind : Reader := r.movedTo ⟨r.cursor.offset + cs.length, d⟩
  have hform : standard.findForm? r.cursor.rest mode.flags = some Form.number := by
    obtain ⟨c, ds, rfl, hc⟩ := hcs.head
    rw [hr]
    exact findForm?_digit hc _ _
  have hread : Form.number.read (.standard mode fuel) r = .ok (behind.forest.nextId,
      behind.withNode (.real (Decimal.toDouble cs)) (behind.cursor.spanFrom r.cursor.offset)) := by
    rw [Form.number_read, hlength, htake, hadvance, if_neg (by simp [hletter])]
    exact allocFrom_eq_ok_iff.mpr ⟨rfl, rfl⟩
  exact ⟨_, _, expression_of_read least behind hd hskip hform hread hroom rfl rfl, rfl, rfl⟩

/-- A minus in front of a number is a node of its own. -/
theorem negated_reads (least : UInt8) (hcs : Numeral cs) (hd : EndsEntry d)
    (hskip : (Surroundings.standard mode (fuel + 1)).skip r₀ = .ok (b, r))
    (hr : r.cursor.rest = '-' :: (cs ++ d)) (hroom : r.forest.size + 1 < 4294967295) :
    ∃ (span inner : Span) (r₁ r₂ : Reader),
      standard.expression (fuel + 2) mode least r₀ = .ok (r₁.forest.nextId, r₂)
      ∧ r₁.forest = (r.forest.push ⟨.real (Decimal.toDouble cs), inner⟩).2
      ∧ r₂.forest = (r₁.forest.push ⟨.unary .neg r.forest.nextId, span⟩).2
      ∧ r₂.cursor.rest = d := by
  have hnext : (r.movedTo r.cursor.next).cursor.rest = cs ++ d := by
    rw [Reader.movedTo_cursor, Cursor.next_cons hr]
  have hstays := skip_stays (s := .standard mode fuel) (r := r.movedTo r.cursor.next) rfl
    (Grammar.Plain.settled (hnext ▸ Numeral.plain hcs d) mode.flags)
  obtain ⟨inner, r₁, hinner, hforest, hrest⟩ := number_reads (Precedence.leading + 1)
    hcs hd hstays hnext (by rw [Reader.movedTo_forest]; omega)
  have hpeek : r.cursor.peek? = some Printing.Sign.neg.symbol := Cursor.peek?_cons hr
  obtain ⟨span, hread⟩ := Printing.leading_read (s := .standard mode (fuel + 1)) hpeek hinner
  have hform : standard.findForm? r.cursor.rest mode.flags = some Form.leading := by
    rw [hr]
    exact Printing.findForm?_leading .neg _ _
  have hsize : r₁.forest.size < 4294967295 := by
    rw [hforest, Forest.size_push]
    exact hroom
  exact ⟨span, inner, r₁, _, expression_of_read least r₁ hd hskip hform hread hsize rfl hrest,
    hforest, rfl, hrest⟩

/-! ### Entries -/

/-- What reading some numbers leaves behind: a forest that has grown by no more than two nodes for
each. -/
structure Adds (f f' : Forest) (count : Nat) : Prop where
  grown : f.Extends f'
  size_le : f'.size ≤ f.size + 2 * count

theorem Adds.trans {f f' g : Forest} {m n : Nat} (h : Adds f f' m) (h' : Adds f' g n) :
    Adds f g (m + n) := by
  refine ⟨h.grown.trans h'.grown, ?_⟩
  have hfirst := h.size_le
  have hsecond := h'.size_le
  omega

/-- A finite number is read where it is written. -/
theorem entry_reads (least : UInt8) {x : Double} (hx : x.isFinite = true) (hd : EndsEntry d)
    (hskip : (Surroundings.standard mode (fuel + 1)).skip r₀ = .ok (b, r))
    (hr : r.cursor.rest = x.text.toList ++ d) (hroom : r.forest.size + 2 ≤ 4294967295) :
    ∃ id r₁, standard.expression (fuel + 2) mode least r₀ = .ok (id, r₁)
      ∧ r₁.forest.Writes x.reread id ∧ Adds r.forest r₁.forest 1 ∧ r₁.cursor.rest = d := by
  have hcs := Double.numeral_text_abs hx
  rw [Double.text_eq hx] at hr
  by_cases hsign : (x.isNegative && !x.isZero) = true
  · rw [if_pos hsign] at hr
    obtain ⟨span, inner, r₁, r₂, hread, hforest, hforest₂, hrest⟩ :=
      negated_reads least hcs hd hskip hr (by omega)
    have hsize : r₁.forest.size < 4294967295 := by
      rw [hforest, Forest.size_push]
      omega
    have hsize₂ : r₂.forest.size = r.forest.size + 2 := by
      rw [hforest₂, Forest.size_push, hforest, Forest.size_push]
    have hfirst : r₁.forest.get? r.forest.nextId
        = some ⟨.real (Decimal.toDouble x.abs.text.toList), inner⟩ := by
      rw [hforest]
      exact Forest.get?_push_nextId (by omega) _
    have hgrown : r₁.forest.Extends r₂.forest := hforest₂ ▸ Forest.extends_push _ _
    have hroot : r₂.forest.get? r₁.forest.nextId = some ⟨.unary .neg r.forest.nextId, span⟩ := by
      rw [hforest₂]
      exact Forest.get?_push_nextId hsize _
    have hoperand := hgrown.get?_eq_some hfirst
    refine ⟨_, r₂, hread, .negated hroot hoperand ?_, ⟨?_, ?_⟩, hrest⟩
    · rw [Double.reread, if_pos hsign]
    · exact (hforest ▸ Forest.extends_push _ _ : r.forest.Extends r₁.forest).trans hgrown
    · omega
  · rw [if_neg hsign, List.nil_append] at hr
    obtain ⟨span, r₁, hread, hforest, hrest⟩ :=
      number_reads least hcs hd hskip hr (by omega)
    have hroot : r₁.forest.get? r.forest.nextId = some ⟨.real x.reread, span⟩ := by
      rw [hforest, Double.reread, if_neg hsign]
      exact Forest.get?_push_nextId (by omega) _
    refine ⟨_, r₁, hread, .number hroot, ⟨?_, ?_⟩, hrest⟩
    · rw [hforest]
      exact Forest.extends_push _ _
    · rw [hforest, Forest.size_push]
      omega

end Display

end MatrixScript
