import MatrixScript.Proofs.Printing.Halting
import Mathlib.Data.List.Nodup
import Mathlib.Data.List.Perm.Subperm
import Mathlib.Data.Nat.Bitwise

/-!
# Texts with more nodes than numbers

A number in front of a name takes two bytes and makes three nodes: one for each of them, and one for
the product that is understood. So a text whose places can be counted with 32 bits may have more
nodes than there are numbers for. The last number goes to a node although it stands for none, and
all nodes behind that one have the number before it in common.

The texts here are sums of such products. Their nodes are known for any number of summands.
-/

namespace MatrixScript

open Reading

/-- What the nodes are, in their order. -/
def Forest.kinds (f : Forest) : List (NodeKind NodeId) := f.nodes.toList.map (·.kind)

theorem Forest.kind?_eq (f : Forest) (id : NodeId) : f.kind? id = f.kinds[id.index.toNat]? := by
  rw [kind?, get?, kinds, List.getElem?_map, Array.getElem?_toList]

/-- There are no more nodes than numbers for them. -/
theorem NodeId.length_le_of_nodup {ids : List NodeId} (h : ids.Nodup) :
    ids.length ≤ 4294967296 := by
  have hinj : Function.Injective fun id : NodeId => id.index.toNat := by
    rintro ⟨i⟩ ⟨j⟩ h
    exact congrArg NodeId.mk (UInt32.toNat_inj.mp h)
  have hsub : ids.map (·.index.toNat) ⊆ List.range 4294967296 := by
    intro n hn
    obtain ⟨id, -, rfl⟩ := List.mem_map.mp hn
    exact List.mem_range.mpr id.index.toNat_lt
  have hle := ((h.map hinj).subperm hsub).length_le
  rwa [List.length_map, List.length_range] at hle

namespace Reader

/-- The nodes that a reader has stored, none of which is control flow, and the text in front of
it. -/
structure Stores (r : Reader) (ks : List (NodeKind NodeId)) (d : List Char) : Prop where
  kinds : r.forest.kinds = ks
  flat : ∀ k ∈ ks, k.isControlFlow = false
  rest : r.cursor.rest = d

namespace Stores

variable {r : Reader} {ks : List (NodeKind NodeId)} {d e : List Char} (h : r.Stores ks d)

include h

theorem size : r.forest.size = ks.length := by
  rw [← h.kinds, Forest.kinds, List.length_map, Array.length_toList]
  rfl

theorem nextId : r.forest.nextId = .ofPlace ks.length := congrArg _ h.size

theorem movedTo {c : Cursor} (hc : c.rest = e) : (r.movedTo c).Stores ks e :=
  ⟨h.kinds, h.flat, hc⟩

theorem movedTo_mk (offset : Nat) (e : List Char) : (r.movedTo ⟨offset, e⟩).Stores ks e :=
  h.movedTo rfl

theorem withNode {kind : NodeKind NodeId} (hkind : kind.isControlFlow = false) (span : Span) :
    (r.withNode kind span).Stores (ks ++ [kind]) d := by
  refine ⟨?_, List.forall_mem_append.mpr ⟨h.flat, List.forall_mem_singleton.mpr hkind⟩, h.rest⟩
  have hnodes :
      (r.withNode kind span).forest.nodes.toList = r.forest.nodes.toList ++ [⟨kind, span⟩] :=
    Array.toList_push
  rw [Forest.kinds, hnodes, List.map_append, ← Forest.kinds, h.kinds]
  rfl

theorem afterOperator {kind : NodeKind NodeId} (hkind : kind.isControlFlow = false) (span : Span) :
    (r.afterOperator kind span).Stores (ks ++ [kind]) d := by
  have hnode := h.withNode hkind span
  exact ⟨hnode.kinds, hnode.flat, hnode.rest⟩

theorem afterOperand (form : Form) (id : NodeId) : (r.afterOperand form id).Stores ks d :=
  ⟨h.kinds, h.flat, h.rest⟩

/-- Whatever node has just been read, operators may follow. -/
theorem any_kind? (id : NodeId) : (r.forest.kind? id).any (·.isControlFlow) = false := by
  rw [Forest.kind?_eq, h.kinds]
  cases hk : ks[id.index.toNat]? with
  | none => rfl
  | some k => exact h.flat k (List.mem_of_getElem? hk)

end Stores

end Reader

namespace Crowd

open Grammar Printing

variable {k n : Nat} {r : Reader} {ks : List (NodeKind NodeId)} {d : List Char}

/-! ### Products -/

def two : Double := Decimal.toDouble ['2']

/-- The nodes of a product, the first of them at a place. -/
def product (place : Nat) : List (NodeKind NodeId) :=
  [.real two, .name "x", .binary .mul (.ofPlace place) (.ofPlace (place + 1))]

theorem name_read (mode : Mode) (fuel : Nat) (least : UInt8) (h : r.Stores ks ('x' :: d))
    (hd : EndsWord d)
    {level : Nat} (hhalts : Halts mode level d) (hleast : level ≤ least.toNat) :
    ∃ r₁, standard.expression (fuel + 1) mode least r = .ok (.ofPlace ks.length, r₁)
      ∧ r₁.Stores (ks ++ [.name "x"]) d := by
  have hx : IsName ['x'] := by decide
  have hplain : Plain r.cursor.rest := h.rest ▸ plain_of_isName hx d
  have hskip := skip_stays (s := .standard mode fuel) rfl (hplain.settled _)
  have hform : standard.findForm? r.cursor.rest mode.flags = some Form.identifier := by
    rw [h.rest]
    exact findForm?_name hx hd _
  obtain ⟨span, hoperand⟩ := name_operand hform hx hd hskip h.rest
  have hleaf : (NodeKind.name "x" : NodeKind NodeId).isControlFlow = false := rfl
  have hnode := (h.movedTo_mk (r.cursor.offset + byteCount ['x']) d).withNode hleaf span
  have hname := hnode.afterOperand Form.identifier r.forest.nextId
  refine ⟨_, ?_, hname⟩
  rw [← h.nextId]
  exact expression_eq_ok_iff.mpr ⟨_, _, hoperand, .inr ⟨hname.any_kind? _,
    hhalts _ _ _ _ _ hleast rfl⟩⟩

/-- A digit is a number, unless another character of a number is behind it. What it offers is a
product. -/
theorem digit_operand (fuel : Nat) {c : Char} (hc : c = '1' ∨ c = '2') (h : r.Stores ks (c :: d))
    (hlength : Form.numberLength (c :: d) = 1) (hletter : startsWithWord ['i'] d = false) :
    ∃ r₁, standard.operand (.standard .statement fuel) r = .ok (.ofPlace ks.length, r₁)
      ∧ r₁.Stores (ks ++ [.real (Decimal.toDouble [c])]) d
      ∧ r₁.premise = some (['*'], r₁.cursor.offset) ∧ r₁.afterControlFlow = false := by
  have hform : standard.findForm? r.cursor.rest Mode.statement.flags = some Form.number := by
    rw [h.rest]
    rcases hc with rfl | rfl <;> rfl
  have hplain : Plain r.cursor.rest := by
    rw [h.rest]
    rintro x ⟨⟩
    rcases hc with rfl | rfl <;> decide
  have hadvance : r.cursor.advance 1 = ⟨r.cursor.offset + 1, d⟩ := by
    have hpassed := Cursor.advance_append (p := [c]) h.rest
    rcases hc with rfl | rfl <;> exact hpassed
  have hread : Form.number.read (.standard .statement fuel) r = .ok (r.forest.nextId,
      (r.movedTo ⟨r.cursor.offset + 1, d⟩).withNode (.real (Decimal.toDouble [c]))
        ((Cursor.mk (r.cursor.offset + 1) d).spanFrom r.cursor.offset)) := by
    have htake : r.cursor.rest.take 1 = [c] := by rw [h.rest]; rfl
    rw [Form.number_read, h.rest, hlength, ← h.rest, htake, hadvance,
      if_neg (Bool.eq_false_iff.mp hletter)]
    exact allocFrom_eq_ok_iff.mpr ⟨rfl, rfl⟩
  have hleaf : (NodeKind.real (Decimal.toDouble [c]) : NodeKind NodeId).isControlFlow = false := rfl
  have hnode := (h.movedTo_mk (r.cursor.offset + 1) d).withNode hleaf
    ((Cursor.mk (r.cursor.offset + 1) d).spanFrom r.cursor.offset)
  have hnumber := hnode.afterOperand Form.number r.forest.nextId
  refine ⟨_, ?_, hnumber, rfl, hnumber.any_kind? _⟩
  rw [← h.nextId]
  exact operand_eq_ok_iff.mpr ⟨false, r, skip_stays rfl (hplain.settled _), Form.number, hform,
    _, hread, rfl⟩

/-- An operator between two operands, the right one of which is read behind it. -/
theorem chain_binary (least : UInt8) (left : NodeId) {fuel : Nat} {r₁ : Reader} {symbol : List Char}
    {p : UInt8} {op : BinaryOp} {bytes : Nat} {right : NodeId}
    (hskip : (Surroundings.standard .statement fuel).skip r = .ok (false, r))
    (hends : standard.endsOperators Mode.statement.flags false r.cursor.rest = false)
    (hfound : standard.findOperator? r.cursor.rest
      (standard.premiseAt r Mode.statement.flags r.cursor.offset false)
      = some ⟨Operator.binary symbol p .left op, bytes⟩) (htight : least.toNat ≤ p.toNat)
    (hright : standard.expression fuel .statement (Operator.rightPrecedence p .left)
      (r.movedTo (r.cursor.advance bytes)) = .ok (right, r₁)) (h : r₁.Stores ks d) :
    ∃ r₂, r₂.Stores (ks ++ [.binary op left right]) d ∧ ∀ p,
      standard.chain (.standard .statement fuel) least k (.ofPlace ks.length) r₂ = .ok p →
      standard.chain (.standard .statement fuel) least (k + 1) left r = .ok p := by
  have hbuilds : applyFixity (.standard .statement fuel) (Operator.binary symbol p .left op) left
      ((r.cursor.advance bytes).spanFrom r.cursor.offset) (r.movedTo (r.cursor.advance bytes))
      = .ok (.binary op left right, r₁) :=
    applyFixity_binary_eq_ok_iff.mpr ⟨right, hright, rfl⟩
  have hleast : ¬p < least := by
    rw [UInt8.lt_iff_toNat_lt]
    exact Nat.not_lt.mpr htight
  obtain ⟨span, hchain⟩ := chain_operator (k := k) hskip hends hfound hleast hbuilds
  refine ⟨_, h.afterOperator rfl span, fun p hp => hchain p ?_⟩
  rwa [h.nextId]

/-- A product leaves the chain of operators to what stands behind it. -/
theorem product_first (fuel : Nat) (least : UInt8) (h : r.Stores ks ('2' :: 'x' :: d))
    (hd : EndsWord d)
    (hhalts : Halts .statement 7 d) (hleast : least.toNat ≤ 8) :
    ∃ r₁, r₁.Stores (ks ++ product ks.length) d ∧ ∀ p,
      standard.chain (.standard .statement (fuel + 1)) least (d.length + 1)
        (.ofPlace (ks.length + 2)) r₁ = .ok p →
      standard.expression (fuel + 2) .statement least r = .ok p := by
  obtain ⟨r₁, hoperand, hnumber, hpremise, hflow⟩ := digit_operand (fuel + 1) (.inr rfl) h rfl rfl
  have hx : IsName ['x'] := by decide
  have hplain : Plain r₁.cursor.rest := hnumber.rest ▸ plain_of_isName hx d
  have hskip := skip_stays (s := .standard .statement (fuel + 1)) (r := r₁) rfl (hplain.settled _)
  have hends : standard.endsOperators Mode.statement.flags false r₁.cursor.rest = false := by
    rw [hnumber.rest]
    rfl
  have hfound : standard.findOperator? r₁.cursor.rest
      (standard.premiseAt r₁ Mode.statement.flags r₁.cursor.offset false)
      = some ⟨Operator.binary "*".toList Precedence.multiplicative .left .mul, 0⟩ := by
    have hform : standard.findForm? ('x' :: d) Mode.statement.flags = some Form.identifier :=
      findForm?_name hx hd _
    have hoffer : standard.premiseAt r₁ Mode.statement.flags r₁.cursor.offset false
        = some ['*'] := by
      rw [premiseAt, hpremise, hnumber.rest, hform]
      simp
    rw [hoffer, hnumber.rest]
    rfl
  have hhere : (r₁.cursor.advance 0).rest = 'x' :: d :=
    congrArg Cursor.rest (Cursor.advance_append (p := []) hnumber.rest)
  have hnine : 7 ≤ (Operator.rightPrecedence Precedence.multiplicative .left).toNat := by decide
  obtain ⟨r₂, hexpression, hname⟩ :=
    name_read .statement fuel _ (hnumber.movedTo hhere) hd hhalts hnine
  obtain ⟨r₃, hproduct, hchain⟩ := chain_binary (k := d.length + 1) least (.ofPlace ks.length)
    hskip hends hfound hleast hexpression hname
  rw [List.length_append, List.append_assoc, List.append_assoc] at hproduct
  rw [List.length_append, List.length_append] at hchain
  refine ⟨r₃, hproduct, fun p hp => ?_⟩
  refine expression_eq_ok_iff.mpr ⟨_, r₁, hoperand, .inr ⟨hflow, ?_⟩⟩
  rw [hnumber.rest]
  exact hchain p hp

/-! ### Sums -/

/-- More summands. -/
def more : Nat → List Char
  | 0 => []
  | n + 1 => '+' :: '2' :: 'x' :: more n

/-- The nodes of more summands behind what has its node at a place. -/
def moreNodes (place : Nat) : Nat → List (NodeKind NodeId)
  | 0 => []
  | n + 1 => product (place + 1) ++ .binary .add (.ofPlace place) (.ofPlace (place + 3))
      :: moreNodes (place + 4) n

theorem length_moreNodes (place n : Nat) : (moreNodes place n).length = 4 * n := by
  induction n generalizing place with
  | zero => rfl
  | succ n ih =>
      rw [moreNodes, List.length_append, List.length_cons, ih]
      change 3 + (4 * n + 1) = _
      omega

theorem byteCount_more (n : Nat) : byteCount (more n) = 3 * n := by
  induction n with
  | zero => rfl
  | succ n ih =>
      rw [more, byteCount_cons, byteCount_cons, byteCount_cons, ih]
      change 1 + (1 + (1 + 3 * n)) = _
      omega

/-- What may stand behind a sum ends words and the chains of all operators. -/
structure Ends (d : List Char) : Prop where
  word : EndsWord d
  halts : Halts .statement 0 d

theorem ends_nil : Ends [] := ⟨nofun, fun _ _ _ _ _ _ hrest => chain_atEnd rfl hrest⟩

theorem ends_newline (d : List Char) : Ends ('\n' :: d) :=
  ⟨fun c hc => by cases hc; decide, halts_newline rfl d⟩

theorem plain_more (n : Nat) (d : List Char) : Plain (more (n + 1) ++ d) := by
  rintro x ⟨⟩
  decide

theorem Ends.more_endsWord (h : Ends d) : EndsWord (more n ++ d) := by
  cases n with
  | zero => exact h.word
  | succ n => exact fun c hc => by cases hc; decide

theorem findOperator?_more (n : Nat) (d : List Char) (premise : Option (List Char)) :
    standard.findOperator? (more (n + 1) ++ d) premise
      = some ⟨Operator.binary "+".toList Precedence.additive .left .add, 1⟩ := rfl

theorem Ends.more_halts (h : Ends d) : Halts .statement 7 (more n ++ d) := by
  cases n with
  | zero => exact h.halts.mono (Nat.zero_le _)
  | succ n => exact halts_trailing (plain_more n d) rfl (findOperator?_more n d) (by decide)

/-- By induction on the summands: each of them is the right operand of one more operator. -/
theorem more_read (fuel : Nat) {least : UInt8} (hd : Ends d) (hleast : least.toNat ≤ 6) {place : Nat}
    (h : r.Stores ks (more n ++ d)) (hplace : ks.length = place + 1) (hk : n < k) :
    ∃ r₁, standard.chain (.standard .statement (fuel + 2)) least k (.ofPlace place) r
        = .ok (.ofPlace (place + 4 * n), r₁)
      ∧ r₁.Stores (ks ++ moreNodes place n) d := by
  induction n generalizing ks place k r with
  | zero =>
      obtain ⟨k, rfl⟩ := Nat.exists_eq_add_of_lt hk
      refine ⟨r, hd.halts _ _ _ _ _ (Nat.zero_le _) h.rest, ?_⟩
      rw [moreNodes, List.append_nil]
      exact h
  | succ n ih =>
      obtain ⟨k, rfl⟩ : ∃ j, k = j + 1 := ⟨k - 1, by omega⟩
      have hrest : (r.cursor.advance 1).rest = '2' :: 'x' :: (more n ++ d) :=
        congrArg Cursor.rest (Cursor.advance_append (p := ['+']) h.rest)
      obtain ⟨r₁, hproduct, hread⟩ := product_first fuel
        (Operator.rightPrecedence Precedence.additive .left) (h.movedTo hrest) hd.more_endsWord
        hd.more_halts (by decide)
      have hright := hread _ (hd.more_halts _ _ _ _ _ (by decide) hproduct.rest)
      have hskip := skip_stays (s := .standard .statement (fuel + 2)) (r := r) rfl
        ((h.rest ▸ plain_more n d : Plain r.cursor.rest).settled _)
      have hends : standard.endsOperators Mode.statement.flags false r.cursor.rest = false := by
        rw [h.rest]
        rfl
      have hfound (premise : Option (List Char)) : standard.findOperator? r.cursor.rest premise
          = some ⟨Operator.binary "+".toList Precedence.additive .left .add, 1⟩ :=
        h.rest ▸ findOperator?_more n d premise
      obtain ⟨r₂, hsum, hchain⟩ := chain_binary (k := k) least (.ofPlace place) hskip hends (hfound _)
        hleast hright hproduct
      have hlength : (ks ++ product ks.length).length = place + 4 := by
        rw [List.length_append, hplace]
        rfl
      rw [hlength] at hchain
      have hplace' {kind : NodeKind NodeId} :
          (ks ++ product ks.length ++ [kind]).length = place + 4 + 1 := by
        rw [List.length_append, hlength]
        rfl
      obtain ⟨r₃, hmore, hall⟩ := ih hsum hplace' (Nat.lt_of_succ_lt_succ hk)
      refine ⟨r₃, ?_, ?_⟩
      · rw [hchain _ hmore, Nat.add_assoc, Nat.add_comm 4, ← Nat.mul_succ]
      · rw [hplace, List.append_assoc, List.append_assoc] at hall
        exact hall

/-- A sum of products, one more than the number says. -/
def sum (n : Nat) : List Char := '2' :: 'x' :: more n

def sumNodes (place n : Nat) : List (NodeKind NodeId) :=
  product place ++ moreNodes (place + 2) n

theorem length_sumNodes (place n : Nat) : (sumNodes place n).length = 4 * n + 3 := by
  rw [sumNodes, List.length_append, length_moreNodes, Nat.add_comm]
  rfl

theorem le_length_more (n : Nat) : n ≤ (more n).length := by
  induction n with
  | zero => exact Nat.le_refl 0
  | succ n ih =>
      rw [more, List.length_cons, List.length_cons, List.length_cons]
      omega

theorem sum_read (fuel : Nat) (least : UInt8) (hd : Ends d) (hleast : least.toNat ≤ 6)
    (h : r.Stores ks (sum n ++ d)) :
    ∃ r₁, standard.expression (fuel + 3) .statement least r
        = .ok (.ofPlace (ks.length + 2 + 4 * n), r₁)
      ∧ r₁.Stores (ks ++ sumNodes ks.length n) d := by
  obtain ⟨r₁, hproduct, hread⟩ := product_first (fuel + 1) least h hd.more_endsWord hd.more_halts
    (Nat.le_trans hleast (by decide))
  have hlength : (ks ++ product ks.length).length = ks.length + 2 + 1 := List.length_append
  have hrounds : n < (more n ++ d).length + 1 := by
    rw [List.length_append]
    exact Nat.lt_succ_of_le (Nat.le_add_right_of_le (le_length_more n))
  obtain ⟨r₂, hchain, hmore⟩ := more_read fuel hd hleast hproduct hlength hrounds
  rw [List.append_assoc] at hmore
  exact ⟨r₂, hread _ hchain, hmore⟩

/-! ### Statements -/

/-- A sum that is read, but not evaluated. -/
def guarded (n : Nat) : List Char := '1' :: '|' :: '|' :: sum n

def guardedNodes (place n : Nat) : List (NodeKind NodeId) :=
  .real (Decimal.toDouble ['1']) :: (sumNodes (place + 1) n
    ++ [.binary .or (.ofPlace place) (.ofPlace (place + 3 + 4 * n))])

theorem length_guardedNodes (place n : Nat) : (guardedNodes place n).length = 4 * n + 5 := by
  rw [guardedNodes, List.length_cons, List.length_append, length_sumNodes, List.length_singleton]

theorem byteCount_guarded (n : Nat) : byteCount (guarded n) = 3 * n + 5 := by
  rw [guarded, sum, byteCount_cons, byteCount_cons, byteCount_cons, byteCount_cons, byteCount_cons,
    byteCount_more]
  change 1 + (1 + (1 + (1 + (1 + 3 * n)))) = _
  omega

theorem guarded_read (fuel : Nat) (hd : Ends d) (h : r.Stores ks (guarded n ++ d)) :
    ∃ r₁, standard.expression (fuel + 4) .statement 0 r
        = .ok (.ofPlace (ks.length + (4 * n + 4)), r₁)
      ∧ r₁.Stores (ks ++ guardedNodes ks.length n) d := by
  obtain ⟨r₁, hoperand, hnumber, -, hflow⟩ := digit_operand (fuel + 3) (.inl rfl) h rfl rfl
  have hplain : Plain r₁.cursor.rest := by
    rw [hnumber.rest]
    rintro x ⟨⟩
    decide
  have hends : standard.endsOperators Mode.statement.flags false r₁.cursor.rest = false := by
    rw [hnumber.rest]
    rfl
  have hrest : (r₁.cursor.advance 2).rest = sum n ++ d :=
    congrArg Cursor.rest (Cursor.advance_append (p := ['|', '|']) hnumber.rest)
  have hfound (premise : Option (List Char)) : standard.findOperator? r₁.cursor.rest premise
      = some ⟨Operator.binary "||".toList Precedence.or .left .or, 2⟩ := by
    rw [hnumber.rest]
    rfl
  obtain ⟨r₂, hright, hsum⟩ := sum_read fuel
    (Operator.rightPrecedence Precedence.or .left) hd (by decide) (hnumber.movedTo hrest)
  obtain ⟨r₃, hall, hchain⟩ := chain_binary (k := (sum n ++ d).length + 2) 0
    (.ofPlace ks.length) (skip_stays rfl (hplain.settled _)) hends (hfound _)
    (by decide) hright hsum
  have hlength : (ks ++ [NodeKind.real (Decimal.toDouble ['1'])]
      ++ sumNodes (ks ++ [NodeKind.real (Decimal.toDouble ['1'])]).length n).length
        = ks.length + (4 * n + 4) := by
    rw [List.length_append, List.length_append, length_sumNodes, List.length_singleton]
    omega
  rw [hlength] at hchain
  rw [List.length_append, List.append_assoc, List.append_assoc] at hall
  have hhalt := hchain _ (hd.halts _ _ _ _ _ (Nat.zero_le _) hall.rest)
  refine ⟨r₃, expression_eq_ok_iff.mpr ⟨_, r₁, hoperand, .inr ⟨hflow, ?_⟩⟩, hall⟩
  rw [hnumber.rest]
  exact hhalt

theorem guarded_starts (h : r.Stores ks (guarded n ++ d)) :
    r.cursor.peek? = some '1' ∧ standard.Settled Mode.statement.flags r.cursor := by
  have hpeek : r.cursor.peek? = some '1' := Cursor.peek?_cons h.rest
  exact ⟨hpeek, settled_of_peek? _ hpeek (by decide)⟩

theorem guardedNodes_first (place n : Nat) (ks : List (NodeKind NodeId)) :
    (guardedNodes place n ++ ks)[0]? = some (.real (Decimal.toDouble ['1'])) := rfl

theorem guardedNodes_last (place n : Nat) (ks : List (NodeKind NodeId)) :
    (guardedNodes place n ++ ks)[4 * n + 4]?
      = some (.binary .or (.ofPlace place) (.ofPlace (place + 3 + 4 * n))) := by
  have hlength := length_guardedNodes place n
  rw [List.getElem?_append_left (hlength ▸ Nat.lt_succ_self _), guardedNodes,
    List.getElem?_cons_succ, List.getElem?_append_right (by rw [length_sumNodes]),
    length_sumNodes, Nat.sub_self]
  rfl

theorem stores_ofText (text : List Char) : (Reader.ofText text).Stores [] text :=
  ⟨rfl, List.forall_mem_nil _, rfl⟩

/-- As long as there are enough numbers, the root is the guard of the sum. -/
theorem parse_guarded {n : Nat} (hroom : n < 1073741823) : ∃ f, standard.parse (guarded n)
      = .ok ⟨f, [⟨.ofPlace (4 * n + 4), false⟩]⟩
    ∧ f.kind? ⟨0⟩ = some (.real (Decimal.toDouble ['1']))
    ∧ f.kind? (.ofPlace (4 * n + 4)) = some (.binary .or ⟨0⟩ (.ofPlace (3 + 4 * n))) := by
  have h : (Reader.ofText (guarded n)).Stores [] (guarded n ++ []) :=
    (List.append_nil (guarded n)).symm ▸ stores_ofText (guarded n)
  obtain ⟨hpeek, hsettled⟩ := guarded_starts h
  obtain ⟨r₁, hroot, hall⟩ := guarded_read (sum n).length ends_nil h
  have hstatements := statements_single (s := standard.top (guarded n)) rfl hpeek hsettled
    (by decide) hroot hall.rest
  rw [List.length_nil, Nat.zero_add] at hstatements
  have hkinds := hall.kinds
  rw [List.nil_append, List.length_nil, ← List.append_nil (guardedNodes 0 n)] at hkinds
  refine ⟨r₁.forest, parse_of_statements hstatements, ?_, ?_⟩
  · rw [Forest.kind?_eq, hkinds]
    exact guardedNodes_first 0 n []
  · rw [Forest.kind?_eq, NodeId.ofPlace_index (by omega), hkinds, guardedNodes_last, Nat.zero_add]
    rfl

theorem parse_guarded_lines (n m : Nat) : ∃ f, standard.parse (guarded n ++ '\n' :: guarded m)
    = .ok ⟨f, [⟨.ofPlace (4 * n + 4), false⟩, ⟨.ofPlace (4 * n + 5 + (4 * m + 4)), false⟩]⟩
      ∧ f.kinds = guardedNodes 0 n ++ guardedNodes (4 * n + 5) m := by
  let text := guarded n ++ '\n' :: guarded m
  let fuel := (sum n ++ '\n' :: guarded m).length
  have h := stores_ofText text
  obtain ⟨hpeek, hsettled⟩ := guarded_starts h
  obtain ⟨r₁, hroot, hall⟩ := guarded_read fuel (ends_newline (guarded m)) h
  rw [List.length_nil, Nat.zero_add] at hroot
  rw [List.nil_append, List.length_nil] at hall
  have hnext : r₁.cursor.next.rest = guarded m ++ [] :=
    (congrArg Cursor.rest (Cursor.next_cons hall.rest)).trans (List.append_nil _).symm
  have hsecond := hall.movedTo hnext
  obtain ⟨hpeek₂, hsettled₂⟩ := guarded_starts hsecond
  obtain ⟨r₂, hroot₂, hall₂⟩ := guarded_read fuel ends_nil hsecond
  rw [length_guardedNodes] at hroot₂ hall₂
  have hlast (k : Nat) (found : List Statement) :
      (standard.top text).statementList none (k + 2) found (r₁.movedTo r₁.cursor.next)
        = .ok ((⟨.ofPlace (4 * n + 5 + (4 * m + 4)), false⟩ :: found).reverse, r₂) :=
    statementList_last (s := standard.top text) rfl hpeek₂ hsettled₂ (by decide) hroot₂ hall₂.rest
  have hboth : (standard.top text).statements none (.ofText text) = .ok (_, r₂) :=
    statementList_line (s := standard.top text) rfl hpeek hsettled (by decide) hroot
      (Cursor.peek?_cons hall.rest)
      (settled_newline rfl hall.rest) (hlast (fuel + 1) _)
  exact ⟨r₂.forest, parse_of_statements hboth, hall₂.kinds⟩

/-! ### More nodes than numbers -/

/-- So many summands leave four numbers for what is on the next line. -/
def bulk : Nat := 1073741822

theorem byteCount_guarded_lines (n m : Nat) :
    byteCount (guarded n ++ '\n' :: guarded m) = 3 * n + 3 * m + 11 := by
  rw [byteCount_append, byteCount_cons, byteCount_guarded, byteCount_guarded]
  change 3 * n + 5 + (1 + (3 * m + 5)) = _
  omega

/-- The last number goes to the first name on the second line, and so the first product lacks a
factor. The digit in front of that name shares its number with all nodes behind the name: both
factors of the second product, and the root of the statement. -/
theorem parse_crowd : ∃ f, standard.parse (guarded bulk ++ '\n' :: guarded 1)
      = .ok ⟨f, [⟨⟨4294967292⟩, false⟩, ⟨⟨4294967294⟩, false⟩]⟩
    ∧ f.size = 4294967302
    ∧ f.kind? ⟨0⟩ = some (.real (Decimal.toDouble ['1']))
    ∧ f.kind? ⟨4294967292⟩ = some (.binary .or ⟨0⟩ ⟨4294967291⟩)
    ∧ f.kind? ⟨4294967294⟩ = some (.real (Decimal.toDouble ['2']))
    ∧ .binary .mul ⟨4294967294⟩ .absent ∈ f.kinds
    ∧ .binary .mul ⟨4294967294⟩ ⟨4294967294⟩ ∈ f.kinds := by
  obtain ⟨f, hparse, hkinds⟩ := parse_guarded_lines bulk 1
  have hlength := length_guardedNodes 0 bulk
  have hsecond {k : NodeKind NodeId} (hk : k ∈ guardedNodes (4 * bulk + 5) 1) : k ∈ f.kinds :=
    hkinds ▸ List.mem_append_right _ hk
  have hat (i : Nat) : f.kinds[4 * bulk + 5 + i]? = (guardedNodes (4 * bulk + 5) 1)[i]? := by
    rw [hkinds, List.getElem?_append_right (hlength ▸ Nat.le_add_right _ _), hlength,
      Nat.add_sub_cancel_left]
  have hfirst : f.kinds[0]? = _ := hkinds ▸ guardedNodes_first 0 bulk _
  have hlast : f.kinds[4 * bulk + 4]? = _ := hkinds ▸ guardedNodes_last 0 bulk _
  refine ⟨f, hparse, ?_, (f.kind?_eq _).trans hfirst, (f.kind?_eq _).trans hlast,
    (f.kind?_eq _).trans (hat 1), hsecond (List.mem_of_getElem? (i := 3) rfl),
    hsecond (List.mem_of_getElem? (i := 6) rfl)⟩
  · have hsize : f.kinds.length = f.size := by
      rw [Forest.kinds, List.length_map, Array.length_toList, Forest.size]
    rw [← hsize, hkinds, List.length_append, hlength, length_guardedNodes]
    rfl

/-! ### More names than numbers -/

/-- A name that spells out a number in binary. -/
def spelled (n : Nat) : List Char :=
  'x' :: (List.range 33).map fun i => if n.testBit i then 'a' else 'b'

theorem isName_spelled (n : Nat) : IsName (spelled n) := by
  refine ⟨⟨'x', rfl, by decide⟩, ?_, fun hmem => ?_⟩
  · refine List.forall_mem_cons.mpr ⟨by decide, List.forall_mem_map.mpr fun i _ => ?_⟩
    split <;> decide
  · have hlength : (spelled n).length = 34 := by
      rw [spelled, List.length_cons, List.length_map, List.length_range]
    have hreserved : ∀ word ∈ reservedWords, word.length ≠ 34 := by decide
    exact hreserved _ hmem hlength

theorem spelled_inj {m n : Nat} (hm : m < 2 ^ 33) (hn : n < 2 ^ 33) (h : spelled m = spelled n) :
    m = n := by
  refine Nat.eq_of_testBit_eq fun i => ?_
  by_cases hi : i < 33
  · have hall := List.map_inj_left.mp (List.cons.inj h).2 i (List.mem_range.mpr hi)
    cases hbit : m.testBit i <;> cases hbit' : n.testBit i <;> simp_all
  · have hpow : 2 ^ 33 ≤ 2 ^ i := Nat.pow_le_pow_right (by decide) (Nat.not_lt.mp hi)
    rw [Nat.testBit_lt_two_pow (Nat.lt_of_lt_of_le hm hpow),
      Nat.testBit_lt_two_pow (Nat.lt_of_lt_of_le hn hpow)]

/-- There are more names than there are numbers of nodes. -/
theorem exists_names : ∃ xs : List Name, xs.length = 4294967297 ∧ (xs.map (·.tree)).Nodup := by
  refine ⟨(List.range 4294967297).map fun i => ⟨spelled i, isName_spelled i⟩, ?_, ?_⟩
  · rw [List.length_map, List.length_range]
  · rw [List.map_map]
    refine List.nodup_range.map_on fun m hm n hn h => ?_
    have hshort {i : Nat} (hi : i ∈ List.range 4294967297) : i < 2 ^ 33 :=
      Nat.lt_trans (List.mem_range.mp hi) (by decide)
    refine spelled_inj (hshort hm) (hshort hn) ?_
    have hlabel : NodeKind.name (String.ofList (spelled m)) = .name (String.ofList (spelled n)) :=
      (Tree.node.inj h).1
    exact String.ofList_injective (NodeKind.name.inj hlabel)

end Crowd

end MatrixScript
