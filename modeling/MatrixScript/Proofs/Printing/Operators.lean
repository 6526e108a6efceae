import MatrixScript.Proofs.Printing.Operands

/-!
# Printed operators

What an operand is continued by, be it an operator with its right operand, an operator behind the
operand, or the arguments of a call, is taken up in one round of the chain of operators. The chain
then goes on with the longer operand.
-/

namespace MatrixScript

namespace Printing

open Reading Grammar

/-- An operand with this tree is continued by a text to one with another tree. What can bind the
text to the end of the operand halts in front of it. -/
structure Continues (text : List Char) (level bound edge : Nat) (l : Tree) (k : NodeKind Tree) :
    Prop where
  apart (rest : List Char) : Apart (text ++ rest)
  halts {mode : Mode} {rest : List Char} : Apart rest → mode.flags.inMatrix = false →
    Halts mode bound (text ++ rest)
  takes {mode : Mode} {fuel n : Nat} {least : UInt8} {f : Forest} {r₁ : Reader} {id : NodeId}
    {rest : List Char} :
    Leaves f r₁ id l (text ++ rest) → f.size + nodes (.of k) ≤ 4294967295 →
    mode.flags.inMatrix = false → text.length ≤ fuel → Apart rest → Halts mode edge rest →
    least.toNat ≤ level →
    ∃ id' r₂, Leaves f r₂ id' (.of k) rest
      ∧ ∀ p, standard.chain (.standard mode fuel) least n id' r₂ = .ok p →
        standard.chain (.standard mode fuel) least (n + 1) id r₁ = .ok p

/-- The operator makes a tree of its operands, wherever their trees stand. -/
def Builds (op : Operator) (least : UInt8) (l t : Tree) (k : NodeKind Tree) : Prop :=
  ∀ {s : Surroundings} {left right : NodeId} {r r₁ : Reader},
    s.expressionIn s.mode least r = .ok (right, r₁) → r₁.forest.Shows left l →
    r₁.forest.Shows right t →
    ∃ kind, (∀ span, applyFixity s op left span r = .ok (kind, r₁))
      ∧ (∀ id ∈ kind.children, id = left ∨ id = right)
      ∧ kind.map (fun id => (r₁.forest.unfold id).bare) = k

variable {text left right : List Char} {level bound edge : Nat} {l t : Tree} {k : NodeKind Tree}
  {least : UInt8} {op : Operator}

theorem Readable.continued (h : Readable left level bound l)
    (hmore : Continues text level bound edge l k) (hne : text ≠ [])
    (hnodes : nodes l ≤ nodes (.of k)) : Readable (left ++ text) level edge (.of k) where
  opens := by
    have hends := (hmore.apart []).endsWord
    rw [List.append_nil] at hends
    exact h.opens.append hends
  reads {mode fuel least r₀ r rest} hstarts hapart hhalts hleast := by
    obtain ⟨id, r₁, n, hleaves, hn, hchain⟩ := h.reads (hstarts.first hnodes) (hmore.apart rest)
      (hmore.halts hapart hstarts.flat) hleast
    have hfuel := hstarts.fuel
    have hpos := List.length_pos_of_ne_nil hne
    rw [List.length_append] at hfuel hn
    obtain ⟨n, rfl⟩ : ∃ j, n = j + 1 := ⟨n - 1, by omega⟩
    have hshort : text.length ≤ fuel := by omega
    obtain ⟨id', r₂, hleaves₂, hnext⟩ := hmore.takes (n := n) hleaves hstarts.room hstarts.flat
      hshort hapart hhalts hleast
    exact ⟨id', r₂, n, hleaves₂, by omega, fun p hp => hchain p (hnext p hp)⟩

/-! ### Nodes and their children -/

theorem nodes_of (k : NodeKind Tree) : nodes (.of k) = headNodes k + nodesAll k.children + 1 := by
  have hhead : headNodes k.label = headNodes k := by
    cases k with
    | lambda params body =>
        match params with
        | [] => rfl
        | [_] => rfl
        | _ :: _ :: _ => rfl
    | call f args => simp [NodeKind.label, headNodes]
    | matrix rows => simp [NodeKind.label, headNodes]
    | tuple items => simp [NodeKind.label, headNodes]
    | block statements => simp [NodeKind.label, headNodes]
    | _ => rfl
  rw [Tree.of, nodes, hhead]

theorem unfold_of_shows {f : Forest} {ids : List NodeId} {ts : List Tree}
    (h : List.Forall₂ f.Shows ids ts) :
    (∀ id ∈ ids, id.Below f.size) ∧ ids.map (fun id => (f.unfold id).bare) = ts := by
  induction h with
  | nil => exact ⟨List.forall_mem_nil _, rfl⟩
  | cons hfirst _ ih =>
      refine ⟨List.forall_mem_cons.mpr ⟨hfirst.1, ih.1⟩, ?_⟩
      rw [List.map_cons, ih.2, hfirst.2]

/-! ### Operators between operands -/

theorem continues_operator (hop : op ∈ standard.operators) (hbound : op.precedence.toNat < bound)
    (hright : Whole right least edge t) (hbuilds : Builds op least l t k)
    (hnodes : nodes l + nodes t < nodes (.of k)) :
    Continues (' ' :: (op.symbol ++ ' ' :: right)) op.precedence.toNat bound edge l k := by
  have htext (rest : List Char) : ' ' :: (op.symbol ++ ' ' :: right) ++ rest
      = ' ' :: (op.symbol ++ ' ' :: (right ++ rest)) := by
    rw [List.cons_append, List.append_assoc, List.cons_append]
  refine ⟨fun rest => apart_blank _, fun {mode rest} _ hflat => ?_,
    fun {mode fuel n least' f r₁ id rest} hleaves hroom hflat hfuel hapart hhalts hleast => ?_⟩
  · rw [htext]
    exact halts_symbol hop hbound hflat (hright.opens.plain rest)
  · have hrest := hleaves.rest
    rw [htext] at hrest
    simp only [List.length_cons, List.length_append] at hfuel
    obtain ⟨fuel, rfl⟩ : ∃ j, fuel = j + 1 := ⟨fuel - 1, by omega⟩
    have hsize := hleaves.grows.size
    let behind : Cursor := ⟨r₁.cursor.offset + 1 + byteCount op.symbol, ' ' :: (right ++ rest)⟩
    have hstarts : Starts mode fuel (r₁.movedTo behind) _ right rest (nodes t) :=
      hright.opens.starts_blank rfl hleaves.grows.linked hflat (by omega)
        (by rw [Reader.movedTo_forest]; omega)
    obtain ⟨id₂, r₂, hread, hleaves₂⟩ := hright.reads hstarts hapart hhalts
    have hall := hleaves.grows.trans hleaves₂.grows
    have hsize₂ := hall.size
    have hleft := hleaves.shown.extends hleaves₂.grows.grown hleaves.grows.linked (by omega)
    obtain ⟨kind, happly, hchildren, hkind⟩ :=
      hbuilds (s := .standard mode (fuel + 1)) hread hleft hleaves₂.shown
    have htight : ¬op.precedence < least' := by
      rw [UInt8.lt_iff_toNat_lt]
      omega
    have hbelow : ∀ child ∈ kind.children, child.Below r₂.forest.size := by
      intro child hchild
      rcases hchildren child hchild with rfl | rfl
      · exact hleft.1
      · exact hleaves₂.shown.1
    obtain ⟨span, hchain⟩ := chain_symbol (s := .standard mode (fuel + 1)) (k := n) rfl hflat hop
      htight (hright.opens.plain rest) hrest happly
    refine ⟨_, _, ?_, hchain⟩
    exact leaves_node hall hnodes hroom hbelow hkind rfl hleaves₂.rest

theorem Readable.joined (h : Readable left op.precedence.toNat (op.precedence.toNat + 1) l)
    (hop : op ∈ standard.operators) (hright : Whole right least edge t)
    (hbuilds : Builds op least l t k) (hnodes : nodes l + nodes t < nodes (.of k)) :
    Readable (left ++ ' ' :: (op.symbol ++ ' ' :: right)) op.precedence.toNat edge (.of k) :=
  h.continued (continues_operator hop (Nat.lt_succ_self _) hright hbuilds hnodes)
    (List.cons_ne_nil _ _) (Nat.le_trans (Nat.le_add_right _ _) (Nat.le_of_lt hnodes))

/-! ### Operators behind an operand -/

theorem advance_one {c : Cursor} {x : Char} {d : List Char} (h : c.rest = x :: d)
    (hx : x.utf8Size = 1) : c.advance 1 = ⟨c.offset + 1, d⟩ := by
  have hadvance := Cursor.advance_append (p := [x]) h
  rwa [byteCount_cons, byteCount_nil, hx] at hadvance

theorem Mark.plain (mark : Mark) (d : List Char) : Plain (mark.symbol :: d) := by
  cases mark <;> exact fun x hx => by cases hx; decide

theorem continues_mark (mark : Mark) :
    Continues [mark.symbol] Precedence.trailing.toNat (Precedence.trailing.toNat + 1) edge l
      (.unary mark.op l) := by
  refine ⟨fun rest => ?_, fun {mode rest} hapart _ => halts_mark mark hapart (Nat.lt_succ_self _),
    fun {mode fuel n least f r₁ id rest} hleaves hroom _ _ hapart _ hleast => ?_⟩
  · cases mark <;> exact apart_cons (by decide) (by decide) rest
  · have hrest : r₁.cursor.rest = mark.symbol :: rest := hleaves.rest
    have hskip := hleaves.stays (mark.plain rest) mode fuel
    have htight : ¬mark.operator.precedence < least := by
      rw [UInt8.lt_iff_toNat_lt]
      exact Nat.not_lt.mpr hleast
    have hends : standard.endsOperators mode.flags false r₁.cursor.rest = false := by
      rw [hrest, mark.endsOperators]
    have hfound (premise : Option (List Char)) :
        standard.findOperator? r₁.cursor.rest premise = some ⟨mark.operator, 1⟩ := by
      rw [hrest, mark.findOperator? hapart]
    have happly (span : Span) : applyFixity (.standard mode fuel) mark.operator id span
        (r₁.movedTo (r₁.cursor.advance 1))
          = .ok (.unary mark.op id, r₁.movedTo (r₁.cursor.advance 1)) :=
      applyFixity_trailing_eq_ok_iff.mpr ⟨rfl, rfl⟩
    obtain ⟨span, hchain⟩ := chain_operator (k := n) hskip hends (hfound _) htight (happly _)
    refine ⟨_, _, ?_, hchain⟩
    have hone : mark.symbol.utf8Size = 1 := by cases mark <;> rfl
    have hbehind : (r₁.cursor.advance 1).rest = rest := by rw [advance_one hrest hone]
    refine leaves_node hleaves.grows ?_ hroom ?_ ?_ rfl hbehind
    · rw [nodes_of]
      change nodes l < 0 + (nodes l + 0) + 1
      omega
    · intro child hchild
      cases List.mem_singleton.mp hchild
      exact hleaves.shown.1
    · change NodeKind.unary mark.op (r₁.forest.unfold id).bare = _
      rw [hleaves.shown.2]

theorem continues_call {texts : List (List Char)} {ts : List Tree} (h : Items texts ts) :
    Continues (grouped (commas texts)) Precedence.call.toNat (Precedence.call.toNat + 1) edge l
      (.call l ts) := by
  have htext (rest : List Char) : grouped (commas texts) ++ rest
      = '(' :: (commas texts ++ ')' :: rest) := by
    rw [grouped, List.cons_append, List.append_assoc, List.singleton_append]
  refine ⟨fun rest => apart_cons (by decide) (by decide) _,
    fun {mode rest} _ _ => halts_call (Nat.lt_succ_self _),
    fun {mode fuel n least f r₁ id rest} hleaves hroom hflat hfuel hapart _ hleast => ?_⟩
  have hrest : r₁.cursor.rest = '(' :: (commas texts ++ ')' :: rest) := by
    rw [hleaves.rest, htext]
  have hplain : Plain (grouped (commas texts) ++ rest) := fun x hx => by cases hx; decide
  have hskip := hleaves.stays hplain mode fuel
  have htight : ¬Operator.call.precedence < least := by
    rw [UInt8.lt_iff_toNat_lt]
    exact Nat.not_lt.mpr hleast
  have hends : standard.endsOperators mode.flags false r₁.cursor.rest = false := by
    rw [hrest]
    rfl
  have hfound (premise : Option (List Char)) :
      standard.findOperator? r₁.cursor.rest premise = some ⟨Operator.call, 1⟩ := by
    rw [hrest]
    rfl
  have hbehind : (r₁.movedTo (r₁.cursor.advance 1)).cursor.rest = commas texts ++ ')' :: rest := by
    rw [Reader.movedTo_cursor, advance_one hrest rfl]
  simp only [grouped, List.length_cons, List.length_append] at hfuel
  obtain ⟨fuel, rfl⟩ : ∃ j, fuel = j + 1 := ⟨fuel - 1, by omega⟩
  have hshort : (commas texts).length ≤ fuel := by omega
  have hsize := hleaves.grows.size
  have hnodes : nodes (.of (.call l ts)) = nodes l + nodesAll ts + 1 := by
    rw [nodes_of, NodeKind.children_call]
    exact congrArg (· + 1) (Nat.zero_add _)
  have hroom₁ : (r₁.movedTo (r₁.cursor.advance 1)).forest.size + nodesAll ts ≤ 4294967295 := by
    rw [Reader.movedTo_forest]
    omega
  have hflat₁ : Mode.arguments.flags.inMatrix = false := rfl
  obtain ⟨ids, r₂, hdelimited, hshown, hgrows, hend⟩ := h.delimited hbehind hleaves.grows.linked
    hflat₁ hshort hroom₁ mode ((r₁.cursor.advance 1).spanFrom r₁.cursor.offset) .arguments
  have happly : applyFixity (.standard mode (fuel + 1)) Operator.call id _ _
      = .ok (.call id ids, r₂) := applyFixity_call_eq_ok_iff.mpr ⟨ids, hdelimited, rfl⟩
  obtain ⟨span, hchain⟩ := chain_operator (k := n) hskip hends (hfound _) htight happly
  have hall := hleaves.grows.trans hgrows
  have hsize₂ := hall.size
  have hleft := hleaves.shown.extends hgrows.grown hleaves.grows.linked (by omega)
  obtain ⟨hbelow, hunfold⟩ := unfold_of_shows hshown
  refine ⟨_, _, ?_, hchain⟩
  refine leaves_node hall (by omega) hroom ?_ ?_ rfl hend
  · rw [NodeKind.children_call]
    exact List.forall_mem_cons.mpr ⟨hleft.1, hbelow⟩
  · rw [NodeKind.map_call, hleft.2, hunfold]

/-! ### Operators that join any operands -/

namespace Infix

/-- The least level in the right operand. -/
def rightLeast (op : Infix) : UInt8 := Operator.rightPrecedence op.operator.precedence op.assoc

theorem rightLeast_toNat (op : Infix) : op.rightLeast.toNat = op.rightNeed := by
  have hpower : Precedence.power.toNat = 10 := rfl
  have hlevel : op.operator.precedence.toNat ≤ 10 := hpower ▸ op.levels.2.1
  unfold rightLeast rightNeed level
  cases op.assoc with
  | left =>
      have hbelow : op.operator.precedence ≠ 255 := by
        intro heq
        rw [heq] at hlevel
        exact absurd hlevel (by decide)
      simp only [Operator.rightPrecedence, if_neg hbelow, UInt8.toNat_add]
      have hone : UInt8.toNat 1 = 1 := rfl
      rw [hone]
      omega
  | right => rfl

theorem builds (op : Infix) (l t : Tree) : Builds op.operator op.rightLeast l t (op.node l t) := by
  intro s left right r r₁ hright hl ht
  refine ⟨op.node left right, fun span => ?_, fun id hid => ?_, ?_⟩
  · cases op with
    | binary symbol precedence assoc op listed =>
        exact applyFixity_binary_eq_ok_iff.mpr ⟨right, hright, rfl⟩
    | range => exact applyFixity_range_eq_ok_iff.mpr ⟨right, hright, rfl⟩
  · have hchildren : (op.node left right).children = [left, right] := by cases op <;> rfl
    simpa [hchildren] using hid
  · have hmap : (op.node left right).map (fun id => (r₁.forest.unfold id).bare)
        = op.node (r₁.forest.unfold left).bare (r₁.forest.unfold right).bare := by cases op <;> rfl
    rw [hmap, hl.2, ht.2]

end Infix

end Printing

end MatrixScript
