import MatrixScript.Proofs.Embedded.Expressions
import MatrixScript.Proofs.Reading.Progress

/-!
# Groups as operands

A group gives the node inside it, so the parentheses leave nothing behind in the forest. What they
hold is read within a longer text as it is read on its own. An operator behind a group takes it as
its operand, except if control flow stands inside: the chain of operators ends behind control flow,
with or without parentheses around it.
-/

namespace MatrixScript

open Reading

/-- An operator between two groups. -/
def joined (left symbol right : List Char) : List Char :=
  grouped left ++ ' ' :: (symbol ++ ' ' :: grouped right)

/-- An assignment to a name. -/
def assigned (name value : List Char) : List Char := name ++ ' ' :: '=' :: ' ' :: value

/-- The group form reads the whole of a text in parentheses and gives this node. -/
def GroupReads (text : List Char) (root : NodeId) (forest : Forest) : Prop :=
  ∃ r, Form.group.read (Grammar.standard.top (grouped text)) (Reader.ofText (grouped text))
    = .ok (root, r) ∧ r.cursor.rest = [] ∧ r.forest = forest

/-- The reader in front of an operand: nothing that an earlier one offers is left to take. -/
structure Reader.Fresh (r : Reader) : Prop where
  linked : r.forest.Linked
  premise : ∀ q ∈ r.premise, q.2 < r.cursor.offset
  afterControlFlow : r.afterControlFlow = false

/-- The reader behind an operand that is no control flow. What the operand offers is still left. -/
structure Reader.Ready (r : Reader) : Prop where
  linked : r.forest.Linked
  premise : ∀ q ∈ r.premise, q.2 ≤ r.cursor.offset
  afterControlFlow : r.afterControlFlow = false

theorem Reader.Fresh.ready {r : Reader} (h : r.Fresh) : r.Ready :=
  ⟨h.linked, fun q hq => Nat.le_of_lt (h.premise q hq), h.afterControlFlow⟩

theorem Reader.Ready.movedTo {r : Reader} (h : r.Ready) {c : Cursor}
    (hc : r.cursor.offset < c.offset) : (r.movedTo c).Fresh :=
  ⟨h.linked, fun q hq => Nat.lt_of_le_of_lt (h.premise q hq) hc, h.afterControlFlow⟩

theorem Reader.fresh_ofText (text : List Char) : (Reader.ofText text).Fresh :=
  ⟨linked_ofText text, nofun, rfl⟩

namespace Embedding

/-- A text in parentheses where it stands in front of some other text. -/
def ofGroup (text tail : List Char) (r : Reader) : Embedding :=
  ⟨byteCount (grouped text), r.cursor.offset, r.forest, tail⟩

theorem ofGroup_readers {text tail : List Char} {r : Reader} (hr : r.Fresh)
    (hrest : r.cursor.rest = grouped text ++ tail) :
    (ofGroup text tail r).Readers (Reader.ofText (grouped text)) r := by
  refine ⟨⟨(Nat.zero_add _).symm, hrest, .inr ⟨'(' :: text, rfl⟩, Nat.zero_add _⟩, ?_, ?_,
    hr.afterControlFlow⟩
  · exact ⟨fun i node h => by simp [Reader.ofText, Forest.empty] at h, rfl, fun _ _ => rfl,
      fun i node h => by simp [Reader.ofText, Forest.empty] at h⟩
  · refine ⟨?_, .inr ⟨rfl, hr.premise⟩⟩
    rintro _ ⟨⟩

theorem Readers.premise_le {E : Embedding} {r r' : Reader} (h : E.Readers r r') :
    ∀ q ∈ r'.premise, q.2 ≤ E.bytes + E.length := by
  intro q hq
  obtain ⟨hle, hsame | ⟨-, hearlier⟩⟩ := h.premise
  · rw [hsame] at hq
    obtain ⟨p, hp, rfl⟩ := Option.map_eq_some_iff.mp hq
    have hbound := hle p hp
    dsimp only
    omega
  · exact Nat.le_trans (Nat.le_of_lt (hearlier q hq)) (Nat.le_add_right _ _)

theorem Forests.linked_longer {E : Embedding} {f f' : Forest} (h : E.Forests f f')
    (hfits : E.Fits f) (hbefore : E.before.Linked) : f'.Linked := by
  intro i node hi id hid
  have hlt := Forest.lt_size hi
  rw [h.size] at hlt
  unfold Fits at hfits
  by_cases hearly : i < E.before.size
  · rw [h.before i hearly] at hi
    exact hbefore i node hi id hid
  · obtain ⟨j, rfl⟩ : ∃ j, i = E.before.size + j := ⟨i - E.before.size, by omega⟩
    obtain ⟨other, hother⟩ : ∃ other, f.nodes[j]? = some other :=
      ⟨_, Array.getElem?_eq_getElem (show j < f.nodes.size from by unfold Forest.size at hlt; omega)⟩
    obtain ⟨span, hspan⟩ := h.node j other hother
    rw [hi] at hspan
    cases hspan
    rw [NodeKind.children_map] at hid
    obtain ⟨child, hchild, rfl⟩ := List.mem_map.mp hid
    rcases h.linked j other hother child hchild with rfl | hchild
    · exact .inl (NodeId.shift_absent _)
    · exact .inr (by rw [NodeId.shift_index (by omega)]; omega)

end Embedding

namespace Grammar

theorem plain_grouped (text : List Char) : Plain (grouped text) := fun c hc => by
  cases hc
  decide

theorem findForm?_group (flags : Flags) (d : List Char) :
    standard.findForm? ('(' :: d) flags = some Form.group := by
  cases flags with
  | mk a b c e => cases b <;> rfl

variable {text tail : List Char} {root : NodeId} {forest : Forest} {fuel : Nat} {r r₀ : Reader}

/-- A group is read as an operand, wherever it stands. -/
theorem group_operand (h : GroupReads text root forest) (hfuel : text.length + 3 ≤ fuel) {b : Bool}
    (hskip : Surroundings.skip (.standard .statement fuel) r₀ = .ok (b, r))
    (hr : r.Fresh) (hrest : r.cursor.rest = grouped text ++ tail)
    (hroom : r.forest.size + forest.size ≤ 4294967295) :
    ∃ id r₁, standard.operand (.standard .statement fuel) r₀ = .ok (id, r₁)
      ∧ r.Behind r₁ id (forest.unfold root).bare
      ∧ r₁.cursor = ⟨r.cursor.offset + byteCount (grouped text), tail⟩
      ∧ r₁.forest.size = r.forest.size + forest.size
      ∧ (∀ q ∈ r₁.premise, q.2 ≤ r₁.cursor.offset)
      ∧ r₁.afterControlFlow = (forest.kind? root).any (·.isControlFlow) := by
  obtain ⟨r₂, hread, hend, rfl⟩ := h
  have hreaders := Embedding.ofGroup_readers hr hrest
  have hlength : (grouped text).length + 1 ≤ fuel := by
    simp only [grouped, List.length_cons, List.length_append, List.length_nil]
    omega
  have haround : (Embedding.ofGroup text tail r).Around (standard.top (grouped text))
      (.standard .statement fuel) :=
    Embedding.around_standard hlength _
  obtain ⟨hbelow, r₃, hread', hr₃⟩ := (haround.group_tracks (n := 0)).follows rfl hreaders
    (Nat.zero_le _) hread trivial hroom
  have hform : standard.findForm? r.cursor.rest Mode.statement.flags = some Form.group := by
    rw [hrest]
    exact findForm?_group _ _
  have hnoted := hr₃.afterOperand hroom Form.group root
  have hshown := hr₃.forest.shows hroom
    ⟨hbelow root (List.mem_singleton.mpr rfl), rfl⟩
  have hinside := hr₃.cursor.inside
  rw [hend, byteCount_nil, Nat.add_zero] at hinside
  have hoffset : r₃.cursor.offset = r.cursor.offset + byteCount (grouped text) := by
    rw [hr₃.cursor.offset, hinside, Nat.add_comm]
    rfl
  have hbehind : r₃.cursor.rest = tail := by
    rw [hr₃.cursor.rest, hend, List.nil_append]
    rfl
  refine ⟨_, _, operand_eq_ok_iff.mpr ⟨b, r, hskip, Form.group, hform, r₃, hread', rfl⟩, ?_, ?_, ?_,
    ?_, ?_⟩
  · refine ⟨hr₃.forest.linked_longer hroom hr.linked, ⟨?_, hr₃.forest.before⟩, hshown⟩
    rw [Reader.afterOperand_forest, hr₃.forest.size]
    exact Nat.le_add_right _ _
  · rw [Reader.afterOperand_cursor, ← hoffset, ← hbehind]
  · exact hr₃.forest.size
  · intro q hq
    have hle := hr₃.premise_le q hq
    rw [Reader.afterOperand_cursor, hoffset]
    exact hle
  · exact hnoted.afterControlFlow

/-- A group that ends the text is the whole of the expression that starts in front of it. -/
theorem group_last (h : GroupReads text root forest) (hfuel : text.length + 3 ≤ fuel)
    {least : UInt8} (hr : r.Ready) (hrest : r.cursor.rest = ' ' :: grouped text)
    (hroom : r.forest.size + forest.size ≤ 4294967295) :
    ∃ id r₁, standard.expression (fuel + 1) .statement least r = .ok (id, r₁)
      ∧ r.Behind r₁ id (forest.unfold root).bare
      ∧ r₁.cursor.rest = [] ∧ r₁.forest.size = r.forest.size + forest.size := by
  have hsettled : standard.Settled Mode.statement.flags ⟨r.cursor.offset + 1, grouped text⟩ :=
    settled_of_peek? _ (x := '(') rfl (by decide)
  have hskip : Surroundings.skip (.standard .statement fuel) r = _ :=
    skip_blank rfl hrest hsettled
  have hgroup : grouped text = grouped text ++ [] := (List.append_nil _).symm
  obtain ⟨id, r₁, hoperand, hbehind, hcursor, hsize, -, -⟩ := group_operand h hfuel hskip
    (hr.movedTo (Nat.lt_succ_self _)) hgroup hroom
  have hend : r₁.cursor.rest = [] := by rw [hcursor]
  refine ⟨id, r₁, expression_eq_ok_iff.mpr ⟨id, r₁, hoperand, ?_⟩,
    hbehind.since (.refl _), hend, hsize⟩
  cases hflow : r₁.afterControlFlow with
  | true => exact .inl ⟨rfl, rfl, rfl⟩
  | false => exact .inr ⟨rfl, chain_atEnd rfl hend⟩

/-- An operator between a tree that has been read and a group that ends the text joins the two. -/
theorem group_joined (h : GroupReads text root forest) (hfuel : text.length + 3 ≤ fuel)
    {symbol : List Char} {precedence : UInt8} {assoc : Assoc} {op : BinaryOp}
    (hop : Operator.binary symbol precedence assoc op ∈ standard.operators) {least : UInt8}
    (hleast : ¬precedence < least) (hr : r.Ready) {left : NodeId} {t : Tree}
    (hleft : r.forest.Shows left t) (hrest : r.cursor.rest = ' ' :: (symbol ++ ' ' :: grouped text))
    (hroom : r.forest.size + forest.size < 4294967295) (k : Nat) :
    ∃ id r₁, standard.chain (.standard .statement (fuel + 1)) least (k + 2)
        left r = .ok (id, r₁)
      ∧ r.Behind r₁ id (.of (.binary op t (forest.unfold root).bare))
      ∧ r₁.cursor.rest = [] ∧ r₁.forest.size = r.forest.size + forest.size + 1 := by
  have hmoved : r.cursor.offset < r.cursor.offset + 1 + byteCount symbol := by omega
  have hstart := (hr.movedTo (c := ⟨_, ' ' :: grouped text⟩) hmoved).ready
  obtain ⟨right, r₂, hright, hbehind, hend, hsize⟩ :=
    group_last h hfuel hstart rfl (Nat.le_of_lt hroom)
  rw [Reader.movedTo_forest] at hsize
  have hleft₂ := hleft.extends hbehind.grown hr.linked (by omega)
  obtain ⟨span, hchain⟩ := chain_symbol (s := .standard .statement (fuel + 1)) (k := k + 1) rfl rfl
    hop hleast (plain_grouped text) hrest
    fun span => applyFixity_binary_eq_ok_iff.mpr ⟨right, hright, rfl⟩
  have hkind : (NodeKind.binary op left right).map (fun id => (r₂.forest.unfold id).bare)
      = .binary op t (forest.unfold root).bare := by
    rw [← hleft₂.2, ← hbehind.shown.2]
    rfl
  have hjoined := hbehind.join hleft₂ (by omega) rfl hkind span
  exact ⟨_, _, hchain _ (chain_atEnd rfl hend), hjoined.since (.refl _), hend,
    by rw [Reader.size_afterOperator, hsize]⟩

/-! ### An operator between two groups -/

section Joined

variable {e f symbol : List Char} {left right : NodeId} {fe ff : Forest} {precedence : UInt8}
  {assoc : Assoc} {op : BinaryOp} {least : UInt8} {b : Bool}

/-- Behind a group without control flow in it, the operator in front of another group joins both. -/
theorem groups_joined (he : GroupReads e left fe) (hf : GroupReads f right ff)
    (hcalm : (fe.kind? left).any (·.isControlFlow) = false)
    (hfuel_e : e.length + 3 ≤ fuel + 1) (hfuel_f : f.length + 3 ≤ fuel)
    (hop : Operator.binary symbol precedence assoc op ∈ standard.operators)
    (hleast : ¬precedence < least)
    (hskip : (Surroundings.standard .statement (fuel + 1)).skip r₀ = .ok (b, r)) (hr : r.Fresh)
    (hrest : r.cursor.rest = joined e symbol f)
    (hroom : r.forest.size + fe.size + ff.size < 4294967295) :
    ∃ id r₁, standard.expression (fuel + 2) .statement least r₀ = .ok (id, r₁)
      ∧ r.Behind r₁ id (.of (.binary op (fe.unfold left).bare (ff.unfold right).bare))
      ∧ r₁.cursor.rest = [] ∧ r₁.forest.size = r.forest.size + fe.size + ff.size + 1 := by
  obtain ⟨first, r₂, hfirst, hbehind, hcursor, hsize, hpremise, hflow⟩ :=
    group_operand he hfuel_e hskip hr hrest (by omega)
  rw [hcalm] at hflow
  have hrest₂ : r₂.cursor.rest = ' ' :: (symbol ++ ' ' :: grouped f) := by rw [hcursor]
  obtain ⟨id, r₁, hchain, hjoined, hend, hsize₁⟩ := group_joined hf hfuel_f hop hleast
    ⟨hbehind.linked, hpremise, hflow⟩ hbehind.shown hrest₂ (by omega) (symbol ++ ' ' :: grouped f).length
  have hrounds : (symbol ++ ' ' :: grouped f).length + 2 = r₂.cursor.rest.length + 1 := by
    rw [hrest₂, List.length_cons]
  rw [hrounds] at hchain
  exact ⟨id, r₁, expression_eq_ok_iff.mpr ⟨first, r₂, hfirst, .inr ⟨hflow, hchain⟩⟩,
    hjoined.since hbehind.grown, hend, by omega⟩

/-- Nothing is joined to a group with control flow in it. -/
theorem group_ends (he : GroupReads e left fe) (hfuel : e.length + 3 ≤ fuel)
    (hflow : (fe.kind? left).any (·.isControlFlow) = true)
    (hskip : (Surroundings.standard .statement fuel).skip r₀ = .ok (b, r)) (hr : r.Fresh)
    (hrest : r.cursor.rest = grouped e ++ tail)
    (hroom : r.forest.size + fe.size ≤ 4294967295) :
    ∃ id r₁, standard.expression (fuel + 1) .statement least r₀ = .ok (id, r₁)
      ∧ r.Behind r₁ id (fe.unfold left).bare ∧ r₁.cursor.rest = tail
      ∧ r₁.forest.size = r.forest.size + fe.size ∧ (∀ q ∈ r₁.premise, q.2 ≤ r₁.cursor.offset)
      ∧ r₁.afterControlFlow = true := by
  obtain ⟨id, r₁, hoperand, hbehind, hcursor, hsize, hpremise, hflow₁⟩ :=
    group_operand he hfuel hskip hr hrest hroom
  rw [hflow] at hflow₁
  exact ⟨id, r₁, expression_eq_ok_iff.mpr ⟨id, r₁, hoperand, .inl ⟨hflow₁, rfl, rfl⟩⟩, hbehind,
    by rw [hcursor], hsize, hpremise, hflow₁⟩

/-- A name takes the value behind an assignment sign, and the chain goes on behind the value. -/
theorem name_assigned {d : List Char} {x : String} {target value : NodeId} {t : Tree} {r₁ : Reader}
    (hr : r.Ready) (hkind : r.forest.kind? target = some (.name x))
    (htarget : r.forest.Shows target (.of (.name x))) (hd : Plain d)
    (hrest : r.cursor.rest = ' ' :: '=' :: ' ' :: d)
    (hvalue : standard.expression fuel .statement Precedence.assign
      (r.movedTo ⟨r.cursor.offset + 2, ' ' :: d⟩) = .ok (value, r₁))
    (hbehind : r.Behind r₁ value t) (hroom : r₁.forest.size < 4294967295) (k : Nat) :
    ∃ id r₂, (∀ p, standard.chain (.standard .statement fuel) 0 k id r₂ = .ok p →
        standard.chain (.standard .statement fuel) 0 (k + 1) target r = .ok p)
      ∧ r.Behind r₂ id (.of (.assign (.of (.name x)) none t))
      ∧ r₂.cursor = r₁.cursor ∧ r₂.premise = r₁.premise
      ∧ r₂.forest.size = r₁.forest.size + 1 ∧ r₂.afterControlFlow = false := by
  have htarget₁ := htarget.extends hbehind.grown hr.linked (Nat.le_of_lt hroom)
  have hkind₁ : r₁.forest.kind? target = some (.name x) := by
    rw [Forest.kind?, hbehind.grown.get? (Nat.le_of_lt hroom) htarget.1]
    exact hkind
  have happly (span : Span) : applyFixity (.standard .statement fuel)
      (Operator.assignment "=".toList none) target span
        (r.movedTo ⟨r.cursor.offset + 2, ' ' :: d⟩) = .ok (.assign target none value, r₁) :=
    applyFixity_assignment_eq_ok_iff.mpr ⟨value, .name x, hvalue, hkind₁, rfl, rfl⟩
  have hop : Operator.assignment "=".toList none ∈ standard.operators :=
    mem_standard_operators.mpr List.mem_cons_self
  have hleast : ¬Precedence.assign < 0 := by decide
  obtain ⟨span, hchain⟩ := chain_symbol (s := .standard .statement fuel) (k := k) rfl rfl hop hleast
    hd hrest happly
  have htree : (NodeKind.assign target none value).map (fun id => (r₁.forest.unfold id).bare)
      = .assign (.of (.name x)) none t := by
    rw [← htarget₁.2, ← hbehind.shown.2]
    rfl
  exact ⟨_, _, hchain, hbehind.join htarget₁ hroom rfl htree span, rfl, rfl,
    Reader.size_afterOperator _ _ _, rfl⟩

/-! ### Whole texts -/

/-- A text that one expression reads to its end is one statement. -/
theorem reads_single {text : List Char} {c : Char} (hc : text.head? = some c) (hplain : c ∉ triggers)
    (hsep : c ≠ ';') {root : NodeId} {r₁ : Reader} {t : Tree}
    (hroot : standard.expression (text.length + 1) .statement 0 (.ofText text) = .ok (root, r₁))
    (hend : r₁.cursor.rest = []) (hshown : r₁.forest.Shows root t) : Reads text [(t, false)] := by
  have hstatements : (standard.top text).statements none (.ofText text)
      = .ok ([⟨root, false⟩], r₁) := by
    have hmark : ¬(c = ';' ∨ c = '\n') := by
      rintro (rfl | rfl)
      · exact hsep rfl
      · exact hplain (by decide)
    have hsettled := settled_of_peek? Mode.statement.flags (c := ⟨0, text⟩) hc hplain
    exact statements_single (r := .ofText text) rfl hc hsettled hmark hroot hend
  refine ⟨_, parse_of_statements hstatements, ?_⟩
  rw [List.map_singleton, hshown.2]

theorem skip_group {r : Reader} {tail : List Char} (hrest : r.cursor.rest = grouped e ++ tail) :
    (Surroundings.standard .statement fuel).skip r = .ok (false, r) := by
  have hpeek : r.cursor.peek? = some '(' := by
    rw [Cursor.peek?, hrest]
    rfl
  exact skip_stays rfl (settled_of_peek? _ hpeek (by decide))

/-- The fuel at the start of a text suffices for the groups in it. -/
theorem fuel_joined (e symbol f : List Char) :
    ∃ fuel, (joined e symbol f).length + 1 = fuel + 2 ∧ e.length + 3 ≤ fuel + 1
      ∧ f.length + 3 ≤ fuel := by
  have hlength : (joined e symbol f).length = e.length + symbol.length + f.length + 6 := by
    simp only [joined, grouped, List.length_append, List.length_cons, List.length_nil]
    omega
  exact ⟨e.length + symbol.length + f.length + 5, by omega, by omega, by omega⟩

theorem reads_joined (he : GroupReads e left fe) (hf : GroupReads f right ff)
    (hcalm : (fe.kind? left).any (·.isControlFlow) = false)
    (hop : Operator.binary symbol precedence assoc op ∈ standard.operators)
    (hroom : fe.size + ff.size < 4294967295) :
    Reads (joined e symbol f)
      [(.of (.binary op (fe.unfold left).bare (ff.unfold right).bare), false)] := by
  obtain ⟨fuel, hlength, hfuel_e, hfuel_f⟩ := fuel_joined e symbol f
  have hleast : ¬precedence < 0 := UInt8.not_lt.mpr UInt8.zero_le
  have hrest : (Reader.ofText (joined e symbol f)).cursor.rest = joined e symbol f := rfl
  have hempty : (Reader.ofText (joined e symbol f)).forest.size = 0 := rfl
  obtain ⟨id, r₁, hroot, hbehind, hend, -⟩ := groups_joined he hf hcalm hfuel_e hfuel_f hop hleast
    (skip_group hrest) (Reader.fresh_ofText _) hrest (by omega)
  rw [← hlength] at hroot
  exact reads_single rfl (by decide) (by decide) hroot hend hbehind.shown

/-- A text that assigns to a name starts with the name, behind which the value is read. -/
theorem reads_assigned {x d : List Char} (hx : IsName x) {t : Tree}
    (h : ∀ (r : Reader) (target : NodeId), r.Ready → r.cursor.rest = ' ' :: '=' :: ' ' :: d →
      r.forest.kind? target = some (.name (String.ofList x)) →
      r.forest.Shows target (.of (.name (String.ofList x))) → r.forest.size = 1 →
      ∃ id r₁, standard.chain (.standard .statement (assigned x d).length) 0 (d.length + 4) target r
          = .ok (id, r₁)
        ∧ r₁.cursor.rest = [] ∧ r₁.forest.Shows id t) :
    Reads (assigned x d) [(t, false)] := by
  have hends : EndsWord (' ' :: '=' :: ' ' :: d) := fun c hc => by
    cases hc
    decide
  have hplain := plain_of_isName hx (' ' :: '=' :: ' ' :: d)
  have hskip := skip_stays (s := .standard .statement (assigned x d).length)
    (r := .ofText (assigned x d)) rfl (hplain.settled Mode.statement.flags)
  have hroom : (Reader.ofText (assigned x d)).forest.size < 4294967295 := Nat.zero_lt_succ _
  obtain ⟨r, hoperand, hbehind, hkind, hcursor, hpremise, hsize, hflow⟩ :=
    name_behind hx hends hskip (Reader.linked_ofText _) rfl hroom
  have hready : r.Ready := ⟨hbehind.linked, hpremise ▸ nofun, hflow⟩
  have hrest : r.cursor.rest = ' ' :: '=' :: ' ' :: d := by rw [hcursor]
  obtain ⟨id, r₁, hchain, hend, hshown⟩ :=
    h r _ hready hrest hkind hbehind.shown hsize
  have hrounds : d.length + 4 = r.cursor.rest.length + 1 := by
    rw [hrest]
    rfl
  rw [hrounds] at hchain
  obtain ⟨c, hhead, hstart⟩ := hx.start
  have hc : (assigned x d).head? = some c := by
    rw [assigned, List.head?_append, hhead]
    rfl
  have hsep : c ≠ ';' := by
    rintro rfl
    revert hstart
    decide
  exact reads_single hc (hplain c hc) hsep
    (expression_eq_ok_iff.mpr ⟨_, r, hoperand, .inr ⟨hflow, hchain⟩⟩) hend hshown

theorem plain_joined : Plain (joined e symbol f) := fun c hc => by
  cases hc
  decide

theorem fuel_assigned (x e symbol f : List Char) :
    ∃ fuel, (assigned x (joined e symbol f)).length = fuel + 2 ∧ e.length + 3 ≤ fuel + 1
      ∧ f.length + 3 ≤ fuel := by
  obtain ⟨fuel, hlength, hfuel_e, hfuel_f⟩ := fuel_joined e symbol f
  refine ⟨x.length + 2 + fuel, ?_, by omega, by omega⟩
  simp only [assigned, List.length_append, List.length_cons]
  omega

/-- The value behind an assignment sign is read behind a blank. -/
theorem skip_value {r : Reader} {d : List Char} (hd : Plain d) :
    (Surroundings.standard .statement fuel).skip (r.movedTo ⟨r.cursor.offset + 2, ' ' :: d⟩)
      = .ok (true, r.movedTo ⟨r.cursor.offset + 3, d⟩) :=
  skip_blank rfl rfl (hd.settled _)

theorem precedence_binary (hop : Operator.binary symbol precedence assoc op ∈ standard.operators) :
    ¬precedence < Precedence.assign := by
  have hall : ∀ op ∈ Operator.standard, ¬op.precedence < Precedence.assign := by decide
  exact hall _ (mem_standard_operators.mp hop)

theorem reads_assigned_joined {x : List Char} (hx : IsName x) (he : GroupReads e left fe)
    (hf : GroupReads f right ff) (hcalm : (fe.kind? left).any (·.isControlFlow) = false)
    (hop : Operator.binary symbol precedence assoc op ∈ standard.operators)
    (hroom : fe.size + ff.size + 2 < 4294967295) :
    Reads (assigned x (joined e symbol f)) [(.of (.assign (.of (.name (String.ofList x))) none
      (.of (.binary op (fe.unfold left).bare (ff.unfold right).bare))), false)] := by
  refine reads_assigned hx fun r target hr hrest hkind hshown hsize => ?_
  obtain ⟨fuel, hlength, hfuel_e, hfuel_f⟩ := fuel_assigned x e symbol f
  rw [hlength]
  have hfresh := hr.movedTo (c := ⟨r.cursor.offset + 3, joined e symbol f⟩)
    (Nat.lt_add_of_pos_right (by decide))
  obtain ⟨value, r₁, hvalue, hbehind, hend, hsize₁⟩ := groups_joined he hf hcalm hfuel_e hfuel_f hop
    (precedence_binary hop) (skip_value plain_joined) hfresh rfl
    (by rw [Reader.movedTo_forest]; omega)
  rw [Reader.movedTo_forest] at hsize₁
  obtain ⟨id, r₂, hchain, hassigned, hcursor, -, -, -⟩ := name_assigned hr hkind hshown plain_joined
    hrest hvalue (hbehind.since (.refl _)) (by omega) ((joined e symbol f).length + 3)
  have hend₂ : r₂.cursor.rest = [] := by rw [hcursor, hend]
  exact ⟨id, r₂, hchain _ (chain_atEnd rfl hend₂), hend₂, hassigned.shown⟩

/-- Control flow in the first group ends the value, and the assignment is what is joined. -/
theorem reads_assigned_split {x : List Char} (hx : IsName x) (he : GroupReads e left fe)
    (hf : GroupReads f right ff) (hflow : (fe.kind? left).any (·.isControlFlow) = true)
    (hop : Operator.binary symbol precedence assoc op ∈ standard.operators)
    (hroom : fe.size + ff.size + 2 < 4294967295) :
    Reads (assigned x (joined e symbol f)) [(.of (.binary op
      (.of (.assign (.of (.name (String.ofList x))) none (fe.unfold left).bare))
      (ff.unfold right).bare), false)] := by
  refine reads_assigned hx fun r target hr hrest hkind hshown hsize => ?_
  obtain ⟨fuel, hlength, hfuel_e, hfuel_f⟩ := fuel_assigned x e symbol f
  rw [hlength]
  generalize (joined e symbol f).length = n
  have hleast : ¬precedence < 0 := UInt8.not_lt.mpr UInt8.zero_le
  have hfresh := hr.movedTo (c := ⟨r.cursor.offset + 3, joined e symbol f⟩)
    (Nat.lt_add_of_pos_right (by decide))
  have hrest₀ : (r.movedTo ⟨r.cursor.offset + 3, joined e symbol f⟩).cursor.rest
      = grouped e ++ ' ' :: (symbol ++ ' ' :: grouped f) := rfl
  obtain ⟨value, r₁, hvalue, hbehind, hrest₁, hsize₁, hpremise₁, -⟩ := group_ends he hfuel_e hflow
    (skip_value plain_joined) hfresh hrest₀ (by rw [Reader.movedTo_forest]; omega)
  rw [Reader.movedTo_forest] at hsize₁
  obtain ⟨id, r₂, hchain, hassigned, hcursor, hpremise, hsize₂, hflow₂⟩ := name_assigned hr hkind
    hshown plain_joined hrest hvalue (hbehind.since (.refl _)) (by omega) (n + 3)
  rw [← hcursor] at hrest₁
  obtain ⟨id₃, r₃, hchain₃, hjoined, hend, -⟩ := group_joined hf (Nat.le_succ_of_le hfuel_f) hop
    hleast
    ⟨hassigned.linked, by rw [hpremise, hcursor]; exact hpremise₁, hflow₂⟩ hassigned.shown hrest₁
    (by omega) (n + 1)
  exact ⟨id₃, r₃, hchain _ hchain₃, hend, hjoined.shown⟩

theorem head?_symbol (hop : Operator.binary symbol precedence assoc op ∈ standard.operators) :
    ∃ c cs, symbol = c :: cs ∧ c ≠ ';' ∧ c ≠ '\n' := by
  have hall : ∀ op ∈ Operator.standard, ∃ c ∈ op.symbol.head?, c ≠ ';' ∧ c ≠ '\n' := by decide
  obtain ⟨c, hc, hne⟩ := hall _ (mem_standard_operators.mp hop)
  obtain ⟨cs, hcs⟩ := List.head?_eq_some_iff.mp hc
  exact ⟨c, cs, hcs, hne⟩

/-- Control flow in the first group ends the first statement, and there is more to read. -/
theorem parse_split (he : GroupReads e left fe)
    (hflow : (fe.kind? left).any (·.isControlFlow) = true)
    (hop : Operator.binary symbol precedence assoc op ∈ standard.operators)
    (hroom : fe.size ≤ 4294967295) {program : Program}
    (hparse : standard.parse (joined e symbol f) = .ok program) :
    2 ≤ program.statements.length := by
  obtain ⟨fuel, hlength, hfuel_e, -⟩ := fuel_joined e symbol f
  obtain ⟨c, cs, rfl, hsemi, hline⟩ := head?_symbol hop
  obtain ⟨ts, r₁, hstatements, rfl⟩ := exists_of_parse hparse
  have hrest : (Reader.ofText (joined e (c :: cs) f)).cursor.rest
      = grouped e ++ ' ' :: (c :: cs ++ ' ' :: grouped f) := rfl
  have hempty : (Reader.ofText (joined e (c :: cs) f)).forest.size = 0 := rfl
  obtain ⟨id, r₂, hfirst, -, hrest₂, -, -, -⟩ := group_ends he hfuel_e hflow (skip_group hrest)
    (Reader.fresh_ofText _) hrest (by omega)
  rw [Surroundings.statements, rounds_bind] at hstatements
  obtain ⟨root, r₃, hroot, b₃, r₄, hskip, muted, r₅, hmuted, hmore⟩ :=
    statementList_more (skip_group hrest) rfl (by decide) (by decide) hstatements
  change standard.expression ((joined e (c :: cs) f).length + 1) .statement 0 _ = _ at hroot
  rw [hlength, hfirst] at hroot
  cases hroot
  have hsettled : standard.Settled Mode.statement.flags
      ⟨r₂.cursor.offset + 1, c :: cs ++ ' ' :: grouped f⟩ :=
    settled_symbol hop _ rfl (plain_grouped f)
  have hblank := skip_blank (s := standard.top (joined e (c :: cs) f)) rfl hrest₂ hsettled
  obtain ⟨rfl, rfl⟩ := Prod.mk.inj (Except.ok.inj (hskip.symm.trans hblank))
  have hstay : r₅ = r₂.movedTo ⟨r₂.cursor.offset + 1, c :: cs ++ ' ' :: grouped f⟩ := by
    rcases Surroundings.statementEnd_eq_ok_iff.mp hmuted with
      ⟨-, -, rfl⟩ | ⟨⟨hsep, -⟩ | ⟨hsep, -⟩, -⟩
    · rfl
    · exact absurd (Option.some.inj hsep) hsemi
    · exact absurd (Option.some.inj hsep) hline
  subst hstay
  have hstays := skip_stays (s := standard.top (joined e (c :: cs) f))
    (r := r₂.movedTo ⟨r₂.cursor.offset + 1, c :: cs ++ ' ' :: grouped f⟩) rfl hsettled
  obtain ⟨root, r₆, -, _, _, -, _, _, -, hlast⟩ :=
    statementList_more hstays rfl hsemi hline hmore
  have htwo := statementList_length hlast
  exact htwo

/-- An operator joins two groups if no control flow stands in the first; otherwise it does not. Also
the value of an assignment is then all that stands behind the sign, and otherwise the first group
alone, the assignment being what is joined. -/
theorem parse_groups {x : List Char} (hx : IsName x) (he : GroupReads e left fe)
    (hf : GroupReads f right ff)
    (hop : Operator.binary symbol precedence assoc op ∈ standard.operators)
    (hroom : fe.size + ff.size + 2 < 4294967295) :
    ((fe.kind? left).any (·.isControlFlow) = false →
      Reads (joined e symbol f)
          [(.of (.binary op (fe.unfold left).bare (ff.unfold right).bare), false)]
        ∧ Reads (assigned x (joined e symbol f)) [(.of (.assign (.of (.name (String.ofList x))) none
          (.of (.binary op (fe.unfold left).bare (ff.unfold right).bare))), false)])
      ∧ ((fe.kind? left).any (·.isControlFlow) = true →
        (∀ program, standard.parse (joined e symbol f) = .ok program →
            2 ≤ program.statements.length)
          ∧ Reads (assigned x (joined e symbol f)) [(.of (.binary op
            (.of (.assign (.of (.name (String.ofList x))) none (fe.unfold left).bare))
            (ff.unfold right).bare), false)]) := by
  refine ⟨fun hcalm => ⟨?_, ?_⟩, fun hflow => ⟨fun program hparse => ?_, ?_⟩⟩
  · exact reads_joined he hf hcalm hop (by omega)
  · exact reads_assigned_joined hx he hf hcalm hop hroom
  · exact parse_split he hflow hop (by omega) hparse
  · exact reads_assigned_split hx he hf hflow hop hroom

/-- Neither group holds control flow, so they are joined, also as a value. -/
theorem parse_groups_names : Reads "(a) + (b)".toList
      [(.of (.binary .add (.of (.name "a")) (.of (.name "b"))), false)]
    ∧ Reads "x = (a) + (b)".toList [(.of (.assign (.of (.name "x")) none
      (.of (.binary .add (.of (.name "a")) (.of (.name "b"))))), false)] := by
  have he : GroupReads ['a'] ⟨0⟩ ⟨#[⟨.name "a", ⟨1, 2⟩⟩]⟩ := ⟨_, rfl, rfl, rfl⟩
  have hf : GroupReads ['b'] ⟨0⟩ ⟨#[⟨.name "b", ⟨1, 2⟩⟩]⟩ := ⟨_, rfl, rfl, rfl⟩
  have hop : Operator.binary ['+'] Precedence.additive .left .add ∈ standard.operators :=
    mem_standard_operators.mpr (by simp [Operator.standard])
  have hx : IsName ['x'] := by decide
  exact (parse_groups hx he hf hop (by decide)).1 rfl

/-- A block in the first group ends the statement there. -/
theorem not_joined_block : ¬∀ (e f : List Char) (left right : NodeId) (fe ff : Forest),
    GroupReads e left fe → GroupReads f right ff →
    (∀ items, fe.kind? left ≠ some (.tuple items)) →
    (∀ items, ff.kind? right ≠ some (.tuple items)) → Reads (joined e ['+'] f)
      [(.of (.binary .add (fe.unfold left).bare (ff.unfold right).bare), false)] := by
  intro h
  have he : GroupReads ['{', 'a', '}'] ⟨1⟩
      ⟨#[⟨.name "a", ⟨2, 3⟩⟩, ⟨.block [(⟨0⟩, false)], ⟨1, 4⟩⟩]⟩ := ⟨_, rfl, rfl, rfl⟩
  have hf : GroupReads ['b'] ⟨0⟩ ⟨#[⟨.name "b", ⟨1, 2⟩⟩]⟩ := ⟨_, rfl, rfl, rfl⟩
  obtain ⟨program, hparse, hstatements⟩ := h _ _ _ _ _ _ he hf nofun nofun
  have hone : program.statements.length = 1 := by
    have hlength := congrArg List.length hstatements
    rwa [List.length_map] at hlength
  have htwo : (standard.parse (joined ['{', 'a', '}'] ['+'] ['b'])).toOption.map
      (·.statements.length) = some 2 := by decide +kernel
  rw [hparse] at htwo
  have hlength : program.statements.length = 2 := Option.some.inj htwo
  rw [hone] at hlength
  cases hlength

end Joined

end Grammar

end MatrixScript
