import MatrixScript.Grammar.Standard
import MatrixScript.Proofs.Numerals.Scanning
import MatrixScript.Proofs.Reading.Expressions

/-!
# What operators give and forms accept

The families of the standard operators, and what each builds once its symbol has been passed.

A form that accepts a text knows its first character, and passes something of it. An operator is
found by its symbol, or it is the multiplication that a number offers to what stands behind it.
-/

namespace MatrixScript

open Reading

theorem Grammar.mem_insertRanked {α : Type} {rank : α → Nat} {x y : α} {xs : List α} :
    y ∈ insertRanked rank x xs ↔ y = x ∨ y ∈ xs := by
  have hmem : y ∈ xs ↔ y ∈ xs.takeWhile (rank x ≤ rank ·) ∨ y ∈ xs.dropWhile (rank x ≤ rank ·) := by
    rw [← List.mem_append, List.takeWhile_append_dropWhile]
  rw [hmem, insertRanked, List.mem_append, List.mem_cons]
  tauto

theorem Grammar.mem_standard_operators {op : Operator} :
    op ∈ standard.operators ↔ op ∈ Operator.standard := by
  have hfold : ∀ (ops found : List Operator),
      op ∈ ops.foldl (fun found op => insertRanked (byteCount ·.symbol) op found) found ↔
        op ∈ ops ∨ op ∈ found := by
    intro ops
    induction ops with
    | nil => simp
    | cons first ops ih =>
        intro found
        rw [List.foldl_cons, ih, mem_insertRanked, List.mem_cons]
        tauto
  have h := hfold Operator.standard []
  simp only [List.not_mem_nil, or_false] at h
  exact h

/-- The families of operators in the language. -/
theorem Operator.standard_cases {op : Operator} (h : op ∈ Grammar.standard.operators) :
    (∃ symbol o, op = assignment symbol o) ∨ op = lambda ∨ op = range ∨ op = call
      ∨ (∃ symbol p a o, op = binary symbol p a o) ∨ ∃ symbol p o, op = trailingUnary symbol p o := by
  rw [Grammar.mem_standard_operators] at h
  simp only [standard, List.mem_cons, List.not_mem_nil, or_false] at h
  rcases h with rfl | rfl | rfl | rfl | rfl | rfl | rfl | rfl | rfl | rfl | rfl | rfl | rfl | rfl
    | rfl | rfl | rfl | rfl | rfl | rfl | rfl | rfl | rfl | rfl | rfl | rfl | rfl | rfl | rfl
  all_goals first
    | exact .inl ⟨_, _, rfl⟩
    | exact .inr (.inl rfl)
    | exact .inr (.inr (.inl rfl))
    | exact .inr (.inr (.inr (.inl rfl)))
    | exact .inr (.inr (.inr (.inr (.inl ⟨_, _, _, _, rfl⟩))))
    | exact .inr (.inr (.inr (.inr (.inr ⟨_, _, _, rfl⟩))))

namespace Grammar

variable {s : Surroundings} {left : NodeId} {span : Span} {r r₁ : Reader}
  {kind : NodeKind NodeId}

theorem applyFixity_binary_eq_ok_iff {symbol : List Char} {p : UInt8} {a : Assoc} {op : BinaryOp} :
    applyFixity s (Operator.binary symbol p a op) left span r = .ok (kind, r₁) ↔
      ∃ right, s.expressionIn s.mode (Operator.rightPrecedence p a) r = .ok (right, r₁)
        ∧ kind = .binary op left right := by
  simp only [applyFixity, Operator.binary, bind_eq_ok_iff, pure_eq_ok_iff]
  constructor
  · rintro ⟨right, r₂, hright, rfl, rfl⟩
    exact ⟨right, hright, rfl⟩
  · rintro ⟨right, hright, rfl⟩
    exact ⟨right, r₁, hright, rfl, rfl⟩

theorem applyFixity_range_eq_ok_iff :
    applyFixity s Operator.range left span r = .ok (kind, r₁) ↔
      ∃ right, s.expressionIn s.mode Precedence.range r = .ok (right, r₁)
        ∧ kind = .range left right := by
  simp only [applyFixity, Operator.range, Operator.rightPrecedence, bind_eq_ok_iff, pure_eq_ok_iff]
  constructor
  · rintro ⟨right, r₂, hright, rfl, rfl⟩
    exact ⟨right, hright, rfl⟩
  · rintro ⟨right, hright, rfl⟩
    exact ⟨right, r₁, hright, rfl, rfl⟩

theorem applyFixity_trailing_eq_ok_iff {symbol : List Char} {p : UInt8} {op : UnaryOp} :
    applyFixity s (Operator.trailingUnary symbol p op) left span r = .ok (kind, r₁) ↔
      kind = .unary op left ∧ r₁ = r := by
  simp only [applyFixity, Operator.trailingUnary, pure_eq_ok_iff]

theorem applyFixity_call_eq_ok_iff :
    applyFixity s Operator.call left span r = .ok (kind, r₁) ↔
      ∃ args, s.delimited .arguments span '(' ')' .arguments r = .ok (args, r₁)
        ∧ kind = .call left args := by
  simp only [applyFixity, Operator.call, bind_eq_ok_iff, pure_eq_ok_iff]
  constructor
  · rintro ⟨args, r₂, hargs, rfl, rfl⟩
    exact ⟨args, hargs, rfl⟩
  · rintro ⟨args, hargs, rfl⟩
    exact ⟨args, r₁, hargs, rfl, rfl⟩

theorem applyFixity_assignment_eq_ok_iff {symbol : List Char} {op : Option BinaryOp} :
    applyFixity s (Operator.assignment symbol op) left span r = .ok (kind, r₁) ↔
      ∃ right target, s.expressionIn s.mode Precedence.assign r = .ok (right, r₁)
        ∧ r₁.forest.kind? left = some target
        ∧ Operator.isTarget r₁.forest op.isSome target = true
        ∧ kind = .assign left op right := by
  simp only [applyFixity, Operator.assignment, Operator.rightPrecedence, bind_eq_ok_iff (f := s.expressionIn _ _),
    get_bind, Forest.kind?]
  constructor
  · rintro ⟨right, r₂, hright, h⟩
    cases hnode : r₂.forest.get? left with
    | none =>
        rw [hnode] at h
        cases h
    | some node =>
        simp only [hnode, ite_run, ite_eq_iff, pure_eq_ok_iff, within_eq_ok_iff, fail_ne_ok] at h
        obtain ⟨htarget, rfl, rfl⟩ := h.resolve_right (by simp)
        exact ⟨right, node.kind, hright, by rw [hnode]; rfl, htarget, rfl⟩
  · rintro ⟨right, target, hright, hkind, htarget, rfl⟩
    refine ⟨right, r₁, hright, ?_⟩
    obtain ⟨node, hnode, rfl⟩ := Option.map_eq_some_iff.mp hkind
    simp only [hnode, htarget, if_true]
    rfl

theorem applyFixity_lambda_eq_ok_iff :
    applyFixity s Operator.lambda left span r = .ok (kind, r₁) ↔
      ∃ body head params, s.expressionIn s.mode Precedence.lambda r = .ok (body, r₁)
        ∧ r₁.forest.kind? left = some head
        ∧ Operator.parameters? r₁.forest head = some params
        ∧ kind = .lambda params body := by
  simp only [applyFixity, Operator.lambda, Operator.rightPrecedence, bind_eq_ok_iff (f := s.expressionIn _ _),
    get_bind]
  constructor
  · rintro ⟨body, r₂, hbody, h⟩
    cases hparams : (r₂.forest.kind? left).bind (Operator.parameters? r₂.forest) with
    | none =>
        rw [hparams] at h
        cases h
    | some params =>
        rw [hparams] at h
        obtain ⟨rfl, rfl⟩ := pure_eq_ok_iff.mp h
        obtain ⟨head, hhead, hparams⟩ := Option.bind_eq_some_iff.mp hparams
        exact ⟨body, head, params, hbody, hhead, hparams, rfl⟩
  · rintro ⟨body, head, params, hbody, hhead, hparams, rfl⟩
    refine ⟨body, r₁, hbody, ?_⟩
    rw [hhead, Option.bind_some, hparams]
    rfl

end Grammar

/-! ### What is found in a text -/

namespace Form

variable {cs : List Char} {flags : Flags}

theorem colon_of_accepts (h : everything.accepts cs flags = true) : cs.head? = some ':' := by
  have hmatch := (Bool.and_eq_true_iff.mp h).2
  split at hmatch
  · rfl
  · cases hmatch

theorem bar_of_accepts (h : abs.accepts cs flags = true) : cs.head? = some '|' :=
  of_decide_eq_true (Bool.and_eq_true_iff.mp h).1

theorem sign_of_accepts (h : leading.accepts cs flags = true) : ∃ x, cs.head? = some x := by
  cases hhead : cs.head? with
  | some x => exact ⟨x, rfl⟩
  | none =>
      change (leadingOp? cs.head?).isSome = true at h
      rw [hhead] at h
      cases h

theorem numberLength_pos (h : number.accepts cs flags = true) : numberLength cs ≠ 0 ∧ cs ≠ [] := by
  constructor
  · simp only [numberLength]
    rcases some_of_accepts h with hrun | ⟨hrun, hfraction⟩
    · omega
    · rw [hrun, List.drop_zero]
      omega
  · rintro rfl
    cases h

theorem identifier_length (h : identifier.accepts cs flags = true) :
    (cs.dropWhile isWordChar).length < cs.length := by
  have hstart := (Bool.and_eq_true_iff.mp h).1
  obtain ⟨x, hx, hletter⟩ := (Option.any_eq_true _ _).mp hstart
  obtain ⟨d, rfl⟩ := List.head?_eq_some_iff.mp hx
  have hword : isWordChar x = true := by
    rcases (Bool.or_eq_true _ _).mp hletter with h | h <;> simp [isWordChar, h]
  have hle := (List.dropWhile_suffix isWordChar (l := d)).length_le
  rw [List.dropWhile_cons_of_pos hword, List.length_cons]
  omega

end Form

namespace Grammar

theorem findForm?_eq_some {input : List Char} {flags : Flags} {form : Form}
    (h : standard.findForm? input flags = some form) :
    (∃ priority, (priority, form) ∈ Form.standard) ∧ form.accepts input flags = true := by
  obtain ⟨p, hfind, rfl⟩ := Option.map_eq_some_iff.mp h
  exact ⟨⟨p.1, List.mem_of_find?_eq_some hfind⟩, by simpa using List.find?_some hfind⟩

theorem findOperator?_eq_some {input : List Char} {premise : Option (List Char)}
    {found : OperatorMatch} (h : standard.findOperator? input premise = some found) :
    found.operator ∈ standard.operators ∧ ∃ p d, input = p ++ d ∧ found.bytes = byteCount p := by
  unfold findOperator? at h
  split at h
  · rename_i op hfind
    cases h
    have hprefix : op.symbol.isPrefixOf input = true := by simpa using List.find?_some hfind
    obtain ⟨d, hd⟩ := List.isPrefixOf_iff_prefix.mp hprefix
    exact ⟨List.mem_of_find?_eq_some hfind, op.symbol, d, hd.symm, rfl⟩
  · obtain ⟨op, hop, rfl⟩ := Option.map_eq_some_iff.mp h
    obtain ⟨symbol, -, hfind⟩ := Option.bind_eq_some_iff.mp hop
    exact ⟨List.mem_of_find?_eq_some hfind, [], input, rfl, rfl⟩

/-- Where operators go on, there is a character, and it is no newline. -/
theorem exists_of_endsOperators {g : Grammar} {flags : Flags} {spaced : Bool} {c : Cursor}
    (h : g.endsOperators flags spaced c.rest = false) : ∃ x, c.peek? = some x ∧ x ≠ '\n' := by
  cases hrest : c.rest with
  | nil =>
      rw [hrest] at h
      cases h
  | cons x d =>
      refine ⟨x, by rw [Cursor.peek?, hrest]; rfl, ?_⟩
      rintro rfl
      rw [hrest] at h
      simp [endsOperators] at h

theorem premise_of_standard {form : Form} (hform : form ∈ Form.standard.map (·.2)) :
    ∀ symbol ∈ form.premise, symbol = ['*'] := by
  have hall : ∀ premise ∈ (Form.standard.map (·.2)).map (·.premise),
      ∀ symbol ∈ premise, symbol = ['*'] := by decide
  exact hall _ (List.mem_map_of_mem hform)

theorem byteCount_symbol {op : Operator} (hop : op ∈ standard.operators) : byteCount op.symbol ≠ 0 := by
  have hall : ∀ op ∈ Operator.standard, byteCount op.symbol ≠ 0 := by decide
  exact hall op (mem_standard_operators.mp hop)

/-- An operator that is found is written, or else joins operands. -/
theorem findOperator?_pays {input : List Char} {premise : Option (List Char)}
    {found : OperatorMatch} (h : standard.findOperator? input premise = some found)
    (hpremise : ∀ symbol ∈ premise, symbol = ['*']) :
    found.bytes ≠ 0 ∨ found.operator.isJoining = true := by
  unfold findOperator? at h
  split at h
  · rename_i op hfind
    cases h
    exact .inl (byteCount_symbol (List.mem_of_find?_eq_some hfind))
  · obtain ⟨op, hop, rfl⟩ := Option.map_eq_some_iff.mp h
    obtain ⟨symbol, hsymbol, hfind⟩ := Option.bind_eq_some_iff.mp hop
    have htimes : (standard.operator? ['*']).all (·.isJoining) = true := by decide
    rw [hpremise symbol hsymbol] at hfind
    rw [hfind] at htimes
    exact .inr htimes

theorem premiseAt_offers {g : Grammar} {r : Reader} (hoffers : ∀ p ∈ r.premise, p.1 = ['*'])
    (flags : Flags) (start : Nat) (spaced : Bool) :
    ∀ symbol ∈ g.premiseAt r flags start spaced, symbol = ['*'] := by
  intro symbol hsymbol
  unfold premiseAt at hsymbol
  split at hsymbol
  · cases hsymbol
  · rename_i offered ended hoffered
    split at hsymbol
    · cases hsymbol
      exact hoffers _ hoffered
    · cases hsymbol

end Grammar

end MatrixScript
