import MatrixScript.Proofs.Printing.Operators

/-!
# Printed lambdas and assignments

The head of a lambda and the target of an assignment are read as operands before anything says what
they are. The operator behind them finds their nodes in the forest, as it has grown by then, and
checks them.
-/

namespace MatrixScript

namespace Printing

open Reading Grammar

variable {text left right : List Char} {level edge : Nat} {l t : Tree} {k : NodeKind Tree}

/-! ### Lists of names -/

theorem items_names (params : List Name) :
    Items (params.map (·.chars)) (params.map (·.tree)) := by
  refine List.forall₂_map_left_iff.mpr (List.forall₂_map_right_iff.mpr ?_)
  refine List.forall₂_same.mpr fun x _ => ?_
  have hread : Readable x.chars 0 0 x.tree := readable_name x
  exact hread.whole (Nat.le_refl _) (Nat.le_refl _)

theorem nodes_name (x : Name) : nodes x.tree = 1 := rfl

theorem nodesAll_names (params : List Name) : nodesAll (params.map (·.tree)) = params.length := by
  induction params with
  | nil => rfl
  | cons x params ih =>
      rw [List.map_cons, nodesAll, nodes_name, ih, List.length_cons, Nat.add_comm]

/-! ### Lambdas -/

/-- What stands in front of the arrow of a lambda, as it is read. -/
def headTree : List Name → Tree
  | [x] => x.tree
  | params => .of (.tuple (params.map (·.tree)))

theorem tuple_read {s : Surroundings} {r r₁ : Reader} {ids : List NodeId} (hids : ids.length ≠ 1)
    (h : s.delimited .group r.cursor.peekSpan '(' ')' .group (r.movedTo r.cursor.next)
      = .ok (ids, r₁)) :
    ∃ span, Form.group.read s r = .ok (r₁.forest.nextId, r₁.withNode (.tuple ids) span) := by
  refine ⟨r₁.cursor.spanFrom r.cursor.offset, ?_⟩
  simp only [Form.group, cursor_bind, next_bind]
  rw [bind_ok h]
  rcases ids with _ | ⟨only, _ | ⟨second, ids⟩⟩
  · rfl
  · exact absurd rfl hids
  · rfl

theorem readable_tuple {texts : List (List Char)} {ts : List Tree} (h : Items texts ts)
    (hcount : ts.length ≠ 1) :
    Readable (grouped (commas texts)) level edge (.of (.tuple ts)) := by
  refine readable_of_operand (opens_cons (by decide) (by decide) (by decide) _)
    fun {mode fuel r₀ r rest} hstarts _ _ => ?_
  have hnodes : nodes (.of (.tuple ts)) = nodesAll ts + 1 := by
    rw [nodes_of, NodeKind.children_tuple]
    exact congrArg (· + 1) (Nat.zero_add _)
  obtain ⟨hform, ids, r₁, hdelimited, hshown, hgrows, hend⟩ := h.grouped hstarts (by omega)
  have hlength := hshown.length_eq
  obtain ⟨span, hread⟩ := tuple_read (hlength ▸ hcount) hdelimited
  obtain ⟨hbelow, hunfold⟩ := unfold_of_shows hshown
  refine hstarts.node hform hread hgrows (by omega) ?_ ?_ hend
  · rw [NodeKind.children_tuple]
    exact hbelow
  · rw [NodeKind.map_tuple, hunfold]

theorem readable_head (params : List Name) :
    Readable (head params) level edge (headTree params) := by
  match params with
  | [] => exact readable_tuple (items_names []) (by simp)
  | [x] => exact readable_name x
  | x :: y :: others => exact readable_tuple (items_names (x :: y :: others)) (by simp)

theorem nodes_head (params : List Name) (body : Tree) :
    nodes (headTree params) = headNodes (.lambda (names params) body) := by
  have htuple : nodes (.of (.tuple (params.map (·.tree)))) = params.length + 1 := by
    rw [nodes_of, NodeKind.children_tuple, nodesAll_names]
    exact congrArg (· + 1) (Nat.zero_add _)
  have hcount : (names params).length = params.length := List.length_map _
  match params with
  | [] => exact htuple
  | [x] => rfl
  | x :: y :: others =>
      rw [← hcount] at htuple
      exact htuple

theorem nameOf?_mapM {f : Forest} {ids : List NodeId} {params : List String}
    (h : ids.map f.kind? = params.map fun x => some (.name x)) :
    ids.mapM (Operator.nameOf? f) = some params := by
  induction ids generalizing params with
  | nil =>
      cases params with
      | nil => rfl
      | cons x params => cases h
  | cons id ids ih =>
      cases params with
      | nil => cases h
      | cons x params =>
          rw [List.map_cons, List.map_cons, List.cons.injEq] at h
          have hname : Operator.nameOf? f id = some x := by rw [Operator.nameOf?, h.1]
          rw [List.mapM_cons, hname, ih h.2]
          rfl

/-- The node at the head of a lambda lists its parameters. -/
theorem parameters?_head {f : Forest} {id : NodeId} {params : List Name}
    (h : f.Shows id (headTree params)) :
    ∃ kind, f.kind? id = some kind ∧ Operator.parameters? f kind = some (names params) := by
  have htuple (hshown : f.Shows id (.of (.tuple (params.map (·.tree))))) :
      ∃ kind, f.kind? id = some kind ∧ Operator.parameters? f kind = some (names params) := by
    obtain ⟨kind, hkind, hlabel, n, hchildren⟩ := Forest.kind?_of_unfoldWith hshown.2
    cases kind with
    | tuple ids =>
        rw [NodeKind.children_tuple, NodeKind.children_tuple] at hchildren
        have hnames : ids.map (fun id => (f.unfoldWith n id).bare)
            = (names params).map fun x => .of (.name x) := by
          rw [hchildren, names, List.map_map]
          rfl
        exact ⟨.tuple ids, hkind, nameOf?_mapM (Forest.names_of_unfoldWith hnames)⟩
    | _ => simp [NodeKind.label, NodeKind.map, NodeKind.mapM] at hlabel
  rcases params with _ | ⟨x, _ | ⟨y, others⟩⟩
  · exact htuple h
  · exact ⟨_, Forest.name_of_unfoldWith h.2, rfl⟩
  · exact htuple h

theorem builds_lambda (params : List Name) (t : Tree) :
    Builds Operator.lambda Precedence.lambda (headTree params) t (.lambda (names params) t) := by
  intro s left right r r₁ hright hl ht
  obtain ⟨kind, hkind, hparams⟩ := parameters?_head hl
  refine ⟨.lambda (names params) right, fun span => ?_, fun id hid => ?_, ?_⟩
  · exact applyFixity_lambda_eq_ok_iff.mpr ⟨right, kind, _, hright, hkind, hparams, rfl⟩
  · exact .inr (List.mem_singleton.mp hid)
  · change NodeKind.lambda (names params) (r₁.forest.unfold right).bare = _
    rw [ht.2]

/-! ### Assignments -/

/-- Wherever the tree stands below a node, something can be assigned to the node. -/
def Assignable (compound : Bool) (l : Tree) : Prop :=
  ∀ {f : Forest} {id : NodeId}, f.Shows id l →
    ∃ kind, f.kind? id = some kind ∧ Operator.isTarget f compound kind = true

theorem assignable_name (compound : Bool) (x : Name) : Assignable compound x.tree :=
  fun {_ _} h => ⟨_, Forest.name_of_unfoldWith h.2, rfl⟩

theorem isName_of_unfoldWith {f : Forest} {id : NodeId} {n : Nat} {x : String}
    (h : (f.unfoldWith n id).bare = .of (.name x)) : Operator.isName f id = true := by
  rw [Operator.isName, Forest.name_of_unfoldWith h]

theorem assignable_call (compound : Bool) (x : Name) (ts : List Tree) :
    Assignable compound (.of (.call x.tree ts)) := by
  intro f id h
  obtain ⟨kind, hkind, hlabel, n, hchildren⟩ := Forest.kind?_of_unfoldWith h.2
  cases kind with
  | call callee args =>
      rw [NodeKind.children_call, NodeKind.children_call, List.map_cons, List.cons.injEq] at hchildren
      exact ⟨_, hkind, isName_of_unfoldWith hchildren.1⟩
  | _ => simp [NodeKind.label, NodeKind.map, NodeKind.mapM, List.mapM_pure] at hlabel

theorem assignable_row (first : Name) (others : List Name) :
    Assignable false (.of (.matrix [(first :: others).map (·.tree)])) := by
  intro f id h
  obtain ⟨kind, hkind, hlabel, n, hchildren⟩ := Forest.kind?_of_unfoldWith h.2
  cases kind with
  | matrix rows =>
      rw [NodeKind.label, NodeKind.label, NodeKind.map_matrix, NodeKind.map_matrix] at hlabel
      obtain ⟨row, rfl⟩ : ∃ row, rows = [row] := by
        have hlength := congrArg List.length (NodeKind.matrix.inj hlabel)
        rw [List.length_map, List.length_map] at hlength
        exact List.length_eq_one_iff.mp hlength
      rw [NodeKind.children_matrix, NodeKind.children_matrix, List.flatten_singleton,
        List.flatten_singleton] at hchildren
      have hrow : row ≠ [] := by
        rintro rfl
        cases hchildren
      have hnames : row.all (Operator.isName f) = true := by
        rw [List.all_eq_true]
        intro id hid
        have hmem := List.mem_map_of_mem (f := fun id => (f.unfoldWith n id).bare) hid
        rw [hchildren] at hmem
        obtain ⟨x, -, hx⟩ := List.mem_map.mp hmem
        exact isName_of_unfoldWith hx.symm
      refine ⟨_, hkind, ?_⟩
      simp only [Operator.isTarget, Bool.not_false, Bool.true_and, hnames, Bool.and_true]
      rw [Bool.not_eq_true', List.isEmpty_eq_false_iff]
      exact hrow
  | _ => simp [NodeKind.label, NodeKind.map, NodeKind.mapM, List.mapM_pure] at hlabel

theorem builds_assignment {symbol : List Char} {op : Option BinaryOp}
    (h : Assignable op.isSome l) (t : Tree) :
    Builds (Operator.assignment symbol op) Precedence.assign l t (.assign l op t) := by
  intro s left right r r₁ hright hl ht
  obtain ⟨kind, hkind, htarget⟩ := h hl
  refine ⟨.assign left op right, fun span => ?_, fun id hid => ?_, ?_⟩
  · exact applyFixity_assignment_eq_ok_iff.mpr ⟨right, kind, hright, hkind, htarget, rfl⟩
  · have hchildren : (NodeKind.assign left op right).children = [left, right] := rfl
    simpa [hchildren] using hid
  · change NodeKind.assign (r₁.forest.unfold left).bare op (r₁.forest.unfold right).bare = _
    rw [hl.2, ht.2]

/-! ### Rows of names -/

/-- A name is read in front of what ends an operand in every mode, also between brackets. -/
theorem name_expression {mode : Mode} {fuel : Nat} {b : Bool} {r₀ r : Reader} {rest : List Char}
    (x : Name) (hskip : (Surroundings.standard mode fuel).skip r₀ = .ok (b, r))
    (hrest : r.cursor.rest = x.chars ++ rest) (hends : EndsWord rest) (hhalts : Halts mode 0 rest)
    (hlinked : r.forest.Linked) (hroom : r.forest.size < 4294967295) :
    ∃ id r₁, standard.expression (fuel + 1) mode 0 r₀ = .ok (id, r₁)
      ∧ Leaves r.forest r₁ id x.tree rest := by
  obtain ⟨r₁, hoperand, hbehind, -, hcursor, -, hsize, hflow⟩ :=
    name_behind x.isName hends hskip hlinked hrest hroom
  have hrest₁ : r₁.cursor.rest = rest := by rw [hcursor]
  have hchain := hhalts fuel 0 r₁.cursor.rest.length r.forest.nextId r₁ (Nat.le_refl _) hrest₁
  exact ⟨_, r₁, expression_eq_ok_iff.mpr ⟨_, r₁, hoperand, .inr ⟨hflow, hchain⟩⟩,
    ⟨hbehind.linked, hbehind.grown, Nat.le_of_eq hsize⟩, hbehind.shown, hrest₁⟩

/-- One round of the loop over the rows reads a name. -/
theorem matrixRows_name {fuel : Nat} {b : Bool} {r₀ r : Reader} {c : Char} {d : List Char}
    (x : Name) (hskip : (Surroundings.standard .matrix (fuel + 1)).skip r₀ = .ok (b, r))
    (hrest : r.cursor.rest = x.chars ++ c :: d) (hc : c ∈ closing) (hlinked : r.forest.Linked)
    (hroom : r.forest.size < 4294967295) (opener : Span) (row : List NodeId) :
    ∃ id r₁, Leaves r.forest r₁ id x.tree (c :: d) ∧ ∀ k p,
      Form.matrixRows (.standard .matrix (fuel + 1)) opener k (id :: row) [] r₁ = .ok p →
        Form.matrixRows (.standard .matrix (fuel + 1)) opener (k + 1) row [] r₀ = .ok p := by
  obtain ⟨y, hhead, hstart⟩ := x.isName.start
  have hmarks : ∀ y ∈ [']', ';', '\n', ','], isWordStart y = false := by decide
  have hy : y ∉ [']', ';', '\n', ','] := by
    intro hmem
    rw [hmarks y hmem] at hstart
    cases hstart
  simp only [List.mem_cons, List.not_mem_nil, or_false, not_or] at hy
  obtain ⟨hclose, hsemi, hline, hcomma⟩ := hy
  have hpeek : r.cursor.peek? = some y := by
    rw [Cursor.peek?, hrest, List.head?_append, hhead]
    rfl
  have hplain : Plain r.cursor.rest := hrest ▸ plain_of_isName x.isName _
  have hstays : (Surroundings.standard .matrix fuel).skip r = .ok (false, r) :=
    skip_stays rfl (hplain.settled _)
  obtain ⟨id, r₁, hread, hleaves⟩ := name_expression x hstays hrest (apart_closing hc d).endsWord
    (halts_closing hc d) hlinked hroom
  refine ⟨id, r₁, hleaves, fun k p hmore => ?_⟩
  exact Form.matrixRows_eq_ok_iff.mpr ⟨b, r, hskip, y, hpeek, .inr ⟨hclose, .inr
    ⟨not_or.mpr ⟨hsemi, hline⟩, .inr ⟨hcomma, id, r₁, hread, hmore⟩⟩⟩⟩

/-- The loop reads the names of a row, and passes the commas between them. -/
theorem matrixRows_names {fuel k : Nat} {b : Bool} {r₀ r : Reader} {rest : List Char}
    (params : List Name) (hne : params ≠ [])
    (hskip : (Surroundings.standard .matrix (fuel + 1)).skip r₀ = .ok (b, r))
    (hrest : r.cursor.rest = commas (params.map (·.chars)) ++ ']' :: rest)
    (hlinked : r.forest.Linked) (hroom : r.forest.size + params.length ≤ 4294967295)
    (hk : 2 * params.length ≤ k) (opener : Span) (row : List NodeId) :
    ∃ ids r₁, Form.matrixRows (.standard .matrix (fuel + 1)) opener k row [] r₀
        = .ok ([row.reverse ++ ids], r₁)
      ∧ List.Forall₂ r₁.forest.Shows ids (params.map (·.tree))
      ∧ r.forest.Grows r₁.forest params.length ∧ r₁.cursor.rest = rest := by
  induction params generalizing r₀ r b row k with
  | nil => exact absurd rfl hne
  | cons x params ih =>
      rw [List.length_cons] at hk hroom
      obtain ⟨k, rfl⟩ : ∃ j, k = j + 2 := ⟨k - 2, by omega⟩
      by_cases hlast : params = []
      · subst hlast
        have hclosing : ']' ∈ closing := by decide
        obtain ⟨id, r₁, hleaves, hread⟩ :=
          matrixRows_name x hskip hrest hclosing hlinked (by omega) opener row
        have hskip₁ := hleaves.stays (plain_closing hclosing rest) .matrix (fuel + 1)
        have hrow : [row.reverse ++ [id]] = (Form.endRow (id :: row) []).reverse := by
          rw [Form.endRow, List.isEmpty_cons, List.reverse_cons]
          rfl
        refine ⟨[id], r₁.movedTo r₁.cursor.next, hread (k + 1) _ ?_, .cons hleaves.shown .nil,
          hleaves.grows, hleaves.next⟩
        exact Form.matrixRows_eq_ok_iff.mpr ⟨false, r₁, hskip₁, ']',
          Cursor.peek?_cons hleaves.rest, .inl ⟨rfl, hrow, rfl⟩⟩
      · have hnames : params.map (·.chars) ≠ [] := by simpa using hlast
        have hopens : Opens (commas (params.map (·.chars))) := (items_names params).opens hnames
        have hclosing : ',' ∈ closing := by decide
        rw [List.map_cons, commas_cons _ hnames, List.append_assoc] at hrest
        obtain ⟨id, r₁, hleaves, hread⟩ :=
          matrixRows_name x hskip hrest hclosing hlinked (by omega) opener row
        have hsize := hleaves.grows.size
        rw [nodes_name] at hsize
        have hskip₁ := hleaves.stays (plain_closing hclosing _) .matrix (fuel + 1)
        have hblank := skip_blank (s := .standard .matrix (fuel + 1)) rfl hleaves.next
          (Plain.settled (c := ⟨_, _⟩) (hopens.plain _) _)
        obtain ⟨ids, r₂, hrows, hshown, hgrows, hend⟩ := ih (k := k) hlast hblank rfl
          hleaves.grows.linked (by simp only [Reader.movedTo_forest]; omega) (by omega) (id :: row)
        have hall := hleaves.grows.trans hgrows
        have hsize₂ := hall.size
        rw [nodes_name] at hsize₂
        have hfirst := hleaves.shown.extends hgrows.grown hleaves.grows.linked (by omega)
        rw [List.reverse_cons, List.append_assoc, List.singleton_append] at hrows
        refine ⟨id :: ids, r₂, hread (k + 1) _ ?_, .cons hfirst hshown, ?_, hend⟩
        · exact Form.matrixRows_eq_ok_iff.mpr ⟨false, r₁, hskip₁, ',',
            Cursor.peek?_cons hleaves.rest, .inr ⟨by decide, .inr ⟨by decide, .inl ⟨rfl, hrows⟩⟩⟩⟩
        · rw [nodes_name, Nat.add_comm] at hall
          exact hall

theorem findForm?_matrix (flags : Flags) (d : List Char) :
    standard.findForm? ('[' :: d) flags = some Form.matrix := by
  cases flags with
  | mk a b c e => cases b <;> rfl

theorem matrix_read {s : Surroundings} {r r₁ : Reader} {rows : List (List NodeId)}
    (h : Form.matrixRows (s.inside .matrix) r.cursor.peekSpan
      ((r.movedTo r.cursor.next).cursor.rest.length + 1) [] [] (r.movedTo r.cursor.next)
        = .ok (rows, r₁)) :
    ∃ span, Form.matrix.read s r = .ok (r₁.forest.nextId, r₁.withNode (.matrix rows) span) := by
  have hwithin : (within .matrix (do
      Form.matrixRows (s.inside .matrix) r.cursor.peekSpan (← Surroundings.rounds) [] []) :
        Reading _) (r.movedTo r.cursor.next) = .ok (rows, r₁) := within_eq_ok_iff.mpr h
  refine ⟨r₁.cursor.spanFrom r.cursor.offset, ?_⟩
  simp only [Form.matrix, cursor_bind, next_bind]
  rw [bind_ok hwithin]
  rfl

theorem readable_row (first : Name) (others : List Name) :
    Readable ('[' :: (commas ((first :: others).map (·.chars)) ++ [']'])) level edge
      (.of (.matrix [(first :: others).map (·.tree)])) := by
  refine readable_of_operand (opens_cons (by decide) (by decide) (by decide) _)
    fun {mode fuel r₀ r rest} hstarts _ _ => ?_
  have hroom := hstarts.room
  have hfuel := hstarts.fuel
  have hnodes : nodes (.of (.matrix [(first :: others).map (·.tree)]))
      = (first :: others).length + 1 := by
    rw [nodes_of, NodeKind.children_matrix, List.flatten_singleton, nodesAll_names]
    exact congrArg (· + 1) (Nat.zero_add _)
  simp only [List.length_cons, List.length_append] at hfuel
  obtain ⟨fuel, rfl⟩ : ∃ j, fuel = j + 1 := ⟨fuel - 1, by omega⟩
  have hrest : r.cursor.rest = '[' :: (commas ((first :: others).map (·.chars)) ++ ']' :: rest) := by
    rw [hstarts.rest, List.cons_append, List.append_assoc, List.singleton_append]
  have hnext : (r.movedTo r.cursor.next).cursor.rest
      = commas ((first :: others).map (·.chars)) ++ ']' :: rest := by
    rw [Reader.movedTo_cursor, Cursor.next_cons hrest]
  have hopens : Opens (commas ((first :: others).map (·.chars))) :=
    (items_names (first :: others)).opens (List.cons_ne_nil _ _)
  have hskip : (Surroundings.standard .matrix (fuel + 1)).skip (r.movedTo r.cursor.next)
      = .ok (false, r.movedTo r.cursor.next) :=
    skip_stays rfl (Plain.settled (hnext ▸ hopens.plain _) _)
  have hrounds : 2 * (first :: others).length
      ≤ (r.movedTo r.cursor.next).cursor.rest.length + 1 := by
    have hle := (items_names (first :: others)).length_le
    rw [List.length_map] at hle
    rw [hnext, List.length_append]
    omega
  obtain ⟨ids, r₁, hrows, hshown, hgrows, hend⟩ := matrixRows_names (first :: others)
    (List.cons_ne_nil _ _) hskip hnext hstarts.linked (by rw [Reader.movedTo_forest]; omega) hrounds
    r.cursor.peekSpan []
  rw [List.reverse_nil, List.nil_append] at hrows
  obtain ⟨span, hread⟩ := matrix_read (s := .standard mode (fuel + 1)) hrows
  have hform : standard.findForm? r.cursor.rest mode.flags = some Form.matrix := by
    rw [hrest]
    exact findForm?_matrix _ _
  obtain ⟨hbelow, hunfold⟩ := unfold_of_shows hshown
  refine hstarts.node hform hread hgrows (by omega) ?_ ?_ hend
  · rw [NodeKind.children_matrix, List.flatten_singleton]
    exact hbelow
  · rw [NodeKind.map_matrix, List.map_singleton, hunfold]

end Printing

end MatrixScript
