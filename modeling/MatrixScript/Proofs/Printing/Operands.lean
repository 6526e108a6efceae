import MatrixScript.Proofs.Groups
import MatrixScript.Proofs.Printing.Readable

/-!
# Printed operands

Names, literals, groups, and signs in front of an operand are read by forms, at every level. An
operand in a place that needs a level is read there with or without parentheses, whichever it has.
-/

namespace MatrixScript

namespace Printing

open Reading Grammar

variable {text rest d : List Char} {level edge fuel : Nat} {tree : Tree} {mode : Mode}
  {least : UInt8} {r r₁ : Reader}

/-! ### Names and literals -/

theorem readable_name (x : Name) : Readable x.chars level edge x.tree :=
  readable_of_operand (opens_name x) fun {mode fuel r₀ r rest} hstarts hapart _ => by
    obtain ⟨b, hskip⟩ := hstarts.skip
    have hroom : r.forest.size + 1 ≤ 4294967295 := hstarts.room
    obtain ⟨r₁, hoperand, hbehind, -, hcursor, -, hsize, hflow⟩ :=
      name_behind x.isName hapart.endsWord hskip hstarts.linked hstarts.rest hroom
    have hgrows : r.forest.Grows r₁.forest (nodes x.tree) :=
      ⟨hbehind.linked, hbehind.grown, Nat.le_of_eq hsize⟩
    exact ⟨_, r₁, hoperand, ⟨hgrows, hbehind.shown, by rw [hcursor]⟩, hflow⟩

theorem textBody?_escape_append (c : Char) (d : List Char) :
    Form.textBody? (escape c ++ d)
      = (Form.textBody? d).map fun (body, after) => (c :: body, after) := by
  unfold escape
  split_ifs with hquote hslash hline htab
  · subst hquote
    rfl
  · subst hslash
    rfl
  · subst hline
    rfl
  · subst htab
    rfl
  · simp [Form.textBody?, hslash]

theorem textBody?_escape (value d : List Char) :
    Form.textBody? (value.flatMap escape ++ '"' :: d) = some (value, d) := by
  induction value with
  | nil => rfl
  | cons c value ih =>
      rw [List.flatMap_cons, List.append_assoc, textBody?_escape_append, ih, Option.map_some]

theorem findForm?_text (flags : Flags) (d : List Char) :
    standard.findForm? ('"' :: d) flags = some Form.text := by
  cases flags with
  | mk a b c e => cases b <;> rfl

theorem readable_text (value : String) :
    Readable (Term.text value).chars level edge (Term.text value).tree := by
  refine readable_of_operand (opens_cons (by decide) (by decide) (by decide) _)
    fun {mode fuel r₀ r rest} hstarts _ _ => ?_
  have hrest : r.cursor.rest = '"' :: (value.toList.flatMap escape ++ '"' :: rest) := by
    rw [hstarts.rest, Term.chars, List.cons_append, List.append_assoc, List.singleton_append]
  have hbody : Form.textBody? (r.cursor.rest.drop 1) = some (value.toList, rest) := by
    rw [hrest, List.drop_one, List.tail_cons, textBody?_escape]
  have hbytes : byteCount r.cursor.rest - byteCount rest = byteCount (Term.text value).chars := by
    rw [hstarts.rest, byteCount_append, Nat.add_sub_cancel]
  have hread := (Form.text_read_eq_ok_iff (s := .standard mode fuel)).mpr
    ⟨value.toList, rest, hbody, allocFrom_eq_ok_iff.mpr ⟨rfl, rfl⟩⟩
  rw [hbytes, Cursor.advance_append hstarts.rest] at hread
  have hform : standard.findForm? r.cursor.rest mode.flags = some Form.text := by
    rw [hrest]
    exact findForm?_text _ _
  have hgrows : r.forest.Grows r.forest 0 := ⟨hstarts.linked, .refl _, Nat.le_refl _⟩
  rw [String.ofList_toList] at hread
  exact hstarts.node hform hread hgrows (Nat.zero_lt_one) (List.forall_mem_nil _) rfl rfl

/-! ### Groups -/

/-- Whether a tree is no control flow at its root. -/
def Inert (tree : Tree) : Prop := ∃ k, tree = .of k ∧ k.isControlFlow = false

theorem Inert.isControlFlow {f : Forest} {id : NodeId} (h : Inert tree) (hshown : f.Shows id tree) :
    (f.kind? id).any (·.isControlFlow) = false := by
  obtain ⟨k, rfl, hk⟩ := h
  obtain ⟨kind, hkind, hlabel, -⟩ := Forest.kind?_of_unfoldWith hshown.2
  have hsame : kind.label.isControlFlow = k.label.isControlFlow := by rw [hlabel]
  rw [NodeKind.label, NodeKind.label, NodeKind.isControlFlow_map, NodeKind.isControlFlow_map] at hsame
  rw [hkind, Option.any_some, hsame, hk]

theorem group_read {s : Surroundings} {id : NodeId}
    (h : s.delimited .group r.cursor.peekSpan '(' ')' .group (r.movedTo r.cursor.next)
      = .ok ([id], r₁)) : Form.group.read s r = .ok (id, r₁) := by
  simp only [Form.group, cursor_bind, next_bind]
  rw [bind_ok h]
  rfl

/-- A list in parentheses is read between them, by the form that reads groups. -/
theorem Items.grouped {texts : List (List Char)} {ts : List Tree} {r₀ : Reader} {n : Nat}
    (h : Items texts ts) (hstarts : Starts mode fuel r₀ r (grouped (commas texts)) rest n)
    (hn : nodesAll ts ≤ n) :
    standard.findForm? r.cursor.rest mode.flags = some Form.group
      ∧ ∃ ids r₁, (Surroundings.standard mode fuel).delimited .group r.cursor.peekSpan '(' ')' .group
          (r.movedTo r.cursor.next) = .ok (ids, r₁)
        ∧ List.Forall₂ r₁.forest.Shows ids ts ∧ r.forest.Grows r₁.forest (nodesAll ts)
        ∧ r₁.cursor.rest = rest := by
  have hroom := hstarts.room
  have hfuel := hstarts.fuel
  simp only [MatrixScript.grouped, List.length_cons, List.length_append] at hfuel
  obtain ⟨fuel, rfl⟩ : ∃ j, fuel = j + 1 := ⟨fuel - 1, by omega⟩
  have hrest : r.cursor.rest = '(' :: (commas texts ++ ')' :: rest) := by
    rw [hstarts.rest, MatrixScript.grouped, List.cons_append, List.append_assoc,
      List.singleton_append]
  have hnext : (r.movedTo r.cursor.next).cursor.rest = commas texts ++ ')' :: rest := by
    rw [Reader.movedTo_cursor, Cursor.next_cons hrest]
  have hshort : (commas texts).length ≤ fuel := by omega
  have hflat : Mode.group.flags.inMatrix = false := rfl
  refine ⟨?_, h.delimited hnext hstarts.linked hflat hshort ?_ mode r.cursor.peekSpan .group⟩
  · rw [hrest]
    exact findForm?_group _ _
  · rw [Reader.movedTo_forest]
    omega

theorem readable_group (h : Whole text 0 0 tree) (hinert : Inert tree) :
    Readable (grouped text) level edge tree := by
  refine readable_of_operand (opens_cons (by decide) (by decide) (by decide) _)
    fun {mode fuel r₀ r rest} hstarts _ _ => ?_
  obtain ⟨b, hskip⟩ := hstarts.skip
  have hitems : Items [text] [tree] := .cons h .nil
  obtain ⟨hform, ids, r₁, hdelimited, hshown, hgrows, hend⟩ :=
    hitems.grouped hstarts (Nat.le_refl _)
  obtain ⟨id, rfl⟩ : ∃ id, ids = [id] := List.length_eq_one_iff.mp hshown.length_eq
  have hid : r₁.forest.Shows id tree := (List.forall₂_cons.mp hshown).1
  exact ⟨id, _, operand_eq_ok_iff.mpr ⟨b, r, hskip, _, hform, r₁, group_read hdelimited, rfl⟩,
    ⟨hgrows, hid, hend⟩, hinert.isControlFlow hid⟩

/-- An operand that needs parentheses has them, and one that has none binds tightly enough. -/
theorem Readable.wrapped (h : Readable text level edge tree) (hinert : Inert tree) {need bound : Nat}
    (hedge : need ≤ level → bound ≤ edge) : Readable (wrap need level text) need bound tree := by
  unfold wrap
  split
  · have hloose : Readable text 0 0 tree := h.mono (Nat.zero_le _) (Nat.zero_le _)
    have hwhole : Whole text 0 0 tree := hloose.whole (Nat.zero_le _) (Nat.zero_le _)
    exact readable_group hwhole hinert
  · rename_i hle
    have hneed : need ≤ level := Nat.le_of_not_lt hle
    exact h.mono hneed (hedge hneed)

/-! ### Signs -/

theorem findForm?_leading (sign : Sign) (flags : Flags) (d : List Char) :
    standard.findForm? (sign.symbol :: d) flags = some Form.leading := by
  cases flags with
  | mk a b c e => cases sign <;> cases b <;> rfl

theorem leading_read {s : Surroundings} {sign : Sign} {id : NodeId}
    (hpeek : r.cursor.peek? = some sign.symbol)
    (h : s.expressionIn s.mode (Precedence.leading + 1) (r.movedTo r.cursor.next) = .ok (id, r₁)) :
    ∃ span, Form.leading.read s r
      = .ok (r₁.forest.nextId, r₁.withNode (.unary sign.op id) span) := by
  have hop : (Form.leadingOp? r.cursor.peek?).getD .not = sign.op := by
    rw [hpeek]
    cases sign <;> rfl
  refine ⟨r₁.cursor.spanFrom r.cursor.offset, ?_⟩
  simp only [Form.leading, cursor_bind, next_bind]
  rw [bind_ok h, hop]
  exact allocFrom_eq_ok_iff.mpr ⟨rfl, rfl⟩

theorem readable_leading (sign : Sign)
    (h : Whole text (Precedence.leading + 1) (Precedence.leading.toNat + 1) tree) :
    Readable (sign.symbol :: text) level (Precedence.leading.toNat + 1)
      (.of (.unary sign.op tree)) := by
  have hopens : Opens (sign.symbol :: text) := by
    cases sign <;> exact opens_cons (by decide) (by decide) (by decide) _
  refine readable_of_operand hopens fun {mode fuel r₀ r rest} hstarts hapart hhalts => ?_
  have hroom := hstarts.room
  have hfuel := hstarts.fuel
  have hnodes : nodes (.of (.unary sign.op tree)) = nodes tree + 1 := by
    change 0 + (nodes tree + 0) + 1 = _
    omega
  rw [List.length_cons] at hfuel
  obtain ⟨fuel, rfl⟩ : ∃ j, fuel = j + 1 := ⟨fuel - 1, by omega⟩
  have hrest : r.cursor.rest = sign.symbol :: (text ++ rest) := hstarts.rest
  have hnext : (r.movedTo r.cursor.next).cursor.rest = text ++ rest := by
    rw [Reader.movedTo_cursor, Cursor.next_cons hrest]
  have hinside : Starts mode fuel _ _ text rest (nodes tree) :=
    h.opens.starts hnext hstarts.linked hstarts.flat (by omega) (by rw [Reader.movedTo_forest]; omega)
  obtain ⟨id, r₁, hread, hleaves⟩ := h.reads hinside hapart hhalts
  obtain ⟨span, hleading⟩ :=
    leading_read (s := .standard mode (fuel + 1)) (Cursor.peek?_cons hrest) hread
  have hform : standard.findForm? r.cursor.rest mode.flags = some Form.leading := by
    rw [hrest]
    exact findForm?_leading _ _ _
  refine hstarts.node hform hleading hleaves.grows (by omega) ?_ ?_ hleaves.rest
  · intro child hchild
    cases List.mem_singleton.mp hchild
    exact hleaves.shown.1
  · change NodeKind.unary sign.op (r₁.forest.unfold id).bare = _
    rw [hleaves.shown.2]

end Printing

end MatrixScript
