import MatrixScript.Proofs.Printing.Operators

/-!
# Printed lines and blocks

A statement is read up to the mark at the end of its line. Behind the mark stands the next line, a
closing brace or the end of the text, none of which is an `else` that the statement could still
take. The induction over the lines carries that much about the rest of the text.
-/

namespace MatrixScript

namespace Printing

open Reading Grammar

/-- What can stand behind the end of a line. -/
def Follows (d : List Char) : Prop := Plain d ∧ startsWithWord ['e', 'l', 's', 'e'] d = false

/-- The text is read as a tree where a statement stands, with the mark at its end next. -/
structure Stated (text : List Char) (tree : Tree) : Prop where
  opens : Opens text
  reads {mode : Mode} {fuel : Nat} {r₀ r : Reader} {c : Char} {d : List Char} :
    Starts mode fuel r₀ r text (c :: d) (nodes tree) → mode.flags.newlineSignificant = true →
    c = ';' ∨ c = '\n' → Follows d →
    ∃ id r₁, standard.expression (fuel + 1) mode 0 r₀ = .ok (id, r₁)
      ∧ Leaves r.forest r₁ id tree (c :: d)

/-- The text is read as a tree whatever stands behind it. -/
structure Closed (text : List Char) (tree : Tree) : Prop where
  opens : Opens text
  reads {mode : Mode} {fuel : Nat} {least : UInt8} {r₀ r : Reader} {rest : List Char} :
    Starts mode fuel r₀ r text rest (nodes tree) →
    ∃ id r₁, standard.expression (fuel + 1) mode least r₀ = .ok (id, r₁)
      ∧ Leaves r.forest r₁ id tree rest

variable {text d tail : List Char} {tree : Tree} {mode : Mode} {fuel k : Nat} {r : Reader}
  {close : Option Char}

theorem Closed.whole (h : Closed text tree) (least : UInt8) (edge : Nat) :
    Whole text least edge tree :=
  ⟨h.opens, fun hstarts _ _ => h.reads hstarts⟩

theorem Closed.stated (h : Closed text tree) : Stated text tree :=
  ⟨h.opens, fun hstarts _ _ _ => h.reads hstarts⟩

/-- An expression is a statement, since the mark at the end of a line halts it. -/
theorem Whole.stated (h : Whole text 0 0 tree) : Stated text tree where
  opens := h.opens
  reads {mode fuel r₀ r c d} hstarts hmode hc _ := by
    rcases hc with rfl | rfl
    · have hmark : ';' ∈ closing := by decide
      exact h.reads hstarts (apart_closing hmark d) (halts_closing hmark d)
    · exact h.reads hstarts (apart_cons (by decide) (by decide) d) (halts_newline hmode d)

/-! ### Lines -/

/-- The statement lists show lines of trees, each with its mark. -/
def ShowsLines (f : Forest) (ts : List Statement) (lines : List (Tree × Bool)) : Prop :=
  List.Forall₂ (fun t line => f.Shows t.root line.1 ∧ t.muted = line.2) ts lines

/-- Every command among the lines is read. -/
def AllStated (lines : List Line) : Prop :=
  ∀ command muted, .mk command muted ∈ lines → Stated command.chars command.tree

def linesNodes (lines : List Line) : Nat := nodesAll ((linesTrees lines).map (·.1))

theorem follows_lines {lines : List Line} (h : AllStated lines) (htail : Follows tail) :
    Follows (linesChars lines ++ tail) := by
  cases lines with
  | nil => exact htail
  | cons line lines =>
      obtain ⟨command, muted⟩ := line
      have hcommand := h command muted List.mem_cons_self
      rw [linesChars, List.append_assoc]
      refine ⟨hcommand.opens.plain _, hcommand.opens.other _ ?_⟩
      cases muted <;> exact fun c hc => by cases hc; decide

theorem lines_length (lines : List Line) (h : AllStated lines) :
    lines.length ≤ (linesChars lines).length := by
  induction lines with
  | nil => exact Nat.le_refl _
  | cons line lines ih =>
      obtain ⟨command, muted⟩ := line
      have hmore := ih fun c m hmem => h c m (List.mem_cons_of_mem _ hmem)
      rw [linesChars, List.length_append, List.length_cons, List.length_cons]
      omega

/-- The statements are read up to what closes them. Each round of the loop reads a line with its end
mark, so what is left starts the way the lines do. -/
theorem statementList_lines (mode : Mode) (lines : List Line) (h : AllStated lines)
    (hmode : mode.flags.newlineSignificant = true) (hflat : mode.flags.inMatrix = false)
    (hclose : ∀ x ∈ close, x ∈ closing) (hend : tail.head? = close) (htail : Follows tail)
    (hrest : r.cursor.rest = linesChars lines ++ tail) (hlinked : r.forest.Linked)
    (hfuel : (linesChars lines).length ≤ fuel)
    (hroom : r.forest.size + linesNodes lines ≤ 4294967295) (hk : lines.length < k)
    (found : List Statement) :
    ∃ ts r₁, (Surroundings.standard mode (fuel + 1)).statementList close k found r
        = .ok (found.reverse ++ ts, r₁)
      ∧ ShowsLines r₁.forest ts (linesTrees lines)
      ∧ r.forest.Grows r₁.forest (linesNodes lines) ∧ r₁.cursor.rest = tail := by
  induction lines generalizing r k found with
  | nil =>
      obtain ⟨k, rfl⟩ : ∃ j, k = j + 1 := ⟨k - 1, by omega⟩
      have hskip : (Surroundings.standard mode (fuel + 1)).skip r = .ok (false, r) := by
        have hplain : Plain r.cursor.rest := hrest ▸ htail.1
        exact skip_stays rfl (hplain.settled _)
      have hpeek : r.cursor.peek? = close := by rw [Cursor.peek?, hrest]; exact hend
      refine ⟨[], r, Surroundings.statementList_eq_ok_iff.mpr ⟨false, r, hskip,
        .inl ⟨.inr hpeek, List.append_nil _, rfl⟩⟩, .nil, ⟨hlinked, .refl _, Nat.le_refl _⟩, hrest⟩
  | cons line lines ih =>
      obtain ⟨command, muted⟩ := line
      obtain ⟨k, rfl⟩ : ∃ j, k = j + 1 := ⟨k - 1, by omega⟩
      have hcommand := h command muted List.mem_cons_self
      have hothers : AllStated lines := fun c m hmem => h c m (List.mem_cons_of_mem _ hmem)
      have hnodes : linesNodes (.mk command muted :: lines)
          = nodes command.tree + linesNodes lines := rfl
      let mark := if muted then ';' else '\n'
      have hmark : mark = ';' ∨ mark = '\n' := by cases muted <;> simp [mark]
      rw [linesChars, List.length_append, List.length_cons] at hfuel
      rw [linesChars, List.append_assoc, List.cons_append] at hrest
      have hstarts : Starts mode fuel r r command.chars (mark :: (linesChars lines ++ tail))
          (nodes command.tree) :=
        hcommand.opens.starts hrest hlinked hflat (by omega) (by omega)
      obtain ⟨root, r₁, hread, hleaves⟩ :=
        hcommand.reads hstarts hmode hmark (follows_lines hothers htail)
      have hpeek := Cursor.peek?_cons hleaves.rest
      have hstays : (Surroundings.standard mode (fuel + 1)).skip r₁ = .ok (false, r₁) := by
        refine skip_stays rfl ?_
        cases muted with
        | false => exact settled_newline hmode hleaves.rest
        | true => exact settled_of_peek? _ hpeek (by decide)
      have hsize := hleaves.grows.size
      have hmuted : Surroundings.statementEnd close r₁ = .ok (muted, r₁.movedTo r₁.cursor.next) := by
        refine Surroundings.statementEnd_eq_ok_iff.mpr (.inr ⟨?_, rfl⟩)
        cases muted with
        | false => exact .inr ⟨hpeek, rfl⟩
        | true => exact .inl ⟨hpeek, rfl⟩
      obtain ⟨ts, r₂, hmore, hshown, hgrows, hrest₂⟩ := ih (k := k) hothers hleaves.next
        hleaves.grows.linked (by omega) (by rw [Reader.movedTo_forest]; omega)
        (by rw [List.length_cons] at hk; omega) (⟨root, muted⟩ :: found)
      have hall := hleaves.grows.trans hgrows
      have hsize₂ := hall.size
      have hfirst := hleaves.shown.extends hgrows.grown hleaves.grows.linked (by omega)
      obtain ⟨c, hhead, hc⟩ := hcommand.opens.head
      have hfirstPeek : r.cursor.peek? = some c := by
        rw [Cursor.peek?, hrest, List.head?_append, hhead]
        rfl
      have hother : some c ≠ close := fun heq => hc.2 (hclose c heq.symm)
      have hnoMark : ¬(c = ';' ∨ c = '\n') := by
        rintro (rfl | rfl)
        · exact hc.2 (by decide)
        · exact hc.1 (by decide)
      have hfirstStays : (Surroundings.standard mode (fuel + 1)).skip r = .ok (false, r) :=
        skip_stays rfl (settled_of_peek? _ hfirstPeek hc.1)
      rw [List.reverse_cons, List.append_assoc, List.singleton_append] at hmore
      exact ⟨⟨root, muted⟩ :: ts, r₂, Surroundings.statementList_eq_ok_iff.mpr
        ⟨false, r, hfirstStays, .inr ⟨c, hfirstPeek, hother, .inr ⟨hnoMark, root, r₁, hread, false,
          r₁, hstays, muted, _, hmuted, hmore⟩⟩⟩, .cons ⟨hfirst, rfl⟩ hshown, hall, hrest₂⟩

/-! ### Blocks -/

/-- Control flow that is a new node above those that its form has read is a whole expression. -/
theorem Starts.flow {r₀ r₁ : Reader} {rest : List Char} {n : Nat} {least : UInt8}
    {k : NodeKind Tree} (h : Starts mode fuel r₀ r text rest (nodes (.of k)))
    (hflow : k.isControlFlow = true) {form : Form}
    (hform : standard.findForm? r.cursor.rest mode.flags = some form) {kind : NodeKind NodeId}
    {span : Span}
    (hread : form.read (.standard mode fuel) r = .ok (r₁.forest.nextId, r₁.withNode kind span))
    (hgrows : r.forest.Grows r₁.forest n) (hn : n < nodes (.of k))
    (hchildren : ∀ id ∈ kind.children, id.Below r₁.forest.size)
    (hk : kind.map (fun id => (r₁.forest.unfold id).bare) = k) (hrest : r₁.cursor.rest = rest) :
    ∃ id r₂, standard.expression (fuel + 1) mode least r₀ = .ok (id, r₂)
      ∧ Leaves r.forest r₂ id (.of k) rest := by
  obtain ⟨id, r₂, hoperand, hleaves, hafter⟩ :=
    h.node hform hread hgrows hn hchildren hk hrest
  exact ⟨id, r₂, expression_eq_ok_iff.mpr ⟨id, r₂, hoperand, .inl ⟨hafter.trans hflow, rfl, rfl⟩⟩,
    hleaves⟩

theorem findForm?_block (flags : Flags) (d : List Char) :
    standard.findForm? ('\x7b' :: d) flags = some Form.block := by
  cases flags with
  | mk a b c e => cases b <;> rfl

theorem block_read {s : Surroundings} {ts : List Statement} {r₁ r₂ : Reader}
    (hlist : (s.inside .block).statements (some '\x7d') (r.movedTo r.cursor.next) = .ok (ts, r₁))
    (hend : (s.inside .block).expectClose r.cursor.peekSpan '\x7b' '\x7d' r₁ = .ok ((), r₂)) :
    ∃ span, Form.block.read s r = .ok (r₂.forest.nextId,
      r₂.withNode (.block (ts.map fun t => (t.root, t.muted))) span) := by
  have hbody : (within .block (do
      let statements ← (s.inside .block).statements (some '\x7d')
      (s.inside .block).expectClose r.cursor.peekSpan '\x7b' '\x7d'
      return statements) : Reading _) (r.movedTo r.cursor.next) = .ok (ts, r₂) := by
    refine within_eq_ok_iff.mpr (bind_eq_ok_iff.mpr ⟨ts, r₁, hlist, ?_⟩)
    exact bind_eq_ok_iff.mpr ⟨(), r₂, hend, rfl⟩
  refine ⟨r₂.cursor.spanFrom r.cursor.offset, ?_⟩
  simp only [Form.block, cursor_bind, next_bind]
  rw [bind_ok hbody]
  rfl

theorem unfold_of_showsLines {f : Forest} {ts : List Statement} {lines : List (Tree × Bool)}
    (h : ShowsLines f ts lines) :
    (∀ t ∈ ts, t.root.Below f.size)
      ∧ ts.map (fun t => ((f.unfold t.root).bare, t.muted)) = lines := by
  induction h with
  | nil => exact ⟨List.forall_mem_nil _, rfl⟩
  | @cons t line ts lines hfirst _ ih =>
      refine ⟨List.forall_mem_cons.mpr ⟨hfirst.1.1, ih.1⟩, ?_⟩
      rw [List.map_cons, ih.2, hfirst.1.2, hfirst.2]

theorem closed_block (body : List Line) (h : AllStated body) :
    Closed (braces (linesChars body)) (.of (.block (linesTrees body))) := by
  refine ⟨opens_cons (by decide) (by decide) (by decide) _,
    fun {mode fuel least r₀ r rest} hstarts => ?_⟩
  have hroom := hstarts.room
  have hfuel := hstarts.fuel
  have hnodes : nodes (.of (.block (linesTrees body))) = linesNodes body + 1 := by
    rw [nodes_of, NodeKind.children_block]
    exact congrArg (· + 1) (Nat.zero_add _)
  simp only [braces, List.length_cons, List.length_append] at hfuel
  obtain ⟨fuel, rfl⟩ : ∃ j, fuel = j + 1 := ⟨fuel - 1, by omega⟩
  have hrest : r.cursor.rest = '\x7b' :: (linesChars body ++ '\x7d' :: rest) := by
    rw [hstarts.rest, braces, List.cons_append, List.append_assoc, List.singleton_append]
  have hnext : (r.movedTo r.cursor.next).cursor.rest = linesChars body ++ '\x7d' :: rest := by
    rw [Reader.movedTo_cursor, Cursor.next_cons hrest]
  have hbrace : '\x7d' ∈ closing := by decide
  have hclose : ∀ x ∈ some '\x7d', x ∈ closing := fun x hx => Option.mem_some.mp hx ▸ hbrace
  have hfollows : Follows ('\x7d' :: rest) := ⟨plain_closing hbrace rest, rfl⟩
  have hrounds : body.length < (r.movedTo r.cursor.next).cursor.rest.length + 1 := by
    have hle := lines_length body h
    rw [hnext, List.length_append]
    omega
  have hshort : (linesChars body).length ≤ fuel := by omega
  obtain ⟨ts, r₁, hlist, hshown, hgrows, hrest₁⟩ := statementList_lines .block body h rfl rfl
    hclose rfl hfollows hnext hstarts.linked hshort (by rw [Reader.movedTo_forest]; omega)
    hrounds []
  have hend := closes hrest₁ hbrace .block (fuel + 1) r.cursor.peekSpan '\x7b'
  have hbehind : (r₁.movedTo r₁.cursor.next).cursor.rest = rest := by
    rw [Reader.movedTo_cursor, Cursor.next_cons hrest₁]
  obtain ⟨span, hread⟩ := block_read (s := .standard mode (fuel + 1)) hlist hend
  have hform : standard.findForm? r.cursor.rest mode.flags = some Form.block := by
    rw [hrest]
    exact findForm?_block _ _
  obtain ⟨hbelow, hunfold⟩ := unfold_of_showsLines hshown
  refine hstarts.flow rfl hform hread hgrows (by omega) ?_ ?_ hbehind
  · rw [NodeKind.children_block, List.map_map]
    exact fun id hid => by obtain ⟨t, ht, rfl⟩ := List.mem_map.mp hid; exact hbelow t ht
  · rw [NodeKind.map_block, List.map_map]
    exact congrArg NodeKind.block hunfold

end Printing

end MatrixScript
