import MatrixScript.Proofs.Printing.Statements

/-!
# Printed control flow

The head of a control-flow statement is read like a group, and its branches and its body are blocks.
Behind the first branch of an `if` the reader looks past the end of the line for an `else`, and goes
back if it finds none.
-/

namespace MatrixScript

namespace Printing

open Reading Grammar

variable {text rest d : List Char} {tree : Tree} {mode : Mode} {fuel : Nat} {r r₁ : Reader}

/-! ### Parts that are read in sequence -/

/-- The nodes of the parts that have been read so far, with their trees. -/
structure Parts (f f' : Forest) (ids : List NodeId) (ts : List Tree) : Prop where
  grows : f.Grows f' (nodesAll ts)
  shown : List.Forall₂ f'.Shows ids ts

theorem nodesAll_append (ts us : List Tree) : nodesAll (ts ++ us) = nodesAll ts + nodesAll us := by
  induction ts with
  | nil => exact (Nat.zero_add _).symm
  | cons t ts ih => rw [List.cons_append, nodesAll, nodesAll, ih, Nat.add_assoc]

theorem Parts.refl {f : Forest} (hlinked : f.Linked) : Parts f f [] [] :=
  ⟨⟨hlinked, .refl _, Nat.le_refl _⟩, .nil⟩

theorem Parts.next {f f' : Forest} {ids : List NodeId} {ts : List Tree} {id : NodeId}
    (h : Parts f f' ids ts) (hleaves : Leaves f' r₁ id tree rest)
    (hroom : f.size + (nodesAll ts + nodes tree) ≤ 4294967295) :
    Parts f r₁.forest (ids ++ [id]) (ts ++ [tree]) := by
  have hall := h.grows.trans hleaves.grows
  have hsize := hall.size
  have hkept : List.Forall₂ r₁.forest.Shows ids ts :=
    h.shown.imp fun _ _ hshown => hshown.extends hleaves.grows.grown h.grows.linked (by omega)
  refine ⟨?_, List.rel_append hkept (.cons hleaves.shown .nil)⟩
  rw [nodesAll_append]
  exact hall

/-! ### Heads -/

/-- A condition in parentheses behind a blank. -/
theorem condition_reads (mode : Mode) (h : Whole text 0 0 tree)
    (hrest : r.cursor.rest = ' ' :: (grouped text ++ rest)) (hlinked : r.forest.Linked)
    (hfuel : text.length ≤ fuel) (hroom : r.forest.size + nodes tree ≤ 4294967295) :
    ∃ id r₁, (Surroundings.standard mode (fuel + 1)).condition r = .ok (id, r₁)
      ∧ Leaves r.forest r₁ id tree rest := by
  have hplain : Plain (grouped text ++ rest) := fun x hx => by cases hx; decide
  have hskip := skip_blank (s := .standard mode (fuel + 1)) rfl hrest
    (Plain.settled (c := ⟨_, _⟩) hplain _)
  let opened : Reader := r.movedTo ⟨r.cursor.offset + 1, grouped text ++ rest⟩
  have hopened : opened.cursor.rest = '(' :: (text ++ ')' :: rest) := by
    change grouped text ++ rest = _
    rw [grouped, List.cons_append, List.append_assoc, List.singleton_append]
  have hopen := Surroundings.expect_eq_ok_iff.mpr
    ⟨true, opened, hskip, Cursor.peek?_cons hopened, rfl, rfl⟩
  have hinside : (opened.movedTo opened.cursor.next).cursor.rest = text ++ ')' :: rest := by
    rw [Reader.movedTo_cursor, Cursor.next_cons hopened]
  have hmark : ')' ∈ closing := by decide
  have hstarts : Starts .group fuel _ _ text (')' :: rest) (nodes tree) :=
    h.opens.starts hinside hlinked rfl hfuel hroom
  obtain ⟨id, r₁, hread, hleaves⟩ :=
    h.reads hstarts (apart_closing hmark rest) (halts_closing hmark rest)
  have hclose := closes hleaves.rest hmark .group (fuel + 1) opened.cursor.peekSpan '('
  exact ⟨id, _, Surroundings.condition_eq_ok_iff.mpr ⟨_, _, hopen, id, r₁, hread, (), _, hclose,
    rfl, rfl⟩, hleaves.grows, hleaves.shown, hleaves.next⟩

/-- A block behind a blank, as the last part of a statement or in front of more. -/
theorem Closed.behind_blank (h : Closed text tree) (hrest : r.cursor.rest = ' ' :: (text ++ rest))
    (hlinked : r.forest.Linked) (hflat : mode.flags.inMatrix = false) (hfuel : text.length ≤ fuel)
    (hroom : r.forest.size + nodes tree ≤ 4294967295) :
    ∃ id r₁, (Surroundings.standard mode (fuel + 1)).expression r = .ok (id, r₁)
      ∧ Leaves r.forest r₁ id tree rest := by
  have hstarts := h.opens.starts_blank hrest hlinked hflat hfuel hroom
  obtain ⟨id, r₁, hread, hleaves⟩ := h.reads hstarts
  exact ⟨id, r₁, hread, hleaves⟩

/-- A keyword, a condition and a block behind them. -/
theorem headed_reads {word cond body : List Char} {condTree bodyTree : Tree}
    (hcond : Whole cond 0 0 condTree) (hbody : Closed body bodyTree)
    (hrest : r.cursor.rest = word ++ ' ' :: (grouped cond ++ ' ' :: (body ++ rest)))
    (hlinked : r.forest.Linked) (hflat : mode.flags.inMatrix = false)
    (hcondFuel : cond.length ≤ fuel) (hbodyFuel : body.length ≤ fuel)
    (hroom : r.forest.size + (nodes condTree + nodes bodyTree) ≤ 4294967295) :
    ∃ c r₁ b r₂, (Surroundings.standard mode (fuel + 1)).condition
          (r.movedTo (r.cursor.advance (byteCount word))) = .ok (c, r₁)
      ∧ (Surroundings.standard mode (fuel + 1)).expression r₁ = .ok (b, r₂)
      ∧ Parts r.forest r₂.forest [c, b] [condTree, bodyTree] ∧ r₂.cursor.rest = rest := by
  let behind := r.movedTo (r.cursor.advance (byteCount word))
  have hbehind : behind.cursor.rest = ' ' :: (grouped cond ++ ' ' :: (body ++ rest)) := by
    rw [Reader.movedTo_cursor, Cursor.advance_append hrest]
  obtain ⟨c, r₁, hread₁, hleaves₁⟩ := condition_reads mode hcond hbehind hlinked hcondFuel
    (show r.forest.size + nodes condTree ≤ _ by omega)
  have hparts₁ : Parts r.forest r₁.forest [c] [condTree] :=
    (Parts.refl hlinked).next hleaves₁ (by simp only [nodesAll]; omega)
  have hsize₁ := hparts₁.grows.size
  simp only [nodesAll, Nat.add_zero] at hsize₁
  obtain ⟨b, r₂, hread₂, hleaves₂⟩ := hbody.behind_blank hleaves₁.rest hleaves₁.grows.linked hflat
    hbodyFuel (by omega)
  exact ⟨c, r₁, b, r₂, hread₁, hread₂, hparts₁.next hleaves₂ (by simp only [nodesAll]; omega),
    hleaves₂.rest⟩

/-! ### Loops -/

theorem findForm?_while (flags : Flags) (d : List Char) :
    standard.findForm? ("while ".toList ++ d) flags = some Form.whileLoop := by
  cases flags with
  | mk a b c e => cases b <;> rfl

theorem while_read {s : Surroundings} {r₂ : Reader} {c b : NodeId}
    (hcond : s.condition (r.movedTo (r.cursor.advance (byteCount ['w', 'h', 'i', 'l', 'e'])))
      = .ok (c, r₁))
    (hbody : s.expression r₁ = .ok (b, r₂)) :
    ∃ span, Form.whileLoop.read s r
      = .ok (r₂.forest.nextId, r₂.withNode (.whileLoop c b) span) := by
  refine ⟨_, Form.keyword_read_eq_ok_iff.mpr ⟨.whileLoop c b, r₂, within_eq_ok_iff.mpr ?_, rfl, rfl⟩⟩
  rw [bind_ok hcond, bind_ok hbody]
  rfl

theorem closed_while {cond body : List Char} {condTree bodyTree : Tree}
    (hcond : Whole cond 0 0 condTree) (hbody : Closed body bodyTree) :
    Closed ("while ".toList ++ grouped cond ++ ' ' :: body)
      (.of (.whileLoop condTree bodyTree)) := by
  have htext (rest : List Char) : "while ".toList ++ grouped cond ++ ' ' :: body ++ rest
      = ['w', 'h', 'i', 'l', 'e'] ++ ' ' :: (grouped cond ++ ' ' :: (body ++ rest)) := by
    simp
  have hnodes : nodes (.of (.whileLoop condTree bodyTree)) = nodesAll [condTree, bodyTree] + 1 := by
    rw [nodes_of]
    exact congrArg (· + 1) (Nat.zero_add _)
  simp only [nodesAll, Nat.add_zero] at hnodes
  refine ⟨opens_cons (by decide) (by decide) (by decide) _,
    fun {mode fuel least r₀ r rest} hstarts => ?_⟩
  have hroom := hstarts.room
  have hfuel := hstarts.fuel
  have hrest := hstarts.rest
  have hform : standard.findForm? r.cursor.rest mode.flags = some Form.whileLoop := by
    rw [hrest, List.append_assoc, List.append_assoc]
    exact findForm?_while _ _
  simp only [grouped, List.length_append, List.length_cons] at hfuel
  obtain ⟨fuel, rfl⟩ : ∃ j, fuel = j + 1 := ⟨fuel - 1, by omega⟩
  have hcondFuel : cond.length ≤ fuel := by omega
  have hbodyFuel : body.length ≤ fuel := by omega
  rw [htext] at hrest
  obtain ⟨c, r₁, b, r₂, hread₁, hread₂, hparts, hend⟩ := headed_reads hcond hbody hrest hstarts.linked
    hstarts.flat hcondFuel hbodyFuel (by omega)
  obtain ⟨span, hread⟩ := while_read hread₁ hread₂
  obtain ⟨hbelow, hunfold⟩ := unfold_of_shows hparts.shown
  refine hstarts.flow rfl hform hread hparts.grows (by simp only [nodesAll]; omega) hbelow ?_ hend
  simp only [List.map_cons, List.cons.injEq, List.map_nil, and_true] at hunfold
  change NodeKind.whileLoop (r₂.forest.unfold c).bare (r₂.forest.unfold b).bare = _
  rw [hunfold.1, hunfold.2]

/-- A part in the head of a `for` loop, which may be left out. -/
def Part (text : List Char) (tree : Tree) : Prop := text = [] ∧ tree = .absent ∨ Whole text 0 0 tree

theorem Part.plain {c : Char} (h : Part text tree) (hc : c ∈ closing) (d : List Char) :
    Plain (text ++ c :: d) := by
  rcases h with ⟨rfl, -⟩ | h
  · exact plain_closing hc d
  · exact h.opens.plain _

/-- A part of the head is read up to the mark that ends it, and then the mark. -/
theorem Part.reads {b : Bool} {c : Char} {r₀ : Reader} (h : Part text tree)
    (hskip : (Surroundings.standard .group (fuel + 1)).skip r₀ = .ok (b, r))
    (hrest : r.cursor.rest = text ++ c :: d) (hc : c ∈ closing) (hlinked : r.forest.Linked)
    (hfuel : text.length ≤ fuel) (hroom : r.forest.size + nodes tree ≤ 4294967295) :
    ∃ id r₁, Form.headPart (.standard .group (fuel + 1)) c r₀ = .ok (id, r₁)
      ∧ Leaves r.forest r₁ id tree (c :: d) := by
  rcases h with ⟨rfl, rfl⟩ | h
  · have hpeek : r.cursor.peek? = some c := Cursor.peek?_cons hrest
    exact ⟨NodeId.absent, r, Form.headPart_eq_ok_iff.mpr ⟨b, r, hskip, .inl ⟨hpeek, rfl, rfl⟩⟩,
      ⟨hlinked, .refl _, Nat.le_refl _⟩, Forest.shows_absent (Nat.le_of_add_right_le hroom), hrest⟩
  · obtain ⟨x, hhead, -, hx⟩ := h.opens.head
    have hpeek : r.cursor.peek? ≠ some c := by
      rw [Cursor.peek?, hrest, List.head?_append, hhead]
      rintro ⟨⟩
      exact hx hc
    have hstarts : Starts .group fuel r r text (c :: d) (nodes tree) :=
      h.opens.starts hrest hlinked rfl hfuel hroom
    obtain ⟨id, r₁, hread, hleaves⟩ := h.reads hstarts (apart_closing hc d) (halts_closing hc d)
    exact ⟨id, r₁, Form.headPart_eq_ok_iff.mpr ⟨b, r, hskip, .inr ⟨hpeek, hread⟩⟩, hleaves⟩

theorem expects {c : Char} (hrest : r.cursor.rest = c :: d) (hplain : Plain (c :: d)) (mode : Mode)
    (fuel : Nat) :
    (Surroundings.standard mode fuel).expect c r
      = .ok (r.cursor.peekSpan, r.movedTo r.cursor.next) := by
  have hskip := skip_stays (s := .standard mode fuel) (r := r) rfl
    (Plain.settled (hrest ▸ hplain) mode.flags)
  exact Surroundings.expect_eq_ok_iff.mpr
    ⟨false, r, hskip, Cursor.peek?_cons hrest, rfl, rfl⟩

/-- A part of the head behind the end of another one. -/
theorem Part.reads_behind {c : Char} (h : Part text tree)
    (hrest : r.cursor.rest = ';' :: ' ' :: (text ++ c :: d)) (hc : c ∈ closing)
    (hlinked : r.forest.Linked) (hfuel : text.length ≤ fuel)
    (hroom : r.forest.size + nodes tree ≤ 4294967295) :
    ∃ span r₀, (Surroundings.standard .group (fuel + 1)).expect ';' r = .ok (span, r₀)
      ∧ ∃ id r₁, Form.headPart (.standard .group (fuel + 1)) c r₀ = .ok (id, r₁)
        ∧ Leaves r.forest r₁ id tree (c :: d) := by
  have hend := expects hrest (plain_closing (by decide) _) .group (fuel + 1)
  have hblank : (r.movedTo r.cursor.next).cursor.rest = ' ' :: (text ++ c :: d) := by
    rw [Reader.movedTo_cursor, Cursor.next_cons hrest]
  have hskip := skip_blank (s := .standard .group (fuel + 1)) rfl hblank
    (Plain.settled (c := ⟨_, _⟩) (h.plain hc d) _)
  have hbehind : (Reader.movedTo r ⟨r.cursor.next.offset + 1, text ++ c :: d⟩).cursor.rest
      = text ++ c :: d := rfl
  obtain ⟨id, r₁, hread, hleaves⟩ := h.reads hskip hbehind hc hlinked hfuel hroom
  exact ⟨_, _, hend, id, r₁, hread, hleaves⟩

theorem findForm?_for (flags : Flags) (d : List Char) :
    standard.findForm? ("for (".toList ++ d) flags = some Form.forLoop := by
  cases flags with
  | mk a b c e => cases b <;> rfl

theorem for_read {s : Surroundings} {r₀ r₂ r₃ r₄ r₅ r₆ r₇ r₈ : Reader} {b : Bool}
    {opener span₁ span₂ : Span} {i c u e : NodeId}
    (hskip : s.skip (r.movedTo (r.cursor.advance (byteCount ['f', 'o', 'r']))) = .ok (b, r₀))
    (hopen : s.expect '(' r₀ = .ok (opener, r₁))
    (hinit : Form.headPart (s.inside .group) ';' r₁ = .ok (i, r₂))
    (hfirst : (s.inside .group).expect ';' r₂ = .ok (span₁, r₃))
    (hcond : Form.headPart (s.inside .group) ';' r₃ = .ok (c, r₄))
    (hsecond : (s.inside .group).expect ';' r₄ = .ok (span₂, r₅))
    (hstep : Form.headPart (s.inside .group) ')' r₅ = .ok (u, r₆))
    (hclose : (s.inside .group).expectClose opener '(' ')' r₆ = .ok ((), r₇))
    (hbody : s.expression r₇ = .ok (e, r₈)) :
    ∃ span, Form.forLoop.read s r
      = .ok (r₈.forest.nextId, r₈.withNode (.forLoop i c u e) span) := by
  refine ⟨_, Form.keyword_read_eq_ok_iff.mpr
    ⟨.forLoop i c u e, r₈, within_eq_ok_iff.mpr ?_, rfl, rfl⟩⟩
  rw [bind_ok hskip, bind_ok hopen, bind_ok hinit, bind_ok hfirst, bind_ok hcond, bind_ok hsecond,
    bind_ok hstep, bind_ok hclose, bind_ok hbody]
  rfl

theorem closed_for {init cond step body : List Char} {i c u e : Tree} (hinit : Part init i)
    (hcond : Part cond c) (hstep : Part step u) (hbody : Closed body e) :
    Closed ("for (".toList ++ init ++ "; ".toList ++ cond ++ "; ".toList ++ step ++ ") ".toList
      ++ body) (.of (.forLoop i c u e)) := by
  have htext (rest : List Char) : "for (".toList ++ init ++ "; ".toList ++ cond ++ "; ".toList ++ step
      ++ ") ".toList ++ body ++ rest
      = ['f', 'o', 'r'] ++ ' ' :: '(' :: (init ++ ';' :: ' ' :: (cond ++ ';' :: ' ' ::
          (step ++ ')' :: ' ' :: (body ++ rest)))) := by
    simp
  have hnodes : nodes (.of (.forLoop i c u e)) = nodesAll [i, c, u, e] + 1 := by
    rw [nodes_of]
    exact congrArg (· + 1) (Nat.zero_add _)
  simp only [nodesAll, Nat.add_zero] at hnodes
  have hopens : Opens ("for (".toList ++ init ++ "; ".toList ++ cond ++ "; ".toList ++ step
      ++ ") ".toList ++ body) := by
    simp only [List.append_assoc]
    exact opens_cons (by decide) (by decide) (by decide) _
  refine ⟨hopens, fun {mode fuel least r₀ r rest} hstarts => ?_⟩
  have hroom := hstarts.room
  have hfuel := hstarts.fuel
  have hrest := hstarts.rest
  have hform : standard.findForm? r.cursor.rest mode.flags = some Form.forLoop := by
    rw [hrest]
    simp only [List.append_assoc]
    exact findForm?_for _ _
  have hhead : "for (".toList.length = 5 := rfl
  simp only [List.length_append, hhead] at hfuel
  obtain ⟨fuel, rfl⟩ : ∃ j, fuel = j + 1 := ⟨fuel - 1, by omega⟩
  have hinitFuel : init.length ≤ fuel := by omega
  have hcondFuel : cond.length ≤ fuel := by omega
  have hstepFuel : step.length ≤ fuel := by omega
  have hbodyFuel : body.length ≤ fuel := by omega
  have hsemi : ';' ∈ closing := by decide
  have hclose : ')' ∈ closing := by decide
  rw [htext] at hrest
  let behind := r.movedTo (r.cursor.advance (byteCount ['f', 'o', 'r']))
  have hbehind : behind.cursor.rest = ' ' :: '(' :: (init ++ ';' :: ' ' :: (cond ++ ';' :: ' ' ::
      (step ++ ')' :: ' ' :: (body ++ rest)))) := by
    rw [Reader.movedTo_cursor, Cursor.advance_append hrest]
  have hplain (d : List Char) : Plain ('(' :: d) := fun x hx => by cases hx; decide
  have hskip := skip_blank (s := .standard mode (fuel + 1)) rfl hbehind
    (Plain.settled (c := ⟨_, _⟩) (hplain _) _)
  let opened := behind.movedTo ⟨behind.cursor.offset + 1, '(' :: (init ++ ';' :: ' ' :: (cond ++ ';'
    :: ' ' :: (step ++ ')' :: ' ' :: (body ++ rest))))⟩
  have hopen := expects (r := opened) rfl (hplain _) mode (fuel + 1)
  have hfirst : (Surroundings.standard .group (fuel + 1)).skip (opened.movedTo opened.cursor.next)
      = .ok (false, opened.movedTo opened.cursor.next) :=
    skip_stays rfl (Plain.settled (c := Cursor.mk _ _) (hinit.plain hsemi _) _)
  obtain ⟨id₁, r₁, hread₁, hleaves₁⟩ := hinit.reads hfirst rfl hsemi hstarts.linked hinitFuel
    (show r.forest.size + nodes i ≤ _ by omega)
  have hparts₁ : Parts r.forest r₁.forest [id₁] [i] :=
    (Parts.refl hstarts.linked).next hleaves₁ (by simp only [nodesAll]; omega)
  have hsize₁ := hparts₁.grows.size
  simp only [nodesAll, Nat.add_zero] at hsize₁
  obtain ⟨span₁, r₂, hmark₁, id₂, r₃, hread₂, hleaves₂⟩ := hcond.reads_behind hleaves₁.rest hsemi
    hleaves₁.grows.linked hcondFuel (by omega)
  have hparts₂ : Parts r.forest r₃.forest [id₁, id₂] [i, c] :=
    hparts₁.next hleaves₂ (by simp only [nodesAll]; omega)
  have hsize₂ := hparts₂.grows.size
  simp only [nodesAll, Nat.add_zero] at hsize₂
  obtain ⟨span₂, r₄, hmark₂, id₃, r₅, hread₃, hleaves₃⟩ := hstep.reads_behind hleaves₂.rest hclose
    hleaves₂.grows.linked hstepFuel (by omega)
  have hparts₃ : Parts r.forest r₅.forest [id₁, id₂, id₃] [i, c, u] :=
    hparts₂.next hleaves₃ (by simp only [nodesAll]; omega)
  have hsize₃ := hparts₃.grows.size
  simp only [nodesAll, Nat.add_zero] at hsize₃
  have hend := closes hleaves₃.rest hclose .group (fuel + 1) opened.cursor.peekSpan '('
  obtain ⟨id₄, r₆, hread₄, hleaves₄⟩ := hbody.behind_blank hleaves₃.next hleaves₃.grows.linked
    hstarts.flat hbodyFuel (by rw [Reader.movedTo_forest]; omega)
  have hparts : Parts r.forest r₆.forest [id₁, id₂, id₃, id₄] [i, c, u, e] :=
    hparts₃.next hleaves₄ (by simp only [nodesAll]; omega)
  obtain ⟨span, hread⟩ :=
    for_read hskip hopen hread₁ hmark₁ hread₂ hmark₂ hread₃ hend hread₄
  obtain ⟨hbelow, hunfold⟩ := unfold_of_shows hparts.shown
  refine hstarts.flow rfl hform hread hparts.grows (by simp only [nodesAll]; omega) hbelow ?_
    hleaves₄.rest
  simp only [List.map_cons, List.cons.injEq, List.map_nil, and_true] at hunfold
  change NodeKind.forLoop (r₆.forest.unfold id₁).bare (r₆.forest.unfold id₂).bare
    (r₆.forest.unfold id₃).bare (r₆.forest.unfold id₄).bare = _
  rw [hunfold.1, hunfold.2.1, hunfold.2.2.1, hunfold.2.2.2]

/-! ### Branches -/

theorem skipLines_stays {s : Surroundings} {k : Nat} (hr : r.cursor.peek? ≠ some '\n') :
    s.skipLines (k + 1) r = .ok ((), r) :=
  Surroundings.skipLines_eq_ok_iff.mpr (.inr ⟨hr, rfl⟩)

/-- Behind the end of a line there is no `else`, and the reader goes back. -/
theorem eatWord_follows {c : Char} (hrest : r.cursor.rest = c :: d) (hc : c = ';' ∨ c = '\n')
    (hd : Follows d) (hmode : mode.flags.newlineSignificant = true) :
    (Surroundings.standard mode fuel).eatWord ['e', 'l', 's', 'e'] r = .ok (false, r) := by
  have hpeek := Cursor.peek?_cons hrest
  rcases hc with rfl | rfl
  · have hskip := skip_stays (s := .standard mode fuel) (r := r) rfl
      (settled_of_peek? _ hpeek (by decide))
    have hother : r.cursor.peek? ≠ some '\n' := by
      rw [hpeek]
      decide
    have hlines := skipLines_stays (s := .standard mode fuel) (k := r.cursor.rest.length) hother
    refine Surroundings.eatWord_eq_ok_iff.mpr ⟨false, r, hskip, (), r, hlines, .inr ⟨?_, rfl, rfl⟩⟩
    rw [hrest]
    rfl
  · have hskip := skip_stays (s := .standard mode fuel) (r := r) rfl (settled_newline hmode hrest)
    let after := r.movedTo r.cursor.next
    have hafter : after.cursor.rest = d := by rw [Reader.movedTo_cursor, Cursor.next_cons hrest]
    have hskip₁ : (Surroundings.standard mode fuel).skip after = .ok (false, after) := by
      have hplain : Plain after.cursor.rest := hafter ▸ hd.1
      exact skip_stays rfl (hplain.settled _)
    have hother : after.cursor.peek? ≠ some '\n' := by
      intro heq
      rw [Cursor.peek?, hafter] at heq
      exact hd.1 _ heq (by decide)
    have hlength : r.cursor.rest.length + 1 = d.length + 1 + 1 := by rw [hrest, List.length_cons]
    have hlines : (Surroundings.standard mode fuel).skipLines (r.cursor.rest.length + 1) r
        = .ok ((), after) := by
      rw [hlength]
      exact Surroundings.skipLines_eq_ok_iff.mpr
        (.inl ⟨hpeek, false, after, hskip₁, skipLines_stays hother⟩)
    refine Surroundings.eatWord_eq_ok_iff.mpr
      ⟨false, r, hskip, (), after, hlines, .inr ⟨?_, rfl, rfl⟩⟩
    rw [hafter]
    exact hd.2

/-- An `else` between blanks is passed. -/
theorem eatWord_else (mode : Mode) (fuel : Nat) (hrest : r.cursor.rest = " else".toList ++ ' ' :: d) :
    ∃ r₁, (Surroundings.standard mode fuel).eatWord ['e', 'l', 's', 'e'] r = .ok (true, r₁)
      ∧ r₁.forest = r.forest ∧ r₁.cursor.rest = ' ' :: d := by
  have hplain : Plain (['e', 'l', 's', 'e'] ++ ' ' :: d) := fun x hx => by cases hx; decide
  have hskip := skip_blank (s := .standard mode fuel) rfl hrest
    (Plain.settled (c := ⟨_, _⟩) hplain _)
  let word := r.movedTo ⟨r.cursor.offset + 1, ['e', 'l', 's', 'e'] ++ ' ' :: d⟩
  have hother : word.cursor.peek? ≠ some '\n' := nofun
  have hlines := skipLines_stays (s := .standard mode fuel) (k := word.cursor.rest.length) hother
  have hword : startsWithWord ['e', 'l', 's', 'e'] word.cursor.rest = true := rfl
  refine ⟨_, Surroundings.eatWord_eq_ok_iff.mpr
    ⟨true, word, hskip, (), word, hlines, .inl ⟨hword, rfl, rfl⟩⟩, rfl, ?_⟩
  have hadvance : word.cursor.advance (byteCount ['e', 'l', 's', 'e']) = ⟨_, ' ' :: d⟩ :=
    Cursor.advance_append rfl
  rw [Reader.movedTo_cursor, hadvance]

theorem findForm?_if (flags : Flags) (d : List Char) :
    standard.findForm? ("if ".toList ++ d) flags = some Form.branch := by
  cases flags with
  | mk a b c e => cases b <;> rfl

theorem branch_read {s : Surroundings} {r₂ r₃ : Reader} {c y : NodeId}
    (hcond : s.condition (r.movedTo (r.cursor.advance (byteCount ['i', 'f']))) = .ok (c, r₁))
    (hyes : s.expression r₁ = .ok (y, r₂))
    (hword : s.eatWord ['e', 'l', 's', 'e'] r₂ = .ok (false, r₃)) :
    ∃ span, Form.branch.read s r
      = .ok (r₃.forest.nextId, r₃.withNode (.branch c y NodeId.absent) span) := by
  refine ⟨_, Form.keyword_read_eq_ok_iff.mpr
    ⟨.branch c y NodeId.absent, r₃, within_eq_ok_iff.mpr ?_, rfl, rfl⟩⟩
  rw [bind_ok hcond, bind_ok hyes, bind_ok hword]
  rfl

theorem branchElse_read {s : Surroundings} {r₂ r₃ r₄ : Reader} {c y n : NodeId}
    (hcond : s.condition (r.movedTo (r.cursor.advance (byteCount ['i', 'f']))) = .ok (c, r₁))
    (hyes : s.expression r₁ = .ok (y, r₂))
    (hword : s.eatWord ['e', 'l', 's', 'e'] r₂ = .ok (true, r₃))
    (hno : s.expression r₃ = .ok (n, r₄)) :
    ∃ span, Form.branch.read s r
      = .ok (r₄.forest.nextId, r₄.withNode (.branch c y n) span) := by
  refine ⟨_, Form.keyword_read_eq_ok_iff.mpr
    ⟨.branch c y n, r₄, within_eq_ok_iff.mpr ?_, rfl, rfl⟩⟩
  rw [bind_ok hcond, bind_ok hyes, bind_ok hword]
  change (s.expression >>= _) r₃ = _
  rw [bind_ok hno]
  rfl

theorem stated_branch {cond yes : List Char} {condTree yesTree : Tree}
    (hcond : Whole cond 0 0 condTree) (hyes : Closed yes yesTree) :
    Stated ("if ".toList ++ grouped cond ++ ' ' :: yes)
      (.of (.branch condTree yesTree .absent)) := by
  have htext (rest : List Char) : "if ".toList ++ grouped cond ++ ' ' :: yes ++ rest
      = ['i', 'f'] ++ ' ' :: (grouped cond ++ ' ' :: (yes ++ rest)) := by
    simp
  have hnodes : nodes (.of (.branch condTree yesTree .absent))
      = nodesAll [condTree, yesTree, .absent] + 1 := by
    rw [nodes_of]
    exact congrArg (· + 1) (Nat.zero_add _)
  simp only [nodesAll, nodes, Nat.add_zero] at hnodes
  refine ⟨opens_cons (by decide) (by decide) (by decide) _,
    fun {mode fuel r₀ r c d} hstarts hmode hc hd => ?_⟩
  have hroom := hstarts.room
  have hfuel := hstarts.fuel
  have hrest := hstarts.rest
  have hform : standard.findForm? r.cursor.rest mode.flags = some Form.branch := by
    rw [hrest, List.append_assoc, List.append_assoc]
    exact findForm?_if _ _
  simp only [grouped, List.length_append, List.length_cons] at hfuel
  obtain ⟨fuel, rfl⟩ : ∃ j, fuel = j + 1 := ⟨fuel - 1, by omega⟩
  have hcondFuel : cond.length ≤ fuel := by omega
  have hyesFuel : yes.length ≤ fuel := by omega
  rw [htext] at hrest
  obtain ⟨id, r₁, y, r₂, hread₁, hread₂, hparts, hend⟩ := headed_reads hcond hyes hrest
    hstarts.linked hstarts.flat hcondFuel hyesFuel (by omega)
  obtain ⟨span, hread⟩ := branch_read hread₁ hread₂ (eatWord_follows hend hc hd hmode)
  have hsize := hparts.grows.size
  simp only [nodesAll, Nat.add_zero] at hsize
  have habsent := Forest.shows_absent (f := r₂.forest) (by omega)
  obtain ⟨hbelow, hunfold⟩ := unfold_of_shows hparts.shown
  simp only [List.map_cons, List.cons.injEq, List.map_nil, and_true] at hunfold
  refine hstarts.flow rfl hform hread hparts.grows (by simp only [nodesAll]; omega) ?_ ?_ hend
  · intro child hchild
    rcases List.mem_append.mp (show child ∈ [id, y] ++ [NodeId.absent] from hchild) with h | h
    · exact hbelow child h
    · exact List.mem_singleton.mp h ▸ habsent.1
  · change NodeKind.branch (r₂.forest.unfold id).bare (r₂.forest.unfold y).bare
      (r₂.forest.unfold NodeId.absent).bare = _
    rw [hunfold.1, hunfold.2, habsent.2]

theorem closed_branchElse {cond yes no : List Char} {condTree yesTree noTree : Tree}
    (hcond : Whole cond 0 0 condTree) (hyes : Closed yes yesTree) (hno : Closed no noTree) :
    Closed ("if ".toList ++ grouped cond ++ ' ' :: yes ++ " else ".toList ++ no)
      (.of (.branch condTree yesTree noTree)) := by
  have htext (rest : List Char) :
      "if ".toList ++ grouped cond ++ ' ' :: yes ++ " else ".toList ++ no ++ rest
        = ['i', 'f'] ++ ' ' :: (grouped cond ++ ' ' :: (yes ++ (" else".toList
            ++ ' ' :: (no ++ rest)))) := by
    simp
  have hnodes : nodes (.of (.branch condTree yesTree noTree))
      = nodesAll [condTree, yesTree, noTree] + 1 := by
    rw [nodes_of]
    exact congrArg (· + 1) (Nat.zero_add _)
  simp only [nodesAll, Nat.add_zero] at hnodes
  have hopens : Opens ("if ".toList ++ grouped cond ++ ' ' :: yes ++ " else ".toList ++ no) := by
    simp only [List.append_assoc]
    exact opens_cons (by decide) (by decide) (by decide) _
  refine ⟨hopens, fun {mode fuel least r₀ r rest} hstarts => ?_⟩
  have hroom := hstarts.room
  have hfuel := hstarts.fuel
  have hrest := hstarts.rest
  have hform : standard.findForm? r.cursor.rest mode.flags = some Form.branch := by
    rw [hrest]
    simp only [List.append_assoc]
    exact findForm?_if _ _
  simp only [grouped, List.length_append, List.length_cons] at hfuel
  obtain ⟨fuel, rfl⟩ : ∃ j, fuel = j + 1 := ⟨fuel - 1, by omega⟩
  have hcondFuel : cond.length ≤ fuel := by omega
  have hyesFuel : yes.length ≤ fuel := by omega
  have hnoFuel : no.length ≤ fuel := by omega
  rw [htext] at hrest
  obtain ⟨id, r₁, y, r₂, hread₁, hread₂, hparts₁, hend⟩ := headed_reads hcond hyes hrest
    hstarts.linked hstarts.flat hcondFuel hyesFuel (by omega)
  obtain ⟨r₃, hword, hforest, hbehind⟩ := eatWord_else mode (fuel + 1) hend
  have hsize₁ := hparts₁.grows.size
  simp only [nodesAll, Nat.add_zero] at hsize₁
  rw [← hforest] at hparts₁ hsize₁
  obtain ⟨n, r₄, hread₃, hleaves⟩ := hno.behind_blank hbehind hparts₁.grows.linked hstarts.flat
    hnoFuel (by omega)
  have hparts : Parts r.forest r₄.forest [id, y, n] [condTree, yesTree, noTree] :=
    hparts₁.next hleaves (by simp only [nodesAll]; omega)
  obtain ⟨span, hread⟩ := branchElse_read hread₁ hread₂ hword hread₃
  obtain ⟨hbelow, hunfold⟩ := unfold_of_shows hparts.shown
  refine hstarts.flow rfl hform hread hparts.grows (by simp only [nodesAll]; omega) hbelow ?_
    hleaves.rest
  simp only [List.map_cons, List.cons.injEq, List.map_nil, and_true] at hunfold
  change NodeKind.branch (r₄.forest.unfold id).bare (r₄.forest.unfold y).bare
    (r₄.forest.unfold n).bare = _
  rw [hunfold.1, hunfold.2.1, hunfold.2.2]

end Printing

end MatrixScript
