import MatrixScript.Proofs.Printing.Halting
import Mathlib.Data.List.Forall2

/-!
# Text that is read as a tree

A printed operand is read wherever the operators behind it do not go into it. What has been read of
a longer operand is always a first part of it, so the reading of a text is stated with the chain of
operators that goes on behind: whatever this chain gives is what the expression as a whole gives.

Texts with commas between them are read one by one, since every comma and the closing delimiter halt
the expression in front of them. A group is such a list of one, and its node is the one inside.
-/

namespace MatrixScript

/-- What reading lets a forest grow to, by at most a number of nodes. -/
structure Forest.Grows (f f' : Forest) (n : Nat) : Prop where
  linked : f'.Linked
  grown : f.Extends f'
  size : f'.size ≤ f.size + n

theorem Forest.Grows.trans {f f' g : Forest} {m n : Nat} (h : f.Grows f' m) (h' : f'.Grows g n) :
    f.Grows g (m + n) := by
  refine ⟨h'.linked, h.grown.trans h'.grown, ?_⟩
  have hfirst := h.size
  have hsecond := h'.size
  omega

namespace Printing

open Reading Grammar

/-- A text that starts with something to read, which is not the word `else`. -/
structure Opens (text : List Char) : Prop where
  head : ∃ c ∈ text.head?, c ∉ triggers ∧ c ∉ closing
  other : ∀ d, EndsWord d → startsWithWord ['e', 'l', 's', 'e'] (text ++ d) = false

/-- A text stands at the reader, behind what is skipped, and there is room to read it. -/
structure Starts (mode : Mode) (fuel : Nat) (r₀ r : Reader) (text rest : List Char) (n : Nat) :
    Prop where
  skip : ∃ b, (Surroundings.standard mode fuel).skip r₀ = .ok (b, r)
  rest : r.cursor.rest = text ++ rest
  linked : r.forest.Linked
  flat : mode.flags.inMatrix = false
  fuel : text.length ≤ fuel
  room : r.forest.size + n ≤ 4294967295

/-- What reading a text leaves: its tree and the text behind it. -/
structure Leaves (f : Forest) (r₁ : Reader) (id : NodeId) (tree : Tree) (rest : List Char) :
    Prop where
  grows : f.Grows r₁.forest (nodes tree)
  shown : r₁.forest.Shows id tree
  rest : r₁.cursor.rest = rest

/-- The text is read as a tree by every expression whose operators bind at the level or below,
provided that what stands behind halts at the edge. -/
structure Readable (text : List Char) (level edge : Nat) (tree : Tree) : Prop where
  opens : Opens text
  reads {mode : Mode} {fuel : Nat} {least : UInt8} {r₀ r : Reader} {rest : List Char} :
    Starts mode fuel r₀ r text rest (nodes tree) → Apart rest → Halts mode edge rest →
    least.toNat ≤ level →
    ∃ id r₁ k, Leaves r.forest r₁ id tree rest ∧ rest.length < k
      ∧ ∀ p, standard.chain (.standard mode fuel) least k id r₁ = .ok p →
        standard.expression (fuel + 1) mode least r₀ = .ok p

/-- The text is read as a tree by the expressions whose operators bind from a level on. -/
structure Whole (text : List Char) (least : UInt8) (edge : Nat) (tree : Tree) : Prop where
  opens : Opens text
  reads {mode : Mode} {fuel : Nat} {r₀ r : Reader} {rest : List Char} :
    Starts mode fuel r₀ r text rest (nodes tree) → Apart rest → Halts mode edge rest →
    ∃ id r₁, standard.expression (fuel + 1) mode least r₀ = .ok (id, r₁)
      ∧ Leaves r.forest r₁ id tree rest

variable {text rest d : List Char} {level edge fuel n : Nat} {tree : Tree} {mode : Mode}
  {least : UInt8} {r₀ r r₁ : Reader} {c : Char}

/-! ### Starts of texts -/

theorem opens_cons {c : Char} (hplain : c ∉ triggers) (hmark : c ∉ closing) (hword : c ≠ 'e')
    (d : List Char) : Opens (c :: d) := by
  refine ⟨⟨c, rfl, hplain, hmark⟩, fun e _ => ?_⟩
  simp [startsWithWord, hword.symm]

theorem opens_name (x : Name) : Opens x.chars := by
  obtain ⟨c, hhead, hstart⟩ := x.isName.start
  have hall : ∀ y ∈ triggers ++ closing, isWordStart y = false := by decide
  have hother : c ∉ triggers ++ closing := by
    intro hmem
    rw [hall c hmem] at hstart
    cases hstart
  rw [List.mem_append, not_or] at hother
  exact ⟨⟨c, hhead, hother⟩, fun d hd => not_startsWithWord_of_isName x.isName hd (by decide)⟩

theorem Opens.append (h : Opens text) (hd : EndsWord d) : Opens (text ++ d) := by
  obtain ⟨c, hhead, hc⟩ := h.head
  obtain ⟨cs, rfl⟩ := List.head?_eq_some_iff.mp hhead
  refine ⟨⟨c, rfl, hc⟩, fun e he => ?_⟩
  rw [List.append_assoc]
  apply h.other
  cases d with
  | nil => exact he
  | cons x d => exact hd

theorem Opens.plain (h : Opens text) (d : List Char) : Plain (text ++ d) := by
  obtain ⟨c, hhead, hc⟩ := h.head
  obtain ⟨cs, rfl⟩ := List.head?_eq_some_iff.mp hhead
  intro x hx
  cases hx
  exact hc.1

theorem Opens.starts (h : Opens text) (hrest : r.cursor.rest = text ++ rest)
    (hlinked : r.forest.Linked) (hflat : mode.flags.inMatrix = false) (hfuel : text.length ≤ fuel)
    (hroom : r.forest.size + n ≤ 4294967295) : Starts mode fuel r r text rest n := by
  have hplain : Plain r.cursor.rest := by
    rw [hrest]
    exact h.plain rest
  have hskip := skip_stays (s := .standard mode fuel) rfl (hplain.settled mode.flags)
  exact ⟨⟨false, hskip⟩, hrest, hlinked, hflat, hfuel, hroom⟩

/-- A text behind a blank. -/
theorem Opens.starts_blank (h : Opens text) (hrest : r.cursor.rest = ' ' :: (text ++ rest))
    (hlinked : r.forest.Linked) (hflat : mode.flags.inMatrix = false) (hfuel : text.length ≤ fuel)
    (hroom : r.forest.size + n ≤ 4294967295) :
    Starts mode fuel r (r.movedTo ⟨r.cursor.offset + 1, text ++ rest⟩) text rest n := by
  have hskip := skip_blank (s := .standard mode fuel) rfl hrest
    (Plain.settled (c := ⟨r.cursor.offset + 1, text ++ rest⟩) (h.plain rest) mode.flags)
  exact ⟨⟨true, hskip⟩, rfl, hlinked, hflat, hfuel, hroom⟩

/-- A first part of a text starts where the text does. -/
theorem Starts.first {m : Nat} (h : Starts mode fuel r₀ r (text ++ d) rest n) (hm : m ≤ n) :
    Starts mode fuel r₀ r text (d ++ rest) m := by
  have hfuel := h.fuel
  have hroom := h.room
  rw [List.length_append] at hfuel
  exact ⟨h.skip, by rw [h.rest, List.append_assoc], h.linked, h.flat, by omega, by omega⟩

/-! ### Reading -/

theorem Leaves.stays {f : Forest} {id : NodeId} (h : Leaves f r₁ id tree rest) (hrest : Plain rest)
    (mode : Mode) (fuel : Nat) :
    (Surroundings.standard mode fuel).skip r₁ = .ok (false, r₁) := by
  have hplain : Plain r₁.cursor.rest := h.rest ▸ hrest
  exact skip_stays rfl (hplain.settled mode.flags)

theorem Leaves.next {f : Forest} {id : NodeId} {c : Char} (h : Leaves f r₁ id tree (c :: d)) :
    (r₁.movedTo r₁.cursor.next).cursor.rest = d := by
  rw [Reader.movedTo_cursor, Cursor.next_cons h.rest]

theorem closes (hrest : r₁.cursor.rest = c :: d) (hc : c ∈ closing) (mode : Mode) (fuel : Nat)
    (opener : Span) (opening : Char) :
    (Surroundings.standard mode fuel).expectClose opener opening c r₁
      = .ok ((), r₁.movedTo r₁.cursor.next) := by
  have hplain : Plain r₁.cursor.rest := hrest ▸ plain_closing hc d
  have hskip := skip_stays (s := .standard mode fuel) rfl (hplain.settled mode.flags)
  exact Surroundings.expectClose_eq_ok_iff.mpr ⟨false, r₁, hskip, Cursor.peek?_cons hrest, rfl⟩

/-- Where what stands behind halts at once, the whole expression is the text. -/
theorem Readable.whole (h : Readable text level edge tree) (hlevel : least.toNat ≤ level)
    (hedge : least.toNat ≤ edge) : Whole text least least.toNat tree where
  opens := h.opens
  reads hstarts hapart hhalts := by
    obtain ⟨id, r₁, k, hleaves, hk, hchain⟩ := h.reads hstarts hapart (hhalts.mono hedge) hlevel
    obtain ⟨k, rfl⟩ : ∃ j, k = j + 1 := ⟨k - 1, by omega⟩
    exact ⟨id, r₁, hchain _ (hhalts _ least k id r₁ (Nat.le_refl _) hleaves.rest), hleaves⟩

theorem Readable.mono {level' edge' : Nat} (h : Readable text level edge tree)
    (hlevel : level' ≤ level) (hedge : edge' ≤ edge) : Readable text level' edge' tree where
  opens := h.opens
  reads hstarts hapart hhalts hleast :=
    h.reads hstarts hapart (hhalts.mono hedge) (Nat.le_trans hleast hlevel)

/-- What is an operand by itself is read at every level. -/
theorem readable_of_operand (hopens : Opens text)
    (h : ∀ {mode : Mode} {fuel : Nat} {r₀ r : Reader} {rest : List Char},
      Starts mode fuel r₀ r text rest (nodes tree) → Apart rest → Halts mode edge rest →
      ∃ id r₁, standard.operand (.standard mode fuel) r₀ = .ok (id, r₁)
        ∧ Leaves r.forest r₁ id tree rest ∧ r₁.afterControlFlow = false) :
    Readable text level edge tree where
  opens := hopens
  reads hstarts hapart hhalts _ := by
    obtain ⟨id, r₁, hoperand, hleaves, hflow⟩ := h hstarts hapart hhalts
    refine ⟨id, r₁, r₁.cursor.rest.length + 1, hleaves, ?_, fun p hchain => ?_⟩
    · rw [hleaves.rest]
      exact Nat.lt_succ_self _
    · exact expression_eq_ok_iff.mpr ⟨id, r₁, hoperand, .inr ⟨hflow, hchain⟩⟩

/-- A new node above those that have been read. -/
theorem leaves_node {f : Forest} {r₂ : Reader} {k : NodeKind Tree} {kind : NodeKind NodeId}
    {span : Span} (hgrows : f.Grows r₁.forest n) (hn : n < nodes (.of k))
    (hroom : f.size + nodes (.of k) ≤ 4294967295)
    (hchildren : ∀ id ∈ kind.children, id.Below r₁.forest.size)
    (hk : kind.map (fun id => (r₁.forest.unfold id).bare) = k)
    (hforest : r₂.forest = (r₁.withNode kind span).forest) (hrest : r₂.cursor.rest = rest) :
    Leaves f r₂ r₁.forest.nextId (.of k) rest := by
  have hsize := hgrows.size
  have hnode := Reader.behind_withNode (r := r₁) hgrows.linked (.refl _) hchildren (by omega) hk
    span
  have hpushed := Reader.size_withNode r₁ kind span
  rw [← hforest] at hpushed
  refine ⟨⟨?_, ?_, by omega⟩, ?_, hrest⟩ <;> rw [hforest]
  · exact hnode.linked
  · exact hgrows.grown.trans hnode.grown
  · exact hnode.shown

/-- An operand that is a new node above those that its form has read. -/
theorem Starts.node {k : NodeKind Tree} (h : Starts mode fuel r₀ r text rest (nodes (.of k)))
    {form : Form} (hform : standard.findForm? r.cursor.rest mode.flags = some form)
    {kind : NodeKind NodeId} {span : Span}
    (hread : form.read (.standard mode fuel) r = .ok (r₁.forest.nextId, r₁.withNode kind span))
    (hgrows : r.forest.Grows r₁.forest n) (hn : n < nodes (.of k))
    (hchildren : ∀ id ∈ kind.children, id.Below r₁.forest.size)
    (hk : kind.map (fun id => (r₁.forest.unfold id).bare) = k) (hrest : r₁.cursor.rest = rest) :
    ∃ id r₂, standard.operand (.standard mode fuel) r₀ = .ok (id, r₂)
      ∧ Leaves r.forest r₂ id (.of k) rest ∧ r₂.afterControlFlow = k.isControlFlow := by
  obtain ⟨b, hskip⟩ := h.skip
  have hroom := h.room
  have hsize := hgrows.size
  have hkind : (r₁.withNode kind span).forest.kind? r₁.forest.nextId = some kind :=
    Forest.kind?_push (by omega) ⟨kind, span⟩
  refine ⟨_, _, operand_eq_ok_iff.mpr ⟨b, r, hskip, form, hform, _, hread, rfl⟩,
    leaves_node hgrows hn hroom hchildren hk rfl hrest, ?_⟩
  calc ((r₁.withNode kind span).forest.kind? r₁.forest.nextId).any (·.isControlFlow)
      = kind.isControlFlow := by rw [hkind, Option.any_some]
    _ = k.isControlFlow := by rw [← hk, NodeKind.isControlFlow_map]

end Printing

/-! ### Lists between delimiters -/

namespace Printing

open Reading Grammar

/-- The texts are read as trees, one by one. -/
abbrev Items (texts : List (List Char)) (ts : List Tree) : Prop :=
  List.Forall₂ (fun text tree => Whole text 0 0 tree) texts ts

variable {texts : List (List Char)} {ts : List Tree} {rest : List Char} {mode : Mode} {fuel k : Nat}
  {r₀ r : Reader} {c : Char}

theorem commas_cons (text : List Char) (hne : texts ≠ []) :
    commas (text :: texts) = text ++ ',' :: ' ' :: commas texts := by
  cases texts with
  | nil => exact absurd rfl hne
  | cons _ _ => rfl

theorem Items.opens (h : Items texts ts) (hne : texts ≠ []) : Opens (commas texts) := by
  cases h with
  | nil => exact absurd rfl hne
  | @cons text tree texts ts hfirst hmore =>
      by_cases hlast : texts = []
      · subst hlast
        exact hfirst.opens
      · rw [commas_cons text hlast]
        exact hfirst.opens.append fun x hx => by cases hx; decide

/-- Every text has a character, and between two of them stand two more. -/
theorem Items.length_le (h : Items texts ts) : 3 * texts.length ≤ (commas texts).length + 2 := by
  induction h with
  | nil => exact Nat.zero_le _
  | @cons text tree texts ts hfirst hmore ih =>
      obtain ⟨c, hhead, -⟩ := hfirst.opens.head
      obtain ⟨cs, rfl⟩ := List.head?_eq_some_iff.mp hhead
      by_cases hlast : texts = []
      · subst hlast
        simp only [commas, List.length_cons, List.length_nil]
        omega
      · rw [commas_cons _ hlast]
        simp only [List.length_append, List.length_cons]
        omega

/-- The list is read up to its closing delimiter, of which nothing is left. -/
theorem Items.reads (h : Items texts ts) (hne : texts ≠ []) (hc : c ∈ closing) (hcomma : c ≠ ',')
    (hstarts : Starts mode fuel r₀ r (commas texts) (c :: rest) (nodesAll ts))
    (hk : texts.length ≤ k) (opener : Span) (opening : Char) (found : List NodeId) :
    ∃ ids r₁, (Surroundings.standard mode (fuel + 1)).items opener opening c k found r₀
        = .ok (found.reverse ++ ids, r₁)
      ∧ List.Forall₂ r₁.forest.Shows ids ts ∧ r.forest.Grows r₁.forest (nodesAll ts)
      ∧ r₁.cursor.rest = rest := by
  induction h generalizing r₀ r k found with
  | nil => exact absurd rfl hne
  | @cons text tree texts ts hfirst hmore ih =>
      obtain ⟨k, rfl⟩ : ∃ j, k = j + 1 := ⟨k - 1, by rw [List.length_cons] at hk; omega⟩
      have hroom := hstarts.room
      by_cases hlast : texts = []
      · subst hlast
        cases hmore
        obtain ⟨id, r₁, hread, hleaves⟩ :=
          hfirst.reads hstarts (apart_closing hc rest) (halts_closing hc rest)
        have hskip := hleaves.stays (plain_closing hc rest) mode (fuel + 1)
        have hpeek := Cursor.peek?_cons hleaves.rest
        have hother : r₁.cursor.peek? ≠ some ',' := by
          rw [hpeek]
          exact fun heq => hcomma (Option.some.inj heq)
        have hclose := closes hleaves.rest hc mode (fuel + 1) opener opening
        exact ⟨[id], _, Surroundings.items_eq_ok_iff.mpr ⟨id, r₁, hread, false, r₁, hskip,
          .inr ⟨hother, (), _, hclose, List.reverse_cons.symm, rfl⟩⟩, .cons hleaves.shown .nil,
          hleaves.grows, hleaves.next⟩
      · have hmark : ',' ∈ closing := by decide
        rw [commas_cons text hlast] at hstarts
        obtain ⟨id, r₁, hread, hleaves⟩ := hfirst.reads
          (hstarts.first (Nat.le_add_right _ _)) (apart_closing hmark _) (halts_closing hmark _)
        have hskip := hleaves.stays (plain_closing hmark _) mode (fuel + 1)
        have hpeek := Cursor.peek?_cons hleaves.rest
        have hfuel := hstarts.fuel
        have hsize := hleaves.grows.size
        have hnodes : nodesAll (tree :: ts) = nodes tree + nodesAll ts := rfl
        simp only [List.length_append, List.length_cons] at hfuel hk
        have hopens : Opens (commas texts) := Items.opens hmore hlast
        have hnext : Starts mode fuel (r₁.movedTo r₁.cursor.next) _ (commas texts) (c :: rest)
            (nodesAll ts) :=
          hopens.starts_blank hleaves.next hleaves.grows.linked hstarts.flat (by omega)
            (by rw [Reader.movedTo_forest]; omega)
        obtain ⟨ids, r₂, hitems, hshown, hgrows, hrest⟩ :=
          ih (k := k) hlast hnext (by omega) (id :: found)
        have hall := hleaves.grows.trans hgrows
        have hsize₂ := hall.size
        have hfirst₂ := hleaves.shown.extends hgrows.grown hleaves.grows.linked (by omega)
        refine ⟨id :: ids, r₂, ?_, .cons hfirst₂ hshown, hall, hrest⟩
        rw [List.reverse_cons, List.append_assoc, List.singleton_append] at hitems
        exact Surroundings.items_eq_ok_iff.mpr
          ⟨id, r₁, hread, false, r₁, hskip, .inl ⟨hpeek, hitems⟩⟩

/-- A list between parentheses, which may be empty. -/
theorem Items.delimited (h : Items texts ts) (hrest : r.cursor.rest = commas texts ++ ')' :: rest)
    (hlinked : r.forest.Linked) (hflat : mode.flags.inMatrix = false)
    (hfuel : (commas texts).length ≤ fuel) (hroom : r.forest.size + nodesAll ts ≤ 4294967295)
    (outer : Mode) (opener : Span) (construct : Construct) :
    ∃ ids r₁, (Surroundings.standard outer (fuel + 1)).delimited mode opener '(' ')' construct r
        = .ok (ids, r₁)
      ∧ List.Forall₂ r₁.forest.Shows ids ts ∧ r.forest.Grows r₁.forest (nodesAll ts)
      ∧ r₁.cursor.rest = rest := by
  by_cases hnone : texts = []
  · subst hnone
    cases h
    have hskip := skip_stays (s := .standard mode (fuel + 1)) rfl
      (Plain.settled (c := r.cursor) (hrest ▸ plain_closing (by decide) rest) mode.flags)
    have hpeek := Cursor.peek?_cons hrest
    refine ⟨[], _, Surroundings.delimited_eq_ok_iff.mpr ⟨false, r, hskip, .inl ⟨hpeek, rfl, rfl⟩⟩,
      .nil, ⟨hlinked, .refl _, Nat.le_refl _⟩, ?_⟩
    rw [Reader.movedTo_cursor, Cursor.next_cons hrest]
  · have hopens := h.opens hnone
    have hskip := skip_stays (s := .standard mode (fuel + 1)) rfl
      (Plain.settled (c := r.cursor) (hrest ▸ hopens.plain _) mode.flags)
    have hother : r.cursor.peek? ≠ some ')' := by
      obtain ⟨c, hhead, -, hc⟩ := hopens.head
      obtain ⟨d, hd⟩ := List.head?_eq_some_iff.mp hhead
      rw [Cursor.peek?, hrest, hd]
      intro heq
      cases heq
      exact hc (by decide)
    have hcount : texts.length ≤ r.cursor.rest.length + 1 := by
      have hle := h.length_le
      rw [hrest, List.length_append]
      omega
    obtain ⟨ids, r₁, hitems, hfound⟩ := h.reads hnone (by decide) (by decide)
      (hopens.starts hrest hlinked hflat hfuel hroom) hcount opener '(' []
    exact ⟨ids, r₁, Surroundings.delimited_eq_ok_iff.mpr ⟨false, r, hskip, .inr ⟨hother, hitems⟩⟩,
      hfound⟩

end Printing

end MatrixScript
