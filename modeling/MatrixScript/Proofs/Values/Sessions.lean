import Mathlib.Tactic.Common
import MatrixScript.Proofs.Contracts.Evaluation
import MatrixScript.Proofs.Extraction
import MatrixScript.Proofs.Runs
import MatrixScript.Proofs.Values.Functions
import MatrixScript.Proofs.Values.Standard

/-!
# Programs keep values well-formed

Running a program with the standard library gives well-formed values only, and leaves only such
values bound, whatever it was that stopped it. The program may be any forest without broken links,
so one that was saved by somebody else is as good as one that was read from a text.

Operations on well-formed values give well-formed values. So evaluation keeps the variables
well-formed, even if it stops, and its value is well-formed. In a call the body of the function
takes the place of the program, and its links have been found to be unbroken when it was made.

A lambda expression copies its body, and a node that is shared is copied once for each use. The copy
has no broken links as long as its nodes have numbers of their own. One node more, and the last
number is given away that stands for no node at all.
-/

namespace MatrixScript

theorem Value.wellFormed_closed : Closed WellFormed where
  scalar _ := trivial
  text _ := trivial
  empty := Matrix.wellFormed_empty
  ofMatrix _ hm := wellFormed_ofMatrix hm
  matrix? _ hv _ hm := hv.matrix? hm
  beside _ hm _ hn := Matrix.beside_yields hm hn
  above _ hm _ hn := Matrix.above_yields hm hn
  unary op _ hv := unary_yields hv op
  binary op _ hv _ hw := binary_yields hv hw op
  range start stop := makeRange_yields start stop
  index target htarget args hargs := by
    refine index_yields htarget fun arg harg => ?_
    cases arg with
    | all => trivial
    | value v => exact hargs _ harg v rfl
  assignIndex _ htarget args v := assignIndex_yields htarget args v

/-! ### Bodies that can be copied -/

/-- The node is there, and the tree below it has no more nodes than there are numbers. -/
structure Forest.Copyable (f : Forest) (id : NodeId) : Prop where
  present : id.isPresent = true
  size : ∀ t, f.TreeAt id t → t.size ≤ 4294967295

def Lambda.Copyable (code : Lambda) : Prop := code.forest.Copyable code.root

theorem Tree.size_le_sizeAll {t : Tree} {ts : List Tree} (h : t ∈ ts) : t.size ≤ sizeAll ts := by
  induction ts with
  | nil => cases h
  | cons u ts ih =>
      rw [sizeAll]
      cases h with
      | head => exact Nat.le_add_right _ _
      | tail _ h => exact Nat.le_add_left_of_le (ih h)

namespace Forest

variable {f : Forest} {id : NodeId} {node : Node}

theorem exists_mem_of_treesAt {ids : List NodeId} {ts : List Tree} (h : f.TreesAt ids ts)
    (hid : id ∈ ids) : ∃ t ∈ ts, f.TreeAt id t := by
  induction ts generalizing ids with
  | nil =>
      obtain rfl : ids = [] := h
      cases hid
  | cons t ts ih =>
      obtain ⟨first, rest, rfl, ht, hts⟩ := h
      cases hid with
      | head => exact ⟨t, List.mem_cons_self, ht⟩
      | tail _ hid => exact (ih hts hid).imp fun u ⟨hu, htree⟩ => ⟨List.mem_cons_of_mem t hu, htree⟩

/-- The trees of the children have fewer nodes. -/
theorem Copyable.child (h : f.Copyable id) (hf : f.WellLinked) (hnode : f.get? id = some node)
    {child : NodeId} (hchild : child ∈ node.kind.children) (hpresent : child.isPresent = true) :
    f.Copyable child := by
  refine ⟨hpresent, fun u hu => ?_⟩
  obtain ⟨t, ht⟩ := exists_treeAt hf fun _ => decide_eq_true (lt_size hnode)
  have hsize := h.size t ht
  cases t with
  | absent =>
      obtain rfl : id = NodeId.absent := ht
      cases h.present
  | node label span ts =>
      obtain ⟨-, node', hnode', -, -, hts⟩ := ht
      obtain rfl := Option.some.inj (hnode.symm.trans hnode')
      obtain ⟨t, hmem, ht⟩ := exists_mem_of_treesAt hts hchild
      obtain rfl := hu.unique ht
      rw [Tree.size] at hsize
      exact ((Tree.size_le_sizeAll hmem).trans (Nat.le_add_left _ 1)).trans hsize

/-- The copy of a body is as large as the tree below it. -/
theorem Copyable.extract (h : f.Copyable id) (hf : f.WellLinked) (hid : f.contains id = true)
    {root : NodeId} {out : Forest} (hcopy : f.extract id = .ok (root, out)) :
    out.brokenLink? = none ∧ out.contains root = true ∧ out.Copyable root := by
  obtain ⟨t, ht⟩ := exists_treeAt hf fun _ => hid
  have hroom := h.size t ht
  have hextract := extract_eq hf ht
  obtain ⟨hlinks, hroot⟩ := extract_yields hf h.present _ hextract
  rw [hcopy, Except.ok.injEq, Prod.mk.injEq] at hextract
  obtain ⟨rfl, rfl⟩ := hextract
  have hsize : (empty.pushAll (t.row 0)).size = t.size := by
    rw [size_pushAll, Tree.length_row]
    exact Nat.zero_add _
  have hcopied := (stands_of_holds ht holds_pushAll (by omega)).treeAt
  refine ⟨hlinks.links (hsize.trans_le (by omega)), hroot, ?_, fun u hu => hu.unique hcopied ▸ hroom⟩
  cases t with
  | absent =>
      obtain rfl : id = NodeId.absent := ht
      cases h.present
  | node label span ts => exact hcopied.1

end Forest

namespace Forest

/-- A node of a forest that is read back. -/
theorem copyable_of_unfold {f : Forest} {id : NodeId} (hf : f.WellLinked)
    (hsize : f.size ≤ 4294967295) (hpresent : id.isPresent = true)
    (h : (f.unfold id).size ≤ 4294967295) : f.Copyable id := by
  refine ⟨hpresent, fun t ht => ?_⟩
  rwa [unfold, ht.unfoldWith_eq hf hsize fun _ => Nat.lt_succ_self _] at h

end Forest

/-! ### Evaluation -/

/-- Forests without broken links, and well-formed values, whose bodies can be copied. -/
def wellFormedness : Contract where
  library := Library.standard
  Runs f id := f.brokenLink? = none ∧ f.Copyable id
  Good v := v.WellFormed ∧ v.All Lambda.Copyable
  Invariant _ e := e.WellFormed ∧ e.Each (Value.All Lambda.Copyable)

theorem wellFormedness_lawful : wellFormedness.Lawful where
  closed := Value.wellFormed_closed.and (Value.closed_of_plain fun _ hv => hv.all)
  named name := ⟨trivial, Value.all_function (.named name)⟩
  constant name v hv := ⟨Library.standard_sound.constant? hv, (Library.standard_constants name hv).all⟩
  captured code captures hf c hc := by
    refine ⟨Capture.allWellFormed_iff.mp hf.1.2 c hc, ?_⟩
    cases hf.2 _ (.function _) with
    | lambda _ hcaptures => exact hcaptures c hc
  lookup _ _ he _ _ hv := ⟨he.1.lookup hv, he.2.lookup hv⟩
  close _ _ he f id node hid hnode params body hkind root forest hcopy names serial := by
    have hlinked := Forest.wellLinked_of_links hid.1
    have hchild : body ∈ node.kind.children := by
      rw [hkind]
      exact List.mem_singleton_self body
    have hpresent := hlinked.isPresent_required hnode hkind List.mem_cons_self
    have hlt := hlinked.child_lt hnode hchild hpresent
    have hbody := hid.2.child hlinked hnode hchild hpresent
    obtain ⟨hlinks, hroot, hcopied⟩ := hbody.extract hlinked
      (decide_eq_true (hlt.trans (Forest.lt_size hnode))) hcopy
    exact ⟨⟨⟨hlinks, hroot⟩, he.1.capture names⟩,
      Value.all_function (.lambda hcopied (he.2.capture names))⟩
  body code captures hf := by
    cases hf.2 _ (.function _) with
    | lambda hcode _ => exact ⟨hf.1.1.links, hcode⟩
  below f id hid node hnode slot hslot hpresent := by
    have hlinked := Forest.wellLinked_of_links hid.1
    have hthere := (hlinked.isPresent_or hnode hslot).elim (fun h => h) hpresent
    exact ⟨hid.1, hid.2.child hlinked hnode (List.mem_map_of_mem hslot) hthere⟩
  missing _ _ _ _ := trivial
  uncopied _ _ _ _ _ := trivial
  toDepthLaws := Contract.depthLaws_of_eq fun _ _ => .rfl
  define _ _ he name _ hv := ⟨he.1.define name hv.1, he.2.define name hv.2⟩
  call _ name args hargs :=
    (Library.standard_sound.call name fun v hv => (hargs v hv).1).and
      (Library.standard_keeps_all name fun v hv => (hargs v hv).2)
  push _ _ _ _ he := ⟨he.1.push, he.2.push⟩
  pop _ _ _ _ _ _ hleft := ⟨hleft.1.pop, hleft.2.pop⟩
  toFailureLaws := Contract.failureLaws_of_forall fun _ _ => trivial

theorem Setting.run_wellFormed {s : Setting} (hlibrary : s.library = Library.standard)
    (hlinks : s.forest.brokenLink? = none) {statements : List Statement}
    (hroots : ∀ t ∈ statements, s.forest.Copyable t.root) (fuel : Nat) :
    MatrixScript.Keeps (fun m : Machine => wellFormedness.Invariant s.depth m.environment)
      (s.run fuel statements) fun outputs => ∀ v, some v ∈ outputs → wellFormedness.Good v := by
  intro m hm
  have hsettings : wellFormedness.Settings s s.depth := ⟨hlibrary, rfl⟩
  have hrun := wellFormedness_lawful.runWith hsettings (wellFormedness_lawful.evaluates fuel)
    fun t ht => ⟨hlinks, hroots t ht⟩
  obtain ⟨-, hleft, hends⟩ := hrun.uncut (fun _ hcut => hcut) hm
  refine ⟨hleft.invariant, fun outputs houtputs v hv => ?_⟩
  change Contract.Ends _ _ _ ((s.run fuel statements).run.run m).1 at hends
  rw [houtputs] at hends
  exact hends (some v) hv v rfl

namespace Session

/-- A program without broken links, run on well-formed variables with the standard library, leaves
well-formed variables, and if it does not fail, its outputs are well-formed: as long as no statement
and no body of a function that is bound has more nodes than there are numbers, a shared node counted
once for each use. The bodies of the functions that it makes and binds have no more either. -/
theorem execute_wellFormed (s : Session) (hlibrary : s.library = Library.standard)
    (henvironment : s.environment.WellFormed)
    (hbodies : s.environment.Each (Value.All Lambda.Copyable)) (q : Query)
    (hlinks : q.program.forest.brokenLink? = none)
    (hroots : ∀ t ∈ q.program.statements, q.program.forest.Copyable t.root) (fuel : Nat) :
    (s.execute fuel q).2.environment.WellFormed
      ∧ (s.execute fuel q).2.environment.Each (Value.All Lambda.Copyable)
      ∧ ∀ outputs, (s.execute fuel q).1 = .ok outputs → ∀ v, some v ∈ outputs → v.WellFormed := by
  obtain ⟨hleft, hgives⟩ := Setting.run_wellFormed (s := s.setting q.program.forest) hlibrary hlinks
    hroots fuel ⟨s.environment, 0, s.nextSerial, []⟩ ⟨henvironment, hbodies⟩
  exact ⟨hleft.1, hleft.2, (hgives.imp fun outputs h v hv => (h v hv).1).mapError _⟩

/-- A function that captures an ordered set is bound and put out. -/
theorem execute_wellFormed_function :
    let captured : Value := .set ⟨"s", true, [.number Complex.one, .text "a"]⟩
    let s : Session := Session.standard.set "k" captured
    let forest : Forest := ⟨#[⟨.name "k", ⟨11, 12⟩⟩, ⟨.lambda ["x"] ⟨0⟩, ⟨4, 12⟩⟩,
      ⟨.name "f", ⟨0, 1⟩⟩, ⟨.assign ⟨2⟩ none ⟨1⟩, ⟨0, 12⟩⟩]⟩
    let q : Query := ⟨"f = (x) => k", ⟨forest, [⟨⟨3⟩, false⟩]⟩⟩
    let f : Value := .function
      (.lambda ⟨["x"], ⟨0⟩, ⟨#[⟨.name "k", ⟨11, 12⟩⟩]⟩, some 0⟩ [.mk "k" captured])
    s.library = Library.standard ∧ s.environment.WellFormed
      ∧ q.program.forest.brokenLink? = none ∧ (s.execute 3 q).1 = .ok [some f]
      ∧ (s.execute 3 q).2.environment.WellFormed ∧ f.WellFormed := by
  intro captured s forest q f
  have hcaptured : captured.WellFormed :=
    ElementSet.WellFormed.mk (by decide) fun _ => by decide
  have henvironment : s.environment.WellFormed :=
    Environment.wellFormed_empty.define "k" hcaptured
  have hbodies : s.environment.Each (Value.All Lambda.Copyable) :=
    Environment.each_empty.define "k" (Value.IsPlain.all ⟨nofun, nofun⟩)
  have hlinks : q.program.forest.brokenLink? = none := by decide
  have hroots : ∀ t ∈ q.program.statements, q.program.forest.Copyable t.root :=
    List.forall_mem_singleton.mpr (Forest.copyable_of_unfold (Forest.wellLinked_of_links hlinks)
      (by decide) (by decide) (by decide))
  have hrun : (s.execute 3 q).1 = .ok [some f] := by with_unfolding_all rfl
  obtain ⟨hleft, -, hgives⟩ := execute_wellFormed s rfl henvironment hbodies q hlinks hroots 3
  exact ⟨rfl, henvironment, hlinks, hrun, hleft, hgives _ hrun f List.mem_cons_self⟩

end Session

/-! ### A body without room for a copy -/

/-- The sum of a tree and the negative of a number. -/
def Tree.signed (t : Tree) : Tree :=
  .node (.binary .add () ()) Span.none
    [t, .node (.unary .neg ()) Span.none [.node (.real Double.one) Span.none []]]

/-- The sign comes behind the number, and that behind the tree. -/
theorem Tree.row_signed (t : Tree) :
    (t.signed.row 0)[t.size + 1]? = some ⟨.unary .neg (.ofPlace t.size), Span.none⟩ := by
  have hplace : (t.row 0).length = t.size := length_row 0 t
  rw [signed, row, rowAll, rowAll, Nat.zero_add, List.append_assoc,
    List.getElem?_append_right (by omega), hplace, Nat.add_sub_cancel_left]
  rfl

namespace Forest

/-- A lambda expression whose body is small only because its nodes are shared: a number, its sums
with themselves, each one twice the one before, the negative of the number, and one more sum. -/
def crowded : Forest :=
  let sums := (List.range 31).map fun i =>
    Node.mk (.binary .add ⟨UInt32.ofNat i⟩ ⟨UInt32.ofNat i⟩) Span.none
  ⟨(Node.mk (.real Double.one) Span.none :: sums ++ [Node.mk (.unary .neg ⟨0⟩) Span.none,
    Node.mk (.binary .add ⟨31⟩ ⟨32⟩) Span.none, Node.mk (.lambda [] ⟨33⟩) Span.none]).toArray⟩

/-- By induction on the number of the node. -/
theorem crowded_sum {n : Nat} (hn : n ≤ 31) :
    ∃ t, crowded.TreeAt ⟨UInt32.ofNat n⟩ t ∧ t.size + 1 = 2 ^ (n + 1) := by
  induction n with
  | zero =>
      have hnode : crowded.get? ⟨0⟩ = some ⟨.real Double.one, Span.none⟩ := by decide +kernel
      exact ⟨.node (.real Double.one) Span.none [], ⟨by decide, _, hnode, rfl, rfl, rfl⟩, rfl⟩
  | succ n ih =>
      have hnodes : ∀ n < 31, NodeId.isPresent ⟨UInt32.ofNat (n + 1)⟩ = true
          ∧ crowded.get? ⟨UInt32.ofNat (n + 1)⟩
            = some ⟨.binary .add ⟨UInt32.ofNat n⟩ ⟨UInt32.ofNat n⟩, Span.none⟩ := by
        decide +kernel
      obtain ⟨hpresent, hnode⟩ := hnodes n hn
      obtain ⟨t, ht, hsize⟩ := ih (Nat.le_of_succ_le hn)
      refine ⟨.node (.binary .add () ()) Span.none [t, t], ?_, ?_⟩
      · exact ⟨hpresent, _, hnode, rfl, rfl, _, _, rfl, ht, _, _, rfl, ht, rfl⟩
      · rw [Tree.size, Tree.sizeAll, Tree.sizeAll, Tree.sizeAll]
        omega

theorem crowded_body {t : Tree} (ht : crowded.TreeAt ⟨31⟩ t) : crowded.TreeAt ⟨33⟩ t.signed := by
  have hsum : crowded.get? ⟨33⟩ = some ⟨.binary .add ⟨31⟩ ⟨32⟩, Span.none⟩ := by decide +kernel
  have hsign : crowded.get? ⟨32⟩ = some ⟨.unary .neg ⟨0⟩, Span.none⟩ := by decide +kernel
  have hnumber : crowded.get? ⟨0⟩ = some ⟨.real Double.one, Span.none⟩ := by decide +kernel
  exact ⟨by decide, _, hsum, rfl, rfl, _, _, rfl, ht, _, _, rfl,
    ⟨by decide, _, hsign, rfl, rfl, _, _, rfl, ⟨by decide, _, hnumber, rfl, rfl, rfl⟩, rfl⟩, rfl⟩

/-- If a tree takes up all numbers but the last one, the sign behind it has to name a node that has
no number of its own. -/
theorem brokenLink?_signed {t : Tree} (ht : t.size = 4294967295) :
    (empty.pushAll (t.signed.row 0)).brokenLink? ≠ none := by
  have hsign := holds_pushAll _ _ t.row_signed
  rw [ht] at hsign
  intro hlinks
  have hfits : slotFits (0 + 4294967296) (NodeId.absent, false) = true :=
    brokenLink?_eq_none_iff.mp hlinks _ _ hsign _ List.mem_cons_self
  exact absurd hfits (by decide)

end Forest

namespace Session

/-- A program without broken links makes a function whose body has one. -/
theorem not_execute_wellFormed :
    let q : Query := ⟨"", ⟨Forest.crowded, [⟨⟨34⟩, false⟩]⟩⟩
    q.program.forest.brokenLink? = none ∧ Session.standard.environment.WellFormed
      ∧ ∃ v, (Session.standard.execute 1 q).1 = .ok [some v] ∧ ¬v.WellFormed := by
  intro q
  have hlinks : Forest.crowded.brokenLink? = none := by decide +kernel
  obtain ⟨t, ht, hsize⟩ := Forest.crowded_sum (Nat.le_refl 31)
  have hcopy := Forest.extract_eq (Forest.wellLinked_of_links hlinks) (Forest.crowded_body ht)
  have hkind : Forest.crowded.kind? ⟨34⟩ = some (.lambda [] ⟨33⟩) := by decide +kernel
  exact ⟨hlinks, Environment.wellFormed_empty, _, execute_lambda inTime_standard hkind hcopy "" 0,
    fun h => Forest.brokenLink?_signed (Nat.succ.inj hsize) h.1.links⟩

end Session

end MatrixScript
