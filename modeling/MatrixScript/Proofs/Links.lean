import MatrixScript.Proofs.Contracts.Evaluation
import MatrixScript.Proofs.Reading.Refills
import MatrixScript.Proofs.Values.Bodies
import MatrixScript.Proofs.Values.Functions

/-!
# Evaluation follows no broken link

In a forest without broken links every child that has to be there has a smaller number than its
parent. So from a node of the forest evaluation only gets to nodes of it: it looks at a slot that
may be empty only after it has tested that something is there. The body of a lambda expression is
copied into a forest where no link of a node that can be found is broken, however large it is, and
where the body of a function runs, its own forest takes the place of the one before.
-/

namespace MatrixScript

open Evaluation

/-! ### Copying a body -/

/-- A part of a copy that succeeds, whatever has been copied before. -/
def Succeeds {α : Type} (x : StateT Forest (Except NodeId) α) : Prop := ∀ f, ∃ p, x.run f = .ok p

section Copying

variable {α β : Type} {x : StateT Forest (Except NodeId) α}

theorem succeeds_pure (a : α) : Succeeds (pure a) := fun f => ⟨(a, f), rfl⟩

theorem Succeeds.bind {g : α → StateT Forest (Except NodeId) β} (hx : Succeeds x)
    (hg : ∀ a, Succeeds (g a)) : Succeeds (x >>= g) := by
  intro f
  obtain ⟨p, hp⟩ := hx f
  rw [StateT.run_bind, hp]
  exact hg p.1 p.2

theorem succeeds_mapM {xs : List α} {g : α → StateT Forest (Except NodeId) β}
    (h : ∀ a ∈ xs, Succeeds (g a)) : Succeeds (xs.mapM g) := by
  induction xs with
  | nil => exact succeeds_pure []
  | cons a xs ih =>
      obtain ⟨ha, hxs⟩ := List.forall_mem_cons.mp h
      rw [List.mapM_cons]
      exact ha.bind fun b => (ih hxs).bind fun bs => succeeds_pure (b :: bs)

/-- Children are all that can fail in copying a node. -/
theorem succeeds_kind {k : NodeKind NodeId} {g : NodeId → StateT Forest (Except NodeId) NodeId}
    (h : ∀ id ∈ k.children, Succeeds (g id)) : Succeeds (k.mapM g) := by
  rw [NodeKind.mapM_eq_refill, map_eq_pure_bind]
  exact (succeeds_mapM h).bind fun ids => succeeds_pure (k.refill ids)

end Copying

namespace Forest

variable {f : Forest} {id : NodeId}

theorem get?_of_contains (h : f.contains id = true) : ∃ node, f.get? id = some node :=
  ⟨_, Array.getElem?_eq_getElem (of_decide_eq_true h)⟩

/-- By induction on the fuel: the children of a node have smaller numbers than the node. -/
theorem succeeds_copyInto (hf : f.WellLinked) (fuel : Nat)
    (hid : id.isPresent = true → id.index.toNat < fuel ∧ f.contains id = true) :
    Succeeds (f.copyInto fuel id) := by
  induction fuel generalizing id with
  | zero =>
      unfold copyInto
      split
      · rename_i hpresent
        exact absurd (hid hpresent).1 (Nat.not_lt_zero _)
      · exact succeeds_pure _
  | succ fuel ih =>
      unfold copyInto
      split
      · rename_i hpresent
        obtain ⟨hfuel, hcontains⟩ := hid hpresent
        obtain ⟨node, hnode⟩ := get?_of_contains hcontains
        rw [hnode]
        refine (succeeds_kind fun child hchild => ih fun hpresent => ?_).bind fun kind copy => ?_
        · have hbelow := hf.child_lt hnode hchild hpresent
          have hsize : id.index.toNat < f.size := of_decide_eq_true hcontains
          exact ⟨by omega, decide_eq_true (by omega)⟩
        · exact ⟨_, rfl⟩
      · exact succeeds_pure _

theorem extract_succeeds (hf : f.WellLinked) (hid : f.contains id = true) :
    ∃ copy, f.extract id = .ok copy :=
  succeeds_copyInto hf _ (fun _ => ⟨Nat.lt_succ_self _, hid⟩) empty

end Forest

/-! ### Evaluation -/

/-- Only nodes of a forest whose links lead to nodes are evaluated, and functions can run. -/
def linking (library : Library) : Contract where
  library := library
  Runs f id := f.WellLinked ∧ f.contains id = true
  Good := Value.Runnable
  Invariant _ := Environment.Each Value.Runnable
  Misses := False

theorem linking_lawful {library : Library} (hlibrary : library.Runnable) :
    (linking library).Lawful where
  closed := Value.closed_of_plain fun _ hv => hv.all
  named name := Value.all_function (.named name)
  constant := hlibrary.constants
  captured code captures hf c hc f hheld := by
    cases hf _ (.function _) with
    | lambda _ hcaptures => exact hcaptures c hc f hheld
  lookup _ _ he _ _ := he.lookup
  close _ _ he _ _ _ hid hnode _ _ hkind _ _ hcopy names _ :=
    have hbody := hid.1.isPresent_required hnode hkind List.mem_cons_self
    have ⟨hlinks, hroot⟩ := Forest.extract_yields hid.1 hbody _ hcopy
    Value.all_function (.lambda ⟨hlinks, hroot⟩ (he.capture names))
  body code captures hf := by
    cases hf _ (.function _) with
    | lambda hcode _ => exact ⟨hcode.links, hcode.root⟩
  below f id hid node hnode slot hslot hpresent := by
    have hthere : slot.1.isPresent = true :=
      (hid.1.isPresent_or hnode hslot).elim (fun h => h) hpresent
    have hlt := hid.1.child_lt hnode (List.mem_map_of_mem hslot) hthere
    exact ⟨hid.1, decide_eq_true (Nat.lt_trans hlt (of_decide_eq_true hid.2))⟩
  missing f id hid hnone := by
    obtain ⟨node, hnode⟩ := Forest.get?_of_contains hid.2
    rw [hnode] at hnone
    cases hnone
  uncopied f id hid i hfailed := by
    obtain ⟨copy, hcopy⟩ := Forest.extract_succeeds hid.1 hid.2
    rw [hcopy] at hfailed
    cases hfailed
  toDepthLaws := Contract.depthLaws_of_eq fun _ _ => .rfl
  define _ _ he name _ := he.define name
  call _ := hlibrary.functions
  push _ _ _ _ he := he.push
  pop _ _ _ _ _ _ hleft := hleft.pop
  toFailureLaws := Contract.failureLaws_of_forall fun _ _ => trivial

namespace Setting

/-- No link of the forest is broken and the root is one of its nodes; the functions among the
variables and those of the library can run, as they can if they are well-formed. Then evaluation
ends at no link that leads nowhere, in that forest or in any other, and afterwards the functions can
run, too. -/
theorem evaluate_links (s : Setting) (hlinks : s.forest.brokenLink? = none) {root : NodeId}
    (hroot : s.forest.contains root = true) (hlibrary : s.library.Runnable) {m : Machine}
    (hm : m.environment.Each Value.Runnable) (fuel : Nat) :
    let ended := (evaluate fuel s root).run.run m
    (∀ id, ended.1 ≠ .error (.missingNode id)) ∧ (∀ v, ended.1 = .ok v → v.Runnable)
      ∧ ended.2.environment.Each Value.Runnable := by
  intro ended
  have hs : (linking s.library).Settings s s.depth := ⟨rfl, rfl⟩
  have hrun := (linking_lawful hlibrary).evaluates fuel s s.depth root hs
    ⟨Forest.wellLinked_of_links hlinks, hroot⟩
  obtain ⟨-, hleft, hends⟩ := hrun.uncut (fun _ hcut => hcut) hm
  refine ⟨fun id hmissing => ?_, fun v hv => ?_, hleft.invariant⟩
  · change (linking s.library).Ends s.forest Value.Runnable ended.1 at hends
    rw [hmissing] at hends
    exact hends
  · change (linking s.library).Ends s.forest Value.Runnable ended.1 at hends
    rw [hv] at hends
    exact hends

/-- A branch without its other part. A function that is made there calls one that is a variable,
and that one has captured a third one. -/
theorem evaluate_links_branch :
    let g : Value := .function (.lambda ⟨["y"], ⟨0⟩, ⟨#[⟨.name "y", ⟨7, 8⟩⟩]⟩, some 0⟩ [])
    let body : Forest :=
      ⟨#[⟨.name "g", ⟨9, 10⟩⟩, ⟨.name "x", ⟨11, 12⟩⟩, ⟨.call ⟨0⟩ [⟨1⟩], ⟨9, 13⟩⟩]⟩
    let f : Value := .function (.lambda ⟨["x"], ⟨2⟩, body, some 1⟩ [.mk "g" g])
    let forest : Forest := ⟨#[⟨.real Double.one, ⟨4, 5⟩⟩, ⟨.name "f", ⟨14, 15⟩⟩,
      ⟨.name "z", ⟨16, 17⟩⟩, ⟨.call ⟨1⟩ [⟨2⟩], ⟨14, 18⟩⟩, ⟨.lambda ["z"] ⟨3⟩, ⟨7, 18⟩⟩,
      ⟨.imaginary Double.one, ⟨20, 22⟩⟩, ⟨.call ⟨4⟩ [⟨5⟩], ⟨6, 23⟩⟩,
      ⟨.branch ⟨0⟩ ⟨6⟩ NodeId.absent, ⟨0, 23⟩⟩]⟩
    let s : Setting := ⟨forest, Library.standard, none, Depth.ofLimit 4⟩
    let m : Machine := ⟨⟨[("f", f)], []⟩, 0, 2, []⟩
    let ended := (evaluate 5 s ⟨7⟩).run.run m
    forest.brokenLink? = none ∧ forest.contains ⟨7⟩ = true
      ∧ m.environment.Each Value.Runnable
      ∧ ended.1 = .ok (.scalar ⟨Double.zero, Double.one⟩)
      ∧ ∀ id, ended.1 ≠ .error (.missingNode id) := by
  intro g body f forest s m ended
  have hlinks : forest.brokenLink? = none := by decide
  have hroot : forest.contains ⟨7⟩ = true := by decide
  have hg : g.WellFormed := ⟨⟨by decide, by decide⟩, trivial⟩
  have hf : f.WellFormed := ⟨⟨by decide, by decide⟩, hg, trivial⟩
  have hm : m.environment.Each Value.Runnable :=
    Environment.each_iff.mpr ⟨List.forall_mem_singleton.mpr hf.runnable, nofun⟩
  have hended := evaluate_links s hlinks hroot Library.standard_runnable hm 5
  exact ⟨hlinks, hroot, hm, by with_unfolding_all rfl, hended.1⟩

/-- A library may have a constant whose body lacks its root. -/
theorem not_evaluate_links : ¬∀ (s : Setting) (root : NodeId) (m : Machine) (fuel : Nat),
    s.forest.brokenLink? = none → s.forest.contains root = true →
      m.environment.Each Value.Runnable →
        ∀ id, ((evaluate fuel s root).run.run m).1 ≠ .error (.missingNode id) := by
  intro h
  let forest : Forest := ⟨#[⟨.name "k", ⟨0, 1⟩⟩, ⟨.call ⟨0⟩ [], ⟨0, 3⟩⟩]⟩
  let k : Value := .function (.lambda ⟨[], ⟨0⟩, Forest.empty, none⟩ [])
  let s : Setting := ⟨forest, ⟨[], [("k", k)]⟩, none, Depth.ofLimit 1⟩
  exact h s ⟨1⟩ ⟨Environment.empty, 0, 0, []⟩ 3 (by decide) (by decide)
    (Environment.each_iff.mpr ⟨nofun, nofun⟩) ⟨0⟩ rfl

end Setting

end MatrixScript
