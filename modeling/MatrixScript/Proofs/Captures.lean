import MatrixScript.Proofs.Hermetic
import MatrixScript.Proofs.Links
import MatrixScript.Proofs.Ranges

/-!
# What a lambda captures

A name in the body of a lambda is free if neither the lambda nor any lambda between it and the place
of the name has it as a parameter. The value of a lambda expression captures the visible names that
stand in its body, parameters of its own left out. So no visible name that is free is missed. A name
that only stands where an inner lambda binds it is captured as well if it happens to be visible, and
that is all by which the captured names can differ from the free ones.

The body is copied node by node, and the names are taken from the nodes of the copy. Those are the
names at the places that links lead to, whatever nodes of the original these places share.
-/

namespace MatrixScript

/-- Whether a node binds a name for what stands below it. -/
def NodeKind.Binds {α : Type} (k : NodeKind α) (name : String) : Prop :=
  match k with
  | .lambda params _ => name ∈ params
  | _ => False

namespace Forest

/-- The name stands at a node or somewhere below it. -/
inductive Mentions (f : Forest) (name : String) : NodeId → Prop where
  | here {id : NodeId} (hkind : f.kind? id = some (.name name)) : Mentions f name id
  | inside {id child : NodeId} {kind : NodeKind NodeId} (hkind : f.kind? id = some kind)
      (hchild : child ∈ kind.children) (hpresent : child.isPresent = true)
      (h : Mentions f name child) : Mentions f name id

/-- The name stands at a node or below it, where no node from that one on binds it. -/
inductive Free (f : Forest) (name : String) : NodeId → Prop where
  | here {id : NodeId} (hkind : f.kind? id = some (.name name)) : Free f name id
  | inside {id child : NodeId} {kind : NodeKind NodeId} (hkind : f.kind? id = some kind)
      (hunbound : ¬kind.Binds name) (hchild : child ∈ kind.children)
      (hpresent : child.isPresent = true) (h : Free f name child) : Free f name id

/-- Some node of the forest is the name. -/
def HasName (f : Forest) (name : String) : Prop := ∃ node ∈ f.nodes.toList, node.kind = .name name

variable {f c c' : Forest} {name : String} {id id' : NodeId} {ids ids' : List NodeId}
  {kind : NodeKind NodeId} {params : List String} {body : NodeId}

theorem Free.mentions (h : f.Free name id) : f.Mentions name id := by
  induction h with
  | here hkind => exact .here hkind
  | inside hkind _ hchild hpresent _ ih => exact .inside hkind hchild hpresent ih

theorem mentions_iff (hkind : f.kind? id = some kind) : f.Mentions name id ↔ kind = .name name ∨
    ∃ child ∈ kind.children, child.isPresent = true ∧ f.Mentions name child := by
  constructor
  · intro h
    cases h with
    | here hname => exact .inl (Option.some.inj (hkind.symm.trans hname))
    | inside hother hchild hpresent h =>
        obtain rfl := Option.some.inj (hkind.symm.trans hother)
        exact .inr ⟨_, hchild, hpresent, h⟩
  · rintro (rfl | ⟨child, hchild, hpresent, h⟩)
    · exact .here hkind
    · exact .inside hkind hchild hpresent h

/-- Free in a lambda is what is free in its body and no parameter. -/
theorem free_lambda_iff (hkind : f.kind? id = some (.lambda params body))
    (hpresent : body.isPresent = true) :
    f.Free name id ↔ name ∉ params ∧ f.Free name body := by
  constructor
  · intro h
    cases h with
    | here hname => cases hkind.symm.trans hname
    | inside hother hunbound hchild _ h =>
        obtain rfl := Option.some.inj (hkind.symm.trans hother)
        obtain rfl := List.mem_singleton.mp hchild
        exact ⟨hunbound, h⟩
  · rintro ⟨hparam, h⟩
    exact .inside hkind hparam (List.mem_singleton.mpr rfl) hpresent h

/-! ### The names of a copy -/

theorem hasName_push (node : Node) :
    (c.push node).2.HasName name ↔ c.HasName name ∨ node.kind = .name name := by
  simp only [HasName, push, Array.toList_push, List.mem_append, List.mem_singleton, or_and_right,
    exists_or, exists_eq_left]

/-- A copy that succeeds is made of parts that do. -/
theorem exists_of_run_bind {α β : Type} {x : StateT Forest (Except NodeId) α}
    {g : α → StateT Forest (Except NodeId) β} {p : β × Forest} (h : (x >>= g).run c = .ok p) :
    ∃ a c₁, x.run c = .ok (a, c₁) ∧ (g a).run c₁ = .ok p := by
  rw [StateT.run_bind] at h
  cases hx : x.run c with
  | error e =>
      rw [hx] at h
      cases h
  | ok q =>
      rw [hx] at h
      exact ⟨q.1, q.2, rfl, h⟩

theorem hasName_copyAll {fuel : Nat}
    (hcopy : ∀ {id c id' c'}, (f.copyInto fuel id).run c = .ok (id', c') →
      (c'.HasName name ↔ c.HasName name ∨ id.isPresent = true ∧ f.Mentions name id))
    (h : (ids.mapM (f.copyInto fuel)).run c = .ok (ids', c')) :
    c'.HasName name
      ↔ c.HasName name ∨ ∃ child ∈ ids, child.isPresent = true ∧ f.Mentions name child := by
  induction ids generalizing c ids' with
  | nil =>
      cases h
      simp only [List.not_mem_nil, false_and, exists_false, or_false]
  | cons id ids ih =>
      rw [List.mapM_cons] at h
      obtain ⟨first, c₁, hfirst, h⟩ := exists_of_run_bind h
      obtain ⟨others, c₂, hothers, h⟩ := exists_of_run_bind h
      cases h
      simp only [ih hothers, hcopy hfirst, or_assoc, List.mem_cons, or_and_right, exists_or,
        exists_eq_left]

/-- A copy brings in the names at the places below the node. The induction is on the fuel. -/
theorem hasName_copyInto {fuel : Nat} (h : (f.copyInto fuel id).run c = .ok (id', c')) :
    c'.HasName name ↔ c.HasName name ∨ id.isPresent = true ∧ f.Mentions name id := by
  induction fuel generalizing id c id' c' with
  | zero =>
      unfold copyInto at h
      split at h
      · cases h
      · rename_i habsent
        cases h
        rw [or_iff_left fun hid => habsent hid.1]
  | succ fuel ih =>
      unfold copyInto at h
      split at h
      · rename_i hpresent
        cases hnode : f.get? id with
        | none =>
            rw [hnode] at h
            cases h
        | some node =>
            have hkind : f.kind? id = some node.kind := by rw [kind?, hnode, Option.map_some]
            rw [hnode] at h
            obtain ⟨filled, c₁, hcopy, hpush⟩ := exists_of_run_bind h
            rw [NodeKind.mapM_eq_refill, map_eq_pure_bind] at hcopy
            obtain ⟨children, c₂, hchildren, hrefill⟩ := exists_of_run_bind hcopy
            cases hrefill
            obtain rfl : (c₁.push ⟨node.kind.refill children, node.span⟩).2 = c' :=
              congrArg Prod.snd (Except.ok.inj hpush)
            -- a kind is a name before its children are replaced exactly if it is one afterwards
            have hname : node.kind.refill children = .name name ↔ node.kind = .name name :=
              ⟨NodeKind.eq_name_of_refill, fun hkind => by rw [hkind]; rfl⟩
            rw [hasName_push, hname, hasName_copyAll ih hchildren, mentions_iff hkind, or_assoc,
              or_comm (b := node.kind = .name name), and_iff_right hpresent]
      · rename_i habsent
        cases h
        rw [or_iff_left fun hid => habsent hid.1]

/-- The names of an extracted body are those at its root and below. -/
theorem hasName_extract (h : f.extract body = .ok (id, c)) (hpresent : body.isPresent = true) :
    c.HasName name ↔ f.Mentions name body := by
  have hempty : ¬empty.HasName name := by
    rintro ⟨node, hnode, -⟩
    cases hnode
  rw [hasName_copyInto h, or_iff_right hempty, and_iff_right hpresent]

/-- The body of a lambda is there and can be extracted. -/
theorem exists_extract_body (hf : f.brokenLink? = none)
    (hkind : f.kind? id = some (.lambda params body)) :
    body.isPresent = true ∧ ∃ root copy, f.extract body = .ok (root, copy) := by
  obtain ⟨node, hnode, hlambda⟩ := Option.map_eq_some_iff.mp hkind
  have hlinked := wellLinked_of_links hf
  have hpresent : body.isPresent = true := hlinked.isPresent_required hnode hlambda List.mem_cons_self
  have hchild : body ∈ node.kind.children := by
    rw [hlambda]
    exact List.mem_singleton.mpr rfl
  have hlt : body.index.toNat < id.index.toNat := hlinked.child_lt hnode hchild hpresent
  have hsize : id.index.toNat < f.size := (Array.getElem?_eq_some_iff.mp hnode).1
  obtain ⟨⟨root, copy⟩, hcopy⟩ := extract_succeeds hlinked (decide_eq_true (hlt.trans hsize))
  exact ⟨hpresent, root, copy, hcopy⟩

end Forest

namespace Environment

variable {e : Environment} {name : String} {v : Value} {names : List String}

/-- The value is that of the innermost scope which binds the name. -/
def Shows (e : Environment) (name : String) (v : Value) : Prop :=
  ∃ inner s outer, e.scopes = inner ++ s :: outer ∧ (∀ t ∈ inner, t.lookup name = none)
    ∧ s.lookup name = some v

theorem lookup_eq_some_iff : e.lookup name = some v ↔ e.Shows name v := by
  simp only [lookup, List.findSome?_eq_some_iff, Shows, and_comm]

theorem nodup_eraseDups (names : List String) : names.eraseDups.Nodup := by
  induction hn : names.length using Nat.strongRecOn generalizing names with
  | ind n ih =>
      cases names with
      | nil => exact .nil
      | cons name names =>
          have hlength := List.length_filter_le (fun other => !other == name) names
          rw [List.length_cons] at hn
          rw [List.eraseDups_cons, List.nodup_cons, List.mem_eraseDups, List.mem_filter]
          exact ⟨fun h => by simp at h, ih _ (by omega) _ rfl⟩

/-- What is captured stands in the order of the names, each of them once. -/
theorem pairwise_capture : (e.capture names).Pairwise (·.name < ·.name) := by
  have hle : (names.eraseDups.mergeSort (· ≤ ·)).Pairwise fun x y => decide (x ≤ y) = true := by
    refine List.pairwise_mergeSort (fun x y z hxy hyz => ?_) (fun x y => ?_) names.eraseDups
    · exact decide_eq_true (String.le_trans (of_decide_eq_true hxy) (of_decide_eq_true hyz))
    · exact Bool.or_eq_true_iff.mpr ((String.le_total x y).imp decide_eq_true decide_eq_true)
  have hne : (names.eraseDups.mergeSort (· ≤ ·)).Pairwise (· ≠ ·) :=
    (List.mergeSort_perm _ _).nodup_iff.mpr (nodup_eraseDups names)
  refine (hle.and hne).filterMap _ fun x y hxy c hc d hd => ?_
  obtain ⟨u, -, rfl⟩ := Option.map_eq_some_iff.mp hc
  obtain ⟨v, -, rfl⟩ := Option.map_eq_some_iff.mp hd
  exact Std.lt_of_le_of_ne (of_decide_eq_true hxy.1) hxy.2

theorem mk_mem_capture : .mk name v ∈ e.capture names ↔ name ∈ names ∧ e.Shows name v := by
  rw [capture, List.mem_filterMap, ← lookup_eq_some_iff]
  constructor
  · rintro ⟨other, hother, hcaptured⟩
    obtain ⟨u, hu, hmk⟩ := Option.map_eq_some_iff.mp hcaptured
    cases hmk
    exact ⟨List.mem_eraseDups.mp (List.mem_mergeSort.mp hother), hu⟩
  · rintro ⟨hname, hv⟩
    exact ⟨name, List.mem_mergeSort.mpr (List.mem_eraseDups.mpr hname), by rw [hv, Option.map_some]⟩

end Environment

namespace Setting

/-- The captures of a lambda stand in the order of their names, each name once. They are the visible
names in the body but for the parameters of the lambda itself, each with the value of the innermost
scope that binds it. So every free name that is visible is among them, and they are the free ones
exactly if no visible name of the body is bound by inner lambdas wherever it stands. -/
theorem captures_of_lambda (s : Setting) (hlinks : s.forest.brokenLink? = none) {id body : NodeId}
    {params : List String} (hkind : s.forest.kind? id = some (.lambda params body)) (m : Machine)
    (fuel : Nat) :
    ∃ code captures, (evaluate (fuel + 1) s id).run.run m
        = (.ok (.function (.lambda code captures)), { m with nextSerial := m.nextSerial + 1 })
      ∧ code.params = params ∧ s.forest.extract body = .ok (code.root, code.forest)
      ∧ captures.Pairwise (·.name < ·.name)
      ∧ (∀ name v, .mk name v ∈ captures
        ↔ name ∉ params ∧ s.forest.Mentions name body ∧ m.environment.Shows name v)
      ∧ (∀ name v, s.forest.Free name id → m.environment.Shows name v → .mk name v ∈ captures)
      ∧ ((∀ name v, .mk name v ∈ captures ↔ s.forest.Free name id ∧ m.environment.Shows name v)
        ↔ ∀ name v, m.environment.Shows name v → name ∉ params → s.forest.Mentions name body →
          s.forest.Free name body) := by
  obtain ⟨hbody, root, copy, hcopy⟩ := Forest.exists_extract_body hlinks hkind
  have hcaptured : ∀ name v, .mk name v ∈ m.environment.capture (namesIn copy params)
      ↔ name ∉ params ∧ s.forest.Mentions name body ∧ m.environment.Shows name v := by
    intro name v
    rw [Environment.mk_mem_capture, mem_namesIn, ← Forest.hasName_extract hcopy hbody,
      and_comm (b := name ∉ params), and_assoc]
    rfl
  refine ⟨⟨params, root, copy, some m.nextSerial⟩, _, evaluate_lambda hkind hcopy, rfl,
    hcopy, Environment.pairwise_capture, hcaptured, fun name v hfree hv => ?_, ?_⟩
  · obtain ⟨hparam, hfree⟩ := (Forest.free_lambda_iff hkind hbody).mp hfree
    exact (hcaptured name v).mpr ⟨hparam, hfree.mentions, hv⟩
  · simp only [hcaptured, Forest.free_lambda_iff hkind hbody]
    constructor
    · intro h name v hv hparam hmentions
      exact ((h name v).mp ⟨hparam, hmentions, hv⟩).1.2
    · intro h name v
      constructor
      · rintro ⟨hparam, hmentions, hv⟩
        exact ⟨⟨hparam, h name v hv hparam hmentions⟩, hv⟩
      · rintro ⟨⟨hparam, hfree⟩, hv⟩
        exact ⟨hparam, hfree.mentions, hv⟩

/-- The body of `z => (x => x + y) * z`, where `y` has values in two scopes and `x` in one. Of both
names the innermost value is captured, although only `y` is free. -/
theorem captures_of_lambda_shadowed :
    let forest : Forest := ⟨#[⟨.name "z", ⟨0, 1⟩⟩, ⟨.name "x", ⟨6, 7⟩⟩, ⟨.name "x", ⟨11, 12⟩⟩,
      ⟨.name "y", ⟨15, 16⟩⟩, ⟨.binary .add ⟨2⟩ ⟨3⟩, ⟨11, 16⟩⟩, ⟨.lambda ["x"] ⟨4⟩, ⟨6, 16⟩⟩,
      ⟨.name "z", ⟨20, 21⟩⟩, ⟨.binary .mul ⟨5⟩ ⟨6⟩, ⟨6, 21⟩⟩, ⟨.lambda ["z"] ⟨7⟩, ⟨0, 21⟩⟩]⟩
    let s : Setting := ⟨forest, Library.standard, none, Depth.ofLimit 4⟩
    let m : Machine :=
      ⟨⟨[("y", .real Double.one)], [[("x", .real Double.two), ("y", .real Double.two)]]⟩, 0, 0, []⟩
    (forest.brokenLink? = none ∧ forest.kind? ⟨8⟩ = some (.lambda ["z"] ⟨7⟩))
      ∧ ∃ code captures, ((evaluate 1 s ⟨8⟩).run.run m).1 = .ok (.function (.lambda code captures))
        ∧ .mk "x" (.real Double.two) ∈ captures ∧ .mk "y" (.real Double.one) ∈ captures
        ∧ .mk "y" (.real Double.two) ∉ captures := by
  intro forest s m
  have hlinks : forest.brokenLink? = none := by decide
  have hkind : forest.kind? ⟨8⟩ = some (.lambda ["z"] ⟨7⟩) := by decide
  obtain ⟨code, captures, hrun, -, -, -, hcaptured, -⟩ := captures_of_lambda s hlinks hkind m 0
  have hproduct : forest.kind? ⟨7⟩ = some (.binary .mul ⟨5⟩ ⟨6⟩) := by decide
  have hinner : forest.kind? ⟨5⟩ = some (.lambda ["x"] ⟨4⟩) := by decide
  have hsum : forest.kind? ⟨4⟩ = some (.binary .add ⟨2⟩ ⟨3⟩) := by decide
  have hinside : ∀ name, forest.Mentions name ⟨4⟩ → forest.Mentions name ⟨7⟩ := fun name h =>
    .inside hproduct List.mem_cons_self (by decide)
      (.inside hinner List.mem_cons_self (by decide) h)
  have hx : forest.Mentions "x" ⟨4⟩ :=
    .inside hsum List.mem_cons_self (by decide) (.here (by decide))
  have hy : forest.Mentions "y" ⟨4⟩ :=
    .inside hsum (List.mem_cons_of_mem _ List.mem_cons_self) (by decide) (.here (by decide))
  refine ⟨⟨hlinks, hkind⟩, code, captures, congrArg Prod.fst hrun, ?_, ?_, fun hmem => ?_⟩
  · exact (hcaptured _ _).mpr
      ⟨by decide, hinside "x" hx, Environment.lookup_eq_some_iff.mp rfl⟩
  · exact (hcaptured _ _).mpr
      ⟨by decide, hinside "y" hy, Environment.lookup_eq_some_iff.mp rfl⟩
  · have hlookup := Environment.lookup_eq_some_iff.mpr ((hcaptured _ _).mp hmem).2.2
    have hvalues : Value.real Double.one = .real Double.two := Option.some.inj hlookup
    simp [Value.real, Complex.ofReal, Double.one, Double.two] at hvalues

/-- The value of `() => x => x` captures `x`, which the inner lambda binds. -/
theorem not_captures_of_free :
    let forest : Forest := ⟨#[⟨.tuple [], ⟨0, 2⟩⟩, ⟨.name "x", ⟨6, 7⟩⟩, ⟨.name "x", ⟨11, 12⟩⟩,
      ⟨.lambda ["x"] ⟨2⟩, ⟨6, 12⟩⟩, ⟨.lambda [] ⟨3⟩, ⟨0, 12⟩⟩]⟩
    let s : Setting := ⟨forest, Library.standard, none, Depth.ofLimit 4⟩
    let m : Machine := ⟨⟨[("x", .real Double.one)], []⟩, 0, 0, []⟩
    forest.brokenLink? = none ∧ forest.kind? ⟨4⟩ = some (.lambda [] ⟨3⟩)
      ∧ ∃ code captures, ((evaluate 1 s ⟨4⟩).run.run m).1 = .ok (.function (.lambda code captures))
        ∧ ¬∀ name v, .mk name v ∈ captures
          ↔ forest.Free name ⟨4⟩ ∧ m.environment.Shows name v := by
  intro forest s m
  have hlinks : forest.brokenLink? = none := by decide
  have hkind : forest.kind? ⟨4⟩ = some (.lambda [] ⟨3⟩) := by decide
  have hinner : forest.kind? ⟨3⟩ = some (.lambda ["x"] ⟨2⟩) := by decide
  obtain ⟨hbody, root, copy, hcopy⟩ := Forest.exists_extract_body hlinks hkind
  refine ⟨hlinks, hkind, ⟨[], root, copy, some 0⟩, _,
    congrArg Prod.fst (evaluate_lambda (s := s) (m := m) hkind hcopy), fun h => ?_⟩
  have hname : copy.HasName "x" := (Forest.hasName_extract hcopy hbody).mpr
    (.inside hinner (List.mem_singleton.mpr rfl) (by decide) (.here (by decide)))
  have hcaptured : .mk "x" (.real Double.one) ∈ m.environment.capture (namesIn copy []) :=
    Environment.mk_mem_capture.mpr
      ⟨mem_namesIn.mpr ⟨hname, List.not_mem_nil⟩, Environment.lookup_eq_some_iff.mp rfl⟩
  have hfree := ((Forest.free_lambda_iff hkind hbody).mp ((h _ _).mp hcaptured).1).2
  exact ((Forest.free_lambda_iff hinner (by decide)).mp hfree).1 (List.mem_singleton.mpr rfl)

end Setting

end MatrixScript
