import MatrixScript.Proofs.Alike.Evaluation
import MatrixScript.Proofs.Contracts.Steps

/-!
# Evaluation fulfils its contract

Each way of putting evaluations together fulfils a lawful contract as long as the evaluations of the
children do. A child is evaluated in the setting of its parent; the body of a function is evaluated
one call deeper, in the forest that the function keeps.
-/

namespace MatrixScript

open Evaluation

/-- Runs the statements of a text, with whatever evaluates them. -/
def Setting.runWith (s : Setting) (eval : Evaluator) (statements : List Statement) :
    Evaluation (List (Option Value)) :=
  statements.mapM fun t => do
    s.check
    let v ← eval s t.root
    return if t.muted then none else some v

namespace Contract.Lawful

variable {C : Contract} {s : Setting} {d : Depth} {eval eval' : Evaluator} {v target : Value}
  {args : List Value} {id left right callee body : NodeId} {ids : List NodeId}

/-! ### Calls -/

theorem arguments (hs : C.Settings s d) (heval : C.Evaluates eval eval')
    (hids : ∀ id ∈ ids, C.Runs s.forest id) :
    C.Fulfils s (fun args => ∀ v ∈ args, C.Good v) (s.arguments eval ids)
      ((s.withDepth d).arguments eval' ids) :=
  fulfils_mapM fun id hid => heval s d id hs (hids id hid)

variable (hC : C.Lawful)
include hC

theorem indexArguments (hs : C.Settings s d) (heval : C.Evaluates eval eval') (target : Value)
    (hids : ∀ id ∈ ids, C.Runs s.forest id) :
    C.Fulfils s (fun args => ∀ arg ∈ args, ∀ v, arg = .value v → C.Good v)
      (s.indexArguments eval target ids) ((s.withDepth d).indexArguments eval' target ids) := by
  refine fulfils_mapM fun arg harg => ?_
  have hid := hids arg.1 (List.fst_mem_of_mem_zipIdx harg)
  refine (hC.kind hid).bind fun k _ => ?_
  split
  · exact fulfils_pure nofun
  · refine ((heval s d arg.1 hs hid).withExtent _).bind fun v hv => fulfils_pure ?_
    rintro _ ⟨⟩
    exact hv

theorem callLambda (hs : C.Settings s d) (heval : C.Evaluates eval eval') {code : Lambda}
    {captures : List Capture} (hf : C.Good (.function (.lambda code captures)))
    (hargs : ∀ v ∈ args, C.Good v) :
    C.Fulfils s C.Good (s.callLambda eval code captures args)
      ((s.withDepth d).callLambda eval' code captures args) := by
  have hbindings : ∀ b ∈ captures.map (fun c => (c.name, c.value)) ++ code.params.zip args,
      C.Good b.2 := by
    refine List.forall_mem_append.mpr ⟨List.forall_mem_map.mpr fun c hc => ?_, fun b hb => ?_⟩
    · exact hC.captured code captures hf c hc
    · exact hargs b.2 (List.of_mem_zip hb).2
  unfold Setting.callLambda
  split
  · exact hC.fail _
  · cases henter : s.depth.enter? with
    | none =>
        rcases hC.limit s.depth d hs.depths henter with rfl | hcut
        · rw [henter]
          exact hC.fail _
        · exact fun m _ => .inl ⟨_, rfl, hcut⟩
    | some inner =>
        obtain ⟨inner', henter', hdepths⟩ := hC.enter s.depth d hs.depths inner henter
        rw [henter']
        let opened : Setting := { s with forest := code.forest, depth := inner }
        have hopened : C.Settings opened inner' := ⟨hs.library, hdepths⟩
        have hstarts : s.depth.enter? = some opened.depth := henter
        exact hC.inScope hstarts hbindings
          (heval opened inner' code.root hopened (hC.body code captures hf))

theorem callFunction (hs : C.Settings s d) (heval : C.Evaluates eval eval') {f : Callable}
    (hf : C.Good (.function f)) (hargs : ∀ v ∈ args, C.Good v) :
    C.Fulfils s C.Good (s.callFunction eval f args)
      ((s.withDepth d).callFunction eval' f args) := by
  cases f with
  | named name => exact hC.native hs name hargs
  | lambda code captures => exact hC.callLambda hs heval hf hargs

theorem apply (hs : C.Settings s d) (heval : C.Evaluates eval eval') (htarget : C.Good target)
    (hids : ∀ id ∈ ids, C.Runs s.forest id) :
    C.Fulfils s C.Good (s.apply eval target ids) ((s.withDepth d).apply eval' target ids) := by
  unfold Setting.apply
  split
  · exact (arguments hs heval hids).bind fun args hargs => hC.callFunction hs heval htarget hargs
  · exact hC.fail _
  · exact hC.fail _
  · exact (hC.indexArguments hs heval target hids).bind fun args hargs =>
      hC.ofResult (hC.closed.index target htarget args hargs)

theorem callNamed (hs : C.Settings s d) (heval : C.Evaluates eval eval') (name : String)
    (hids : ∀ id ∈ ids, C.Runs s.forest id) :
    C.Fulfils s C.Good (s.callNamed eval name ids)
      ((s.withDepth d).callNamed eval' name ids) := by
  refine (hC.visible? name).bind fun x hx => ?_
  split
  · exact hC.apply hs heval (hx _ rfl) hids
  · split
    · exact (arguments hs heval hids).bind fun args hargs => hC.native hs name hargs
    · refine (hC.orFail (fun v hv => ?_) _).bind fun v hv => hC.apply hs heval hv hids
      rw [hs.library] at hv
      exact hC.constant name v hv

theorem call_fulfils (hs : C.Settings s d) (heval : C.Evaluates eval eval')
    (hcallee : C.Runs s.forest callee) (hids : ∀ id ∈ ids, C.Runs s.forest id) :
    C.Fulfils s C.Good (s.call eval callee ids) ((s.withDepth d).call eval' callee ids) := by
  refine (hC.kind hcallee).bind fun k _ => ?_
  split
  · exact hC.callNamed hs heval _ hids
  · exact (heval s d callee hs hcallee).bind fun v hv => hC.apply hs heval hv hids

theorem close_fulfils {node : Node} (hid : C.Runs s.forest id)
    (hnode : s.forest.get? id = some node) {params : List String}
    (hk : node.kind = .lambda params body) (hbody : C.Runs s.forest body) :
    C.Fulfils s C.Good (s.close params body) ((s.withDepth d).close params body) := by
  change C.Fulfils s C.Good (s.close params body) (s.close params body)
  unfold Setting.close
  cases hcopy : s.forest.extract body with
  | error i =>
      exact fulfils_const (r := .error (.missingNode i)) (hC.uncopied s.forest body hbody i hcopy)
  | ok copy =>
      obtain ⟨root, forest⟩ := copy
      intro m hm
      exact .inr ⟨rfl, ⟨hm, rfl⟩, hC.close s.depth m.environment hm s.forest id node hid hnode params body
        hk root forest hcopy _ _⟩

/-! ### Assignments -/

theorem combined (op : Option BinaryOp) {old : Evaluation Value}
    (hold : C.Fulfils s C.Good old old) (hv : C.Good v) :
    C.Fulfils s C.Good (Setting.combined op old v) (Setting.combined op old v) := by
  cases op with
  | none => exact fulfils_pure hv
  | some op => exact hold.bind fun w hw => hC.ofResult (hC.closed.binary op w hw v hv)

theorem oldValue (name : String) :
    C.Fulfils s C.Good (Setting.oldValue name) (Setting.oldValue name) :=
  (hC.visible? name).bind fun _ hx => hC.orFail hx _

theorem assignName (hs : C.Settings s d) (heval : C.Evaluates eval eval') (name : String)
    (op : Option BinaryOp) {value : NodeId} (hvalue : C.Runs s.forest value) :
    C.Fulfils s C.Good (s.assignName eval name op value)
      ((s.withDepth d).assignName eval' name op value) := by
  refine (heval s d value hs hvalue).bind fun v hv => ?_
  refine (hC.combined op (hC.oldValue name) hv).bind fun w hw => ?_
  exact (hC.define_fulfils name hw).bind fun _ _ => fulfils_pure hw

theorem indexedVariable (name : String) (op : Option BinaryOp) :
    C.Fulfils s C.Good (Setting.indexedVariable name op) (Setting.indexedVariable name op) := by
  cases op with
  | some op => exact hC.oldValue name
  | none =>
      refine (hC.visible? name).bind fun x hx => fulfils_pure ?_
      cases x with
      | none => exact hC.closed.empty
      | some v => exact hx v rfl

theorem assignElements (hs : C.Settings s d) (heval : C.Evaluates eval eval') (name : String)
    (hids : ∀ id ∈ ids, C.Runs s.forest id) (op : Option BinaryOp) {value : NodeId}
    (hvalue : C.Runs s.forest value) :
    C.Fulfils s C.Good (s.assignElements eval name ids op value)
      ((s.withDepth d).assignElements eval' name ids op value) := by
  refine (heval s d value hs hvalue).bind fun v hv => ?_
  refine (hC.indexedVariable name op).bind fun target htarget => ?_
  refine (hC.indexArguments hs heval target hids).bind fun args hargs => ?_
  have hold := hC.ofResult (s := s) (hC.closed.index target htarget args hargs)
  refine (hC.combined op hold hv).bind fun w hw => ?_
  have hchange := hC.ofResult (s := s) (hC.closed.assignIndex target htarget args w)
  refine hchange.bind fun changed hchanged => ?_
  exact (hC.define_fulfils name hchanged).bind fun _ _ => fulfils_pure hw

theorem assignNames (hs : C.Settings s d) (heval : C.Evaluates eval eval')
    (hids : ∀ id ∈ ids, C.Runs s.forest id) {value : NodeId} (hvalue : C.Runs s.forest value) :
    C.Fulfils s C.Good (s.assignNames eval ids value)
      ((s.withDepth d).assignNames eval' ids value) := by
  have hnames : C.Fulfils s (fun _ => True) (s.namesAmong ids) ((s.withDepth d).namesAmong ids) :=
    (fulfils_mapM fun id hid => hC.kind (hids id hid)).bind fun _ _ => fulfils_pure trivial
  refine hnames.bind fun names _ => (heval s d value hs hvalue).bind fun v hv => ?_
  have hspread := hC.ofResult (s := s) (Setting.spreadOver_scalars names v)
  refine hspread.bind fun bindings hbindings => ?_
  have hgood : ∀ b ∈ bindings, C.Good b.2 := by
    intro b hb
    obtain ⟨z, hz⟩ := hbindings b hb
    exact hz ▸ hC.closed.scalar z
  exact (hC.defineAll hgood).bind fun _ _ => fulfils_pure hv

theorem assign (hs : C.Settings s d) (heval : C.Evaluates eval eval') {target value : NodeId}
    (htarget : C.Runs s.forest target) (op : Option BinaryOp) (hvalue : C.Runs s.forest value) :
    C.Fulfils s C.Good (s.assign eval target op value)
      ((s.withDepth d).assign eval' target op value) := by
  refine (hC.kind htarget).bind fun k hk => ?_
  split
  · exact hC.assignName hs heval _ op hvalue
  · rename_i callee ids
    obtain ⟨hcallee, hids⟩ := List.forall_mem_cons.mp hk
    refine (hC.kind (hcallee nofun)).bind fun k _ => ?_
    split
    · exact hC.assignElements hs heval _ (fun id hid => List.forall_mem_map.mp hids id hid nofun)
        op hvalue
    · exact hC.fail _
  · exact hC.assignNames hs heval (fun id hid => List.forall_mem_map.mp hk id hid nofun) hvalue
  · exact hC.fail _

/-! ### Expressions and statements -/

omit hC in
theorem isTrue (hs : C.Settings s d) (heval : C.Evaluates eval eval')
    (hid : C.Runs s.forest id) :
    C.Fulfils s (fun _ => True) (s.isTrue eval id) ((s.withDepth d).isTrue eval' id) :=
  (heval s d id hs hid).bind fun _ _ => fulfils_pure trivial

theorem binary (hs : C.Settings s d) (heval : C.Evaluates eval eval') (op : BinaryOp)
    (hleft : C.Runs s.forest left) (hright : C.Runs s.forest right) :
    C.Fulfils s C.Good (s.binary eval op left right)
      ((s.withDepth d).binary eval' op left right) := by
  have hbool (b : Bool) : C.Good (.ofBool b) := hC.closed.scalar _
  have htruth : C.Fulfils s C.Good (do return Value.ofBool (← s.isTrue eval right))
      (do return Value.ofBool (← (s.withDepth d).isTrue eval' right)) :=
    (isTrue hs heval hright).bind fun b _ => fulfils_pure (hbool b)
  refine (heval s d left hs hleft).bind fun v hv => ?_
  split
  · split
    · exact htruth
    · exact fulfils_pure (hbool false)
  · split
    · exact fulfils_pure (hbool true)
    · exact htruth
  · exact (heval s d right hs hright).bind fun w hw =>
      hC.ofResult (hC.closed.binary op v hv w hw)

theorem range (hs : C.Settings s d) (heval : C.Evaluates eval eval')
    (hleft : C.Runs s.forest left) (hright : C.Runs s.forest right) :
    C.Fulfils s C.Good (s.range eval left right) ((s.withDepth d).range eval' left right) := by
  refine (heval s d left hs hleft).bind fun start _ => (hC.kind hright).bind fun k _ => ?_
  split
  · exact hC.ofResult (hC.closed.range start none)
  · exact (heval s d right hs hright).bind fun stop _ =>
      hC.ofResult (hC.closed.range start (some stop))

theorem joinRow (hs : C.Settings s d) (heval : C.Evaluates eval eval')
    (hids : ∀ id ∈ ids, C.Runs s.forest id) :
    C.Fulfils s (fun m => C.Good (.matrix m)) (s.joinRow eval ids)
      ((s.withDepth d).joinRow eval' ids) := by
  refine fulfils_foldlM hC.closed.empty fun joined hjoined id hid => ?_
  refine (heval s d id hs (hids id hid)).bind fun v hv => ?_
  exact (hC.orFail (hC.closed.matrix? v hv) _).bind fun m hm =>
    hC.ofResult (hC.closed.beside joined hjoined m hm)

theorem matrixLiteral (hs : C.Settings s d) (heval : C.Evaluates eval eval')
    {rows : List (List NodeId)} (hrows : ∀ ids ∈ rows, ∀ id ∈ ids, C.Runs s.forest id) :
    C.Fulfils s C.Good (s.matrixLiteral eval rows) ((s.withDepth d).matrixLiteral eval' rows) := by
  refine Fulfils.bind (P := fun m => C.Good (.matrix m)) ?_ fun m hm =>
    fulfils_pure (hC.closed.ofMatrix m hm)
  refine fulfils_foldlM hC.closed.empty fun joined hjoined ids hids => ?_
  exact (hC.joinRow hs heval (hrows ids hids)).bind fun row hrow =>
    hC.ofResult (hC.closed.above joined hjoined row hrow)

theorem block (hs : C.Settings s d) (heval : C.Evaluates eval eval')
    {statements : List (NodeId × Bool)} (hall : ∀ t ∈ statements, C.Runs s.forest t.1) :
    C.Fulfils s C.Good (s.block eval statements) ((s.withDepth d).block eval' statements) :=
  fulfils_foldlM hC.closed.empty fun _ _ t ht =>
    hC.check.bind fun _ _ => heval s d t.1 hs (hall t ht)

theorem branch (hs : C.Settings s d) (heval : C.Evaluates eval eval') {cond yes no : NodeId}
    (hcond : C.Runs s.forest cond) (hyes : C.Runs s.forest yes)
    (hno : no.isPresent = true → C.Runs s.forest no) :
    C.Fulfils s C.Good (s.branch eval cond yes no)
      ((s.withDepth d).branch eval' cond yes no) := by
  refine (isTrue hs heval hcond).bind fun holds _ => ?_
  split
  · exact heval s d yes hs hyes
  · split
    · rename_i hpresent
      exact heval s d no hs (hno hpresent)
    · exact fulfils_pure hC.closed.empty

/-- By induction on the rounds that are left. -/
theorem loop {cond cond' : Evaluation Bool} {round round' : Evaluation Value}
    (hcond : C.Fulfils s (fun _ => True) cond cond') (hround : C.Fulfils s C.Good round round')
    (fuel : Nat) {last : Value} (hlast : C.Good last) :
    C.Fulfils s C.Good (s.loop cond round fuel last)
      ((s.withDepth d).loop cond' round' fuel last) := by
  induction fuel generalizing last with
  | zero => exact fulfils_outOfFuel
  | succ fuel ih =>
      refine hC.check.bind fun _ _ => hcond.bind fun holds _ => ?_
      split
      · exact hround.bind fun v hv => ih hv
      · exact fulfils_pure hlast

omit hC in
theorem effect (hs : C.Settings s d) (heval : C.Evaluates eval eval')
    (hid : id.isPresent = true → C.Runs s.forest id) :
    C.Fulfils s (fun _ => True) (s.effect eval id) ((s.withDepth d).effect eval' id) := by
  unfold Setting.effect
  split
  · rename_i hpresent
    exact (heval s d id hs (hid hpresent)).bind fun _ _ => fulfils_pure trivial
  · exact fulfils_pure trivial

theorem forLoop (hs : C.Settings s d) (heval : C.Evaluates eval eval') (fuel : Nat)
    {init cond step body : NodeId} (hinit : init.isPresent = true → C.Runs s.forest init)
    (hcond : cond.isPresent = true → C.Runs s.forest cond)
    (hstep : step.isPresent = true → C.Runs s.forest step) (hbody : C.Runs s.forest body) :
    C.Fulfils s C.Good (s.forLoop eval fuel init cond step body)
      ((s.withDepth d).forLoop eval' fuel init cond step body) := by
  refine (effect hs heval hinit).bind fun _ _ => hC.loop ?_ ?_ fuel hC.closed.empty
  · split
    · rename_i hpresent
      exact isTrue hs heval (hcond hpresent)
    · exact fulfils_pure trivial
  · exact (heval s d body hs hbody).bind fun v hv =>
      (effect hs heval hstep).bind fun _ _ => fulfils_pure hv

theorem value (hs : C.Settings s d) (heval : C.Evaluates eval eval') (fuel : Nat)
    (hid : C.Runs s.forest id) {node : Node} (hnode : s.forest.get? id = some node) :
    C.Fulfils s C.Good (s.value eval fuel node.kind)
      ((s.withDepth d).value eval' fuel node.kind) := by
  have hk := hC.below s.forest id hid node hnode
  generalize hkind : node.kind = k at hk
  have hslot {id : NodeId} (hid : (id, false) ∈ k.slots) : C.Runs s.forest id := hk _ hid nofun
  have hoptional {id : NodeId} (hid : (id, true) ∈ k.slots) (hpresent : id.isPresent = true) :
      C.Runs s.forest id :=
    hk _ hid fun _ => hpresent
  cases k with
  | real x => exact fulfils_pure (hC.closed.scalar _)
  | imaginary x => exact fulfils_pure (hC.closed.scalar _)
  | text t => exact fulfils_pure (hC.closed.text t)
  | name name => exact hC.lookup_fulfils hs name
  | last => exact hC.lastIndex
  | everything => exact hC.fail _
  | unary op a =>
      exact (heval s d a hs (hslot (by simp [NodeKind.slots]))).bind fun v hv =>
        hC.ofResult (hC.closed.unary op v hv)
  | binary op a b =>
      exact hC.binary hs heval op (hslot (by simp [NodeKind.slots]))
        (hslot (by simp [NodeKind.slots]))
  | range a b =>
      exact hC.range hs heval (hslot (by simp [NodeKind.slots])) (hslot (by simp [NodeKind.slots]))
  | assign target op v =>
      exact hC.assign hs heval (hslot (by simp [NodeKind.slots])) op
        (hslot (by simp [NodeKind.slots]))
  | call callee args =>
      exact hC.call_fulfils hs heval (hslot List.mem_cons_self) fun id hid =>
        hslot (List.mem_cons_of_mem _ (List.mem_map_of_mem hid))
  | matrix rows =>
      refine hC.matrixLiteral hs heval fun ids hids id hid => hslot (List.mem_map_of_mem ?_)
      exact List.mem_flatten_of_mem hids hid
  | tuple items => exact hC.fail _
  | lambda params body =>
      exact hC.close_fulfils hid hnode hkind (hslot (by simp [NodeKind.slots]))
  | block statements =>
      exact hC.block hs heval fun t ht =>
        hslot (List.mem_map_of_mem (f := fun t : NodeId × Bool => (t.1, false)) ht)
  | branch cond yes no =>
      exact hC.branch hs heval (hslot (by simp [NodeKind.slots])) (hslot (by simp [NodeKind.slots]))
        (hoptional (by simp [NodeKind.slots]))
  | whileLoop cond body =>
      exact hC.loop (isTrue hs heval (hslot (by simp [NodeKind.slots])))
        (heval s d body hs (hslot (by simp [NodeKind.slots]))) fuel hC.closed.empty
  | forLoop init cond step body =>
      exact hC.forLoop hs heval fuel (hoptional (by simp [NodeKind.slots]))
        (hoptional (by simp [NodeKind.slots])) (hoptional (by simp [NodeKind.slots]))
        (hslot (by simp [NodeKind.slots]))

/-- One level of nodes, with whatever evaluates the children. -/
theorem level (hs : C.Settings s d) (heval : C.Evaluates eval eval') (fuel : Nat)
    (hid : C.Runs s.forest id) :
    C.Fulfils s C.Good
      (do
        let node ← s.node id
        (s.value eval fuel node.kind).locatedAt node.span)
      (do
        let node ← (s.withDepth d).node id
        ((s.withDepth d).value eval' fuel node.kind).locatedAt node.span) :=
  (hC.node hid).bind fun _ hnode => hC.located (hC.value hs heval fuel hid hnode) hnode

theorem evaluates (fuel : Nat) : C.Evaluates (Setting.evaluate fuel) (Setting.evaluate fuel) := by
  induction fuel with
  | zero => exact fun _ _ _ _ _ => fulfils_outOfFuel
  | succ fuel ih => exact fun s d id hs hid => hC.level hs ih fuel hid

/-- The statements of a text, with whatever evaluates them. -/
theorem runWith (hs : C.Settings s d) (heval : C.Evaluates eval eval')
    {statements : List Statement} (hall : ∀ t ∈ statements, C.Runs s.forest t.root) :
    C.Fulfils s (fun outputs => ∀ x ∈ outputs, ∀ v, x = some v → C.Good v)
      (s.runWith eval statements) ((s.withDepth d).runWith eval' statements) := by
  refine fulfils_mapM fun t ht => hC.check.bind fun _ _ => ?_
  refine (heval s d t.root hs (hall t ht)).bind fun v hv => fulfils_pure fun w hw => ?_
  split at hw
  · cases hw
  · obtain rfl := Option.some.inj hw
    exact hv

end Contract.Lawful

/-! ### What every contract says -/

/-- Everything is allowed. -/
def unrestricted (library : Library) : Contract := { library := library }

theorem unrestricted_lawful {library : Library} : (unrestricted library).Lawful where
  toValueLaws := Contract.valueLaws_of_forall fun _ => trivial
  toNodeLaws := Contract.nodeLaws_of_forall (fun _ _ => trivial) trivial
  toDepthLaws := Contract.depthLaws_of_eq fun _ _ => .rfl
  toInvariantLaws := Contract.invariantLaws_of_forall (fun _ _ => trivial) fun _ => trivial
  toFailureLaws := Contract.failureLaws_of_forall fun _ _ => trivial

namespace Setting

variable (s : Setting) (fuel : Nat) (m : Machine)

/-- What `end` stands for is taken back on every way out of an index argument. -/
theorem extents_evaluate (id : NodeId) :
    ((evaluate fuel s id).run.run m).2.extents = m.extents :=
  ((unrestricted_lawful.evaluates fuel s s.depth id ⟨rfl, rfl⟩ trivial).uncut
    (fun _ hcut => hcut) trivial).2.1.extents

theorem extents_indexArguments (target : Value) (ids : List NodeId) :
    ((s.indexArguments (evaluate fuel) target ids).run.run m).2.extents = m.extents :=
  ((unrestricted_lawful.indexArguments (d := s.depth) ⟨rfl, rfl⟩
    (unrestricted_lawful.evaluates fuel) target fun _ _ => trivial).uncut
    (fun _ hcut => hcut) trivial).2.1.extents

/-- A body knows nothing of the index arguments around the call, and it leaves them alone. -/
theorem extents_callLambda (code : Lambda) (captures : List Capture) (args : List Value) :
    ((s.callLambda (evaluate fuel) code captures args).run.run m).2.extents = m.extents :=
  ((unrestricted_lawful.callLambda (d := s.depth) ⟨rfl, rfl⟩ (unrestricted_lawful.evaluates fuel)
    trivial fun _ _ => trivial).uncut (fun _ hcut => hcut) trivial).2.1.extents

theorem extents_run (statements : List Statement) :
    ((s.run fuel statements).run.run m).2.extents = m.extents :=
  ((unrestricted_lawful.runWith (d := s.depth) ⟨rfl, rfl⟩ (unrestricted_lawful.evaluates fuel)
    fun _ _ => trivial).uncut (fun _ hcut => hcut) trivial).2.1.extents

end Setting

end MatrixScript
