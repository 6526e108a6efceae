import MatrixScript.Proofs.Alike.Steps

/-!
# Evaluation side by side

Nodes that stand for one another evaluate alike on machines that are alike. Each way of putting
evaluations together keeps this as long as the evaluations of the children do. In a call the bodies
of two functions that are alike take the place of the programs, in a world of their own.
-/

namespace MatrixScript

open Evaluation

/-- Only numbers are spread over names. -/
theorem Setting.spreadOver_scalars (names : List String) (v : Value) :
    Yields (spreadOver names v) fun bindings => ∀ b ∈ bindings, ∃ z, b.2 = .scalar z := by
  unfold spreadOver
  split
  · exact yields_error _
  · split
    · exact yields_ok (List.forall_mem_map.mpr fun _ _ => ⟨_, rfl⟩)
    · split
      · refine yields_ok fun b hb => ?_
        obtain ⟨z, -, hz⟩ := List.mem_map.mp (List.of_mem_zip hb).2
        exact ⟨z, hz.symm⟩
      · exact yields_error _

namespace Likeness.Settings

variable {L : Likeness} {w : L.World} {g : NodeId → NodeId} {D : NodeId → Prop}
  {R : Span → Span → Prop} {s s' : Setting} {eval eval' : Evaluator} {v v' target target' : Value}
  {args args' : List Value}

/-! ### Calls -/

theorem arguments (hs : L.Settings w g D R s s') (heval : L.Evaluates eval eval')
    {ids : List NodeId} (hids : ∀ id ∈ ids, D id) :
    L.Agrees w R (List.Forall₂ (Value.Alike L.callables)) (s.arguments eval ids)
      (s'.arguments eval' (ids.map g)) := by
  refine paired_mapM (R := fun id id' => D id ∧ id' = g id) ?_ fun id id' hid => ?_
  · exact List.forall₂_map_right_iff.mpr (List.forall₂_same.mpr fun id hid => ⟨hids id hid, rfl⟩)
  · rw [hid.2]
    exact heval w g D R s s' id hs hid.1

theorem indexArgument (hs : L.Settings w g D R s s') (heval : L.Evaluates eval eval')
    (htarget : target.Alike L.callables target') (count position : Nat) {id : NodeId}
    (hid : D id) :
    L.Agrees w R (IndexArg.Alike L.callables) (s.indexArgument eval target count (id, position))
      (s'.indexArgument eval' target' count (g id, position)) := by
  refine (hs.kind hid).bind fun k k' ⟨hk, _⟩ => ?_
  have hvalue : L.Agrees w R (IndexArg.Alike L.callables)
      (do return .value (← withExtent (target.indexExtent? position count) (eval s id)))
      (do return .value (← withExtent (target'.indexExtent? position count) (eval' s' (g id)))) :=
    (agrees_withExtent (heval w g D R s s' id hs hid) (htarget.indexExtent?_eq position count)).bind
      fun v v' hv => paired_pure (.value hv)
  rw [hk]
  cases k with
  | everything => exact paired_pure .all
  | _ => exact hvalue

theorem indexArguments (hs : L.Settings w g D R s s') (heval : L.Evaluates eval eval')
    (htarget : target.Alike L.callables target') {ids : List NodeId} (hids : ∀ id ∈ ids, D id) :
    L.Agrees w R (List.Forall₂ (IndexArg.Alike L.callables)) (s.indexArguments eval target ids)
      (s'.indexArguments eval' target' (ids.map g)) := by
  unfold Setting.indexArguments
  rw [List.zipIdx_map, List.length_map]
  refine paired_mapM (R := fun arg arg' => D arg.1 ∧ arg' = (g arg.1, arg.2)) ?_
    fun arg arg' harg => ?_
  · refine List.forall₂_map_right_iff.mpr (List.forall₂_same.mpr fun arg harg => ⟨?_, rfl⟩)
    exact hids arg.1 (List.fst_mem_of_mem_zipIdx harg)
  · rw [harg.2]
    exact hs.indexArgument heval htarget ids.length arg.2 harg.1

/-- Functions that are alike, called with arguments that are. The bodies are in forests of their
own, so nothing of the caller's nodes matters. -/
theorem callLambda (hL : L.Lawful) (hs : L.Settings w g D R s s') (heval : L.Evaluates eval eval')
    {code code' : Lambda} {captures captures' : List Capture}
    (hf : L.callables (.lambda code captures) (.lambda code' captures'))
    (hparams : code'.params = code.params)
    (hargs : List.Forall₂ (Value.Alike L.callables) args args') :
    L.Agrees w R (Value.Alike L.callables) (s.callLambda eval code captures args)
      (s'.callLambda eval' code' captures' args') := by
  have hdepth : s'.depth = s.depth := by rw [hs.same]
  unfold Setting.callLambda
  rw [hparams, hdepth, ← hargs.length_eq]
  split
  · exact agrees_fail _
  · rename_i hcount
    split
    · exact agrees_fail _
    · rename_i depth _
      refine agrees_inScope fun e e' he => ?_
      obtain ⟨inside, h, E, hopen, hclose, hforest, hroot, hroot'⟩ :=
        hL.enter w e e' he code captures code' captures' hf args args' hargs
          (Decidable.not_not.mp hcount)
      rw [hparams] at hopen
      refine ⟨inside, L.spans, hopen, hclose, ?_⟩
      rw [hroot']
      refine heval inside h E L.spans _ _ code.root
        ⟨hforest, fun _ _ ht => ht, hs.library, hs.deadline, ?_⟩ hroot
      rw [hs.same]

theorem callFunction (hL : L.Lawful) (hs : L.Settings w g D R s s')
    (heval : L.Evaluates eval eval') {f f' : Callable} (hf : L.callables f f')
    (hargs : List.Forall₂ (Value.Alike L.callables) args args') :
    L.Agrees w R (Value.Alike L.callables) (s.callFunction eval f args)
      (s'.callFunction eval' f' args') := by
  rcases hL.kinds f f' hf with
    ⟨name, rfl, rfl⟩ | ⟨code, captures, code', captures', rfl, rfl, hparams⟩
  · unfold Setting.callFunction
    rw [hs.library, hs.library']
    exact agrees_native (hL.call w name args args' hargs)
  · exact hs.callLambda hL heval hf hparams hargs

theorem apply (hL : L.Lawful) (hs : L.Settings w g D R s s') (heval : L.Evaluates eval eval')
    (htarget : target.Alike L.callables target') {ids : List NodeId} (hids : ∀ id ∈ ids, D id) :
    L.Agrees w R (Value.Alike L.callables) (s.apply eval target ids)
      (s'.apply eval' target' (ids.map g)) := by
  have hindex : L.Agrees w R (Value.Alike L.callables)
      (do Evaluation.ofResult (target.index (← s.indexArguments eval target ids)))
      (do Evaluation.ofResult (target'.index (← s'.indexArguments eval' target' (ids.map g)))) := by
    refine (hs.indexArguments heval htarget hids).bind fun args args' hargs => ?_
    exact agrees_ofResult (htarget.index_eq hargs)
      ((Value.index_isPlain target args).imp fun _ h => .of_isPlain h)
  cases htarget with
  | function hf =>
      exact (hs.arguments heval hids).bind fun args args' hargs => hs.callFunction hL heval hf hargs
  | set t => exact agrees_fail _
  | plot title h => exact agrees_fail _
  | _ => exact hindex

theorem callNamed (hL : L.Lawful) (hs : L.Settings w g D R s s') (heval : L.Evaluates eval eval')
    {name : String} (hname : L.Knows w name) {ids : List NodeId} (hids : ∀ id ∈ ids, D id) :
    L.Agrees w R (Value.Alike L.callables) (s.callNamed eval name ids)
      (s'.callNamed eval' name (ids.map g)) := by
  unfold Setting.callNamed
  rw [hs.library, hs.library']
  refine (hL.visible? hname).bind fun x x' hx => ?_
  cases hx with
  | some htarget => exact hs.apply hL heval htarget hids
  | none =>
      dsimp only
      split
      · exact (hs.arguments heval hids).bind fun args args' hargs =>
          agrees_native (hL.call w name args args' hargs)
      · refine Paired.bind (P := Value.Alike L.callables) ?_ fun v v' hv =>
          hs.apply hL heval hv hids
        cases hconstant : L.library.constant? name with
        | none => exact agrees_fail _
        | some v => exact paired_pure (hL.constants name v hconstant)

theorem call (hL : L.Lawful) (hs : L.Settings w g D R s s') (heval : L.Evaluates eval eval')
    {callee : NodeId} (hcallee : D callee) {ids : List NodeId} (hids : ∀ id ∈ ids, D id) :
    L.Agrees w R (Value.Alike L.callables) (s.call eval callee ids)
      (s'.call eval' (g callee) (ids.map g)) := by
  refine (hs.kind hcallee).bind fun k k' ⟨hk, _, hnames⟩ => ?_
  have hvalue : L.Agrees w R (Value.Alike L.callables)
      (do s.apply eval (← eval s callee) ids)
      (do s'.apply eval' (← eval' s' (g callee)) (ids.map g)) :=
    (heval w g D R s s' callee hs hcallee).bind fun v v' hv => hs.apply hL heval hv hids
  rw [hk]
  cases k with
  | name name => exact hs.callNamed hL heval (hnames name rfl) hids
  | _ => exact hvalue

theorem close (hL : L.Lawful) (hs : L.Settings w g D R s s') (params : List String)
    {body : NodeId} (hbody : D body) (hpresent : (g body).isPresent = body.isPresent) :
    L.Agrees w R (Value.Alike L.callables) (s.close params body) (s'.close params (g body)) := by
  have hextract := hs.forest.extract hbody hpresent
  unfold Setting.close
  generalize s'.forest.extract (g body) = copy at hextract
  cases hcopy : s.forest.extract body with
  | error id =>
      rw [hcopy] at hextract
      cases hextract with
      | error h =>
          rw [← h]
          exact paired_throw (.missingNode id)
  | ok p =>
      rw [hcopy] at hextract
      cases hextract with
      | ok h =>
          rename_i p'
          obtain ⟨root, forest⟩ := p
          obtain ⟨root', forest'⟩ := p'
          obtain ⟨rfl, hforest⟩ := h
          refine paired_get.bind fun m m' hm => ?_
          refine (agrees_freshSerial hL).bind fun n n' hn => paired_pure ?_
          exact .function (hL.close w _ _ hm.environments params root' forest forest' n n' hn
            (hforest.imp hs.spans))

/-! ### Assignments -/

theorem agrees_combined (hL : L.Lawful) (op : Option BinaryOp) {old old' : Evaluation Value}
    (hold : L.Agrees w R (Value.Alike L.callables) old old') (hv : v.Alike L.callables v') :
    L.Agrees w R (Value.Alike L.callables) (Setting.combined op old v)
      (Setting.combined op old' v') := by
  cases op with
  | none => exact paired_pure hv
  | some op =>
      refine hold.bind fun u u' hu => agrees_ofResult (hu.binary_eq hL.shown op hv) ?_
      exact (Value.binary_isPlain op u v).imp fun _ h => .of_isPlain h

theorem agrees_oldValue (hL : L.Lawful) {name : String} (hname : L.Knows w name) :
    L.Agrees w R (Value.Alike L.callables) (Setting.oldValue name) (Setting.oldValue name) :=
  (hL.visible? hname).bind fun _ _ hx => agrees_orFail hx _

theorem assignName (hL : L.Lawful) (hs : L.Settings w g D R s s') (heval : L.Evaluates eval eval')
    {name : String} (hname : L.Knows w name) (op : Option BinaryOp) {value : NodeId}
    (hvalue : D value) :
    L.Agrees w R (Value.Alike L.callables) (s.assignName eval name op value)
      (s'.assignName eval' name op (g value)) := by
  refine (heval w g D R s s' value hs hvalue).bind fun v v' hv => ?_
  refine (agrees_combined hL op (agrees_oldValue hL hname) hv).bind fun u u' hu => ?_
  exact (hL.define_agrees name hu).bind fun _ _ _ => paired_pure hu

theorem agrees_indexedVariable (hL : L.Lawful) {name : String} (hname : L.Knows w name)
    (op : Option BinaryOp) :
    L.Agrees w R (Value.Alike L.callables) (Setting.indexedVariable name op)
      (Setting.indexedVariable name op) := by
  cases op with
  | some op => exact agrees_oldValue hL hname
  | none =>
      refine (hL.visible? hname).bind fun x x' hx => paired_pure ?_
      cases hx with
      | none => exact .matrix _
      | some hv => exact hv

theorem assignElements (hL : L.Lawful) (hs : L.Settings w g D R s s')
    (heval : L.Evaluates eval eval') {name : String} (hname : L.Knows w name) {ids : List NodeId}
    (hids : ∀ id ∈ ids, D id) (op : Option BinaryOp) {value : NodeId} (hvalue : D value) :
    L.Agrees w R (Value.Alike L.callables) (s.assignElements eval name ids op value)
      (s'.assignElements eval' name (ids.map g) op (g value)) := by
  refine (heval w g D R s s' value hs hvalue).bind fun v v' hv => ?_
  refine (agrees_indexedVariable hL hname op).bind fun target target' htarget => ?_
  refine (hs.indexArguments heval htarget hids).bind fun args args' hargs => ?_
  have hold : L.Agrees w R (Value.Alike L.callables) (Evaluation.ofResult (target.index args))
      (Evaluation.ofResult (target'.index args')) :=
    agrees_ofResult (htarget.index_eq hargs)
      ((Value.index_isPlain target args).imp fun _ h => .of_isPlain h)
  refine (agrees_combined hL op hold hv).bind fun u u' hu => ?_
  refine (agrees_ofResult (P := Value.Alike L.callables) (htarget.assignIndex_eq hargs hu)
    ((Value.assignIndex_isPlain target args u).imp fun _ h => .of_isPlain h)).bind
    fun changed changed' hchanged => ?_
  exact (hL.define_agrees name hchanged).bind fun _ _ _ => paired_pure hu

theorem namesAmong (hs : L.Settings w g D R s s') {ids : List NodeId} (hids : ∀ id ∈ ids, D id) :
    L.Agrees w R Eq (s.namesAmong ids) (s'.namesAmong (ids.map g)) := by
  refine Paired.bind (P := List.Forall₂ fun k k' => k' = k.map g) ?_ fun ks ks' hks => ?_
  · refine paired_mapM (R := fun id id' => D id ∧ id' = g id) ?_ fun id id' hid => ?_
    · exact List.forall₂_map_right_iff.mpr (List.forall₂_same.mpr fun id hid => ⟨hids id hid, rfl⟩)
    · rw [hid.2]
      exact (hs.kind hid.1).imp fun _ _ h => h.1
  · refine paired_pure ?_
    induction hks with
    | nil => rfl
    | cons hk _ ih =>
        rename_i k k' _ _ _
        rw [List.filterMap_cons, List.filterMap_cons, hk, ih]
        cases k <;> rfl

theorem assignNames (hL : L.Lawful) (hs : L.Settings w g D R s s') (heval : L.Evaluates eval eval')
    {ids : List NodeId} (hids : ∀ id ∈ ids, D id) {value : NodeId} (hvalue : D value) :
    L.Agrees w R (Value.Alike L.callables) (s.assignNames eval ids value)
      (s'.assignNames eval' (ids.map g) (g value)) := by
  refine (hs.namesAmong hids).bind fun names names' hnames => ?_
  rw [← hnames]
  refine (heval w g D R s s' value hs hvalue).bind fun v v' hv => ?_
  have hspread : Setting.spreadOver names v' = Setting.spreadOver names v := by
    unfold Setting.spreadOver
    rw [hv.matrix?_eq, hv.kind_eq]
  have hscalars := Setting.spreadOver_scalars names v
  refine (agrees_ofResult (P := fun bs bs' => bs' = bs ∧ ∀ b ∈ bs, ∃ z, b.2 = .scalar z) hspread
    (hscalars.imp fun _ h => ⟨rfl, h⟩)).bind fun bs bs' ⟨hsame, hscalars⟩ => ?_
  rw [hsame]
  have hplain : ∀ b ∈ bs, b.2.IsPlain := by
    intro b hb
    obtain ⟨z, hz⟩ := hscalars b hb
    exact hz ▸ ⟨nofun, nofun⟩
  refine Paired.bind (P := fun _ _ => True) (paired_modify fun m m' hm => ?_) fun _ _ _ =>
    paired_pure hv
  exact ⟨hL.defineAll hm.environments hplain, hm.checks, hm.nextSerial, hm.extents⟩

theorem assign (hL : L.Lawful) (hs : L.Settings w g D R s s') (heval : L.Evaluates eval eval')
    {target : NodeId} (htarget : D target) (op : Option BinaryOp) {value : NodeId}
    (hvalue : D value) :
    L.Agrees w R (Value.Alike L.callables) (s.assign eval target op value)
      (s'.assign eval' (g target) op (g value)) := by
  refine (hs.kind htarget).bind fun k k' ⟨hk, hguided, hnames⟩ => ?_
  rw [hk]
  cases k with
  | name name => exact hs.assignName hL heval (hnames name rfl) op hvalue
  | call callee ids =>
      have hcallee : D callee := hguided.required List.mem_cons_self
      have hids : ∀ id ∈ ids, D id := fun id hid =>
        hguided.required (List.mem_cons_of_mem _ (List.mem_map_of_mem hid))
      rw [NodeKind.map_call]
      refine (hs.kind hcallee).bind fun k k' ⟨hk, _, hnames⟩ => ?_
      rw [hk]
      cases k with
      | name name => exact hs.assignElements hL heval (hnames name rfl) hids op hvalue
      | _ => exact agrees_fail _
  | matrix rows =>
      rw [NodeKind.map_matrix]
      dsimp only
      rw [← List.map_flatten]
      exact hs.assignNames hL heval (fun id hid => hguided.required (List.mem_map_of_mem hid)) hvalue
  | _ => exact agrees_fail _

/-! ### Expressions and statements -/

theorem isTrue (hs : L.Settings w g D R s s') (heval : L.Evaluates eval eval') {id : NodeId}
    (hid : D id) : L.Agrees w R Eq (s.isTrue eval id) (s'.isTrue eval' (g id)) :=
  (heval w g D R s s' id hs hid).bind fun _ _ hv => paired_pure hv.isTrue_eq.symm

theorem binary (hL : L.Lawful) (hs : L.Settings w g D R s s') (heval : L.Evaluates eval eval')
    (op : BinaryOp) {left right : NodeId} (hleft : D left) (hright : D right) :
    L.Agrees w R (Value.Alike L.callables) (s.binary eval op left right)
      (s'.binary eval' op (g left) (g right)) := by
  have htruth : L.Agrees w R (Value.Alike L.callables)
      (do return Value.ofBool (← s.isTrue eval right))
      (do return Value.ofBool (← s'.isTrue eval' (g right))) :=
    (hs.isTrue heval hright).bind fun _ _ hb => hb ▸ paired_pure (.scalar _)
  refine (heval w g D R s s' left hs hleft).bind fun v v' hv => ?_
  rw [hv.isTrue_eq]
  split
  · split
    · exact htruth
    · exact paired_pure (.scalar _)
  · split
    · exact paired_pure (.scalar _)
    · exact htruth
  · refine (heval w g D R s s' right hs hright).bind fun u u' hu => ?_
    exact agrees_ofResult (hv.binary_eq hL.shown op hu)
      ((Value.binary_isPlain op v u).imp fun _ h => .of_isPlain h)

theorem range (hs : L.Settings w g D R s s') (heval : L.Evaluates eval eval')
    {left right : NodeId} (hleft : D left) (hright : D right) :
    L.Agrees w R (Value.Alike L.callables) (s.range eval left right)
      (s'.range eval' (g left) (g right)) := by
  have hmake {start start' : Value} (hstart : start.Alike L.callables start')
      {stop stop' : Option Value} (hstop : Option.Rel (Value.Alike L.callables) stop stop') :
      L.Agrees w R (Value.Alike L.callables) (Evaluation.ofResult (Value.makeRange start stop))
        (Evaluation.ofResult (Value.makeRange start' stop')) :=
    agrees_ofResult (hstart.makeRange_eq hstop)
      ((Value.makeRange_isPlain start stop).imp fun _ h => .of_isPlain h)
  refine (heval w g D R s s' left hs hleft).bind fun start start' hstart => ?_
  refine (hs.kind hright).bind fun k k' ⟨hk, _⟩ => ?_
  have hbounded : L.Agrees w R (Value.Alike L.callables)
      (do Evaluation.ofResult (Value.makeRange start (some (← eval s right))))
      (do Evaluation.ofResult (Value.makeRange start' (some (← eval' s' (g right))))) :=
    (heval w g D R s s' right hs hright).bind fun _ _ hstop => hmake hstart (.some hstop)
  rw [hk]
  cases k with
  | last => exact hmake hstart .none
  | _ => exact hbounded

theorem joinRow (hs : L.Settings w g D R s s') (heval : L.Evaluates eval eval')
    {ids : List NodeId} (hids : ∀ id ∈ ids, D id) :
    L.Agrees w R Eq (s.joinRow eval ids) (s'.joinRow eval' (ids.map g)) := by
  unfold Setting.joinRow
  rw [List.foldlM_map]
  refine paired_foldlM (R := fun id id' => D id ∧ id' = id)
    (List.forall₂_same.mpr fun id hid => ⟨hids id hid, rfl⟩) ?_ rfl
  rintro joined _ rfl id id' ⟨hid, hsame⟩
  rw [hsame]
  refine (heval w g D R s s' id hs hid).bind fun v v' hv => ?_
  rw [hv.matrix?_eq, hv.kind_eq]
  have hmatrix : L.Agrees w R Eq (Evaluation.orFail v.matrix? (.unsupported "[]" v.kind none))
      (Evaluation.orFail v.matrix? (.unsupported "[]" v.kind none)) :=
    agrees_ofResult rfl fun _ _ => rfl
  refine hmatrix.bind fun m m' hm => ?_
  rw [hm]
  exact agrees_ofResult rfl fun _ _ => rfl

theorem matrixLiteral (hs : L.Settings w g D R s s') (heval : L.Evaluates eval eval')
    {rows : List (List NodeId)} (hrows : ∀ id ∈ rows.flatten, D id) :
    L.Agrees w R (Value.Alike L.callables) (s.matrixLiteral eval rows)
      (s'.matrixLiteral eval' (rows.map (·.map g))) := by
  unfold Setting.matrixLiteral
  rw [List.foldlM_map]
  refine Paired.bind (P := Eq) ?_ fun m m' hm =>
    hm ▸ paired_pure (.of_isPlain (Value.isPlain_ofMatrix m))
  refine paired_foldlM (R := fun ids ids' => (∀ id ∈ ids, D id) ∧ ids' = ids)
    (List.forall₂_same.mpr fun ids hids =>
      ⟨fun id hid => hrows id (List.mem_flatten_of_mem hids hid), rfl⟩) ?_ rfl
  rintro joined _ rfl ids ids' ⟨hids, hsame⟩
  rw [hsame]
  refine (hs.joinRow heval hids).bind fun row row' hrow => ?_
  rw [hrow]
  exact agrees_ofResult rfl fun _ _ => rfl

theorem block (hs : L.Settings w g D R s s') (heval : L.Evaluates eval eval')
    {statements : List (NodeId × Bool)} (hstatements : ∀ id ∈ statements.map (·.1), D id) :
    L.Agrees w R (Value.Alike L.callables) (s.block eval statements)
      (s'.block eval' (statements.map fun t => (g t.1, t.2))) := by
  unfold Setting.block
  rw [List.foldlM_map]
  refine paired_foldlM (R := fun t t' => D t.1 ∧ t' = t)
    (List.forall₂_same.mpr fun t ht => ⟨hstatements t.1 (List.mem_map_of_mem ht), rfl⟩) ?_
    (.matrix _)
  rintro _ _ _ t t' ⟨ht, hsame⟩
  rw [hsame]
  exact hs.check.bind fun _ _ _ => heval w g D R s s' t.1 hs ht

theorem branch (hs : L.Settings w g D R s s') (heval : L.Evaluates eval eval')
    {cond yes no : NodeId} (hcond : D cond) (hyes : D yes) (hno : no.Guided g D) :
    L.Agrees w R (Value.Alike L.callables) (s.branch eval cond yes no)
      (s'.branch eval' (g cond) (g yes) (g no)) := by
  refine (hs.isTrue heval hcond).bind fun holds holds' hholds => ?_
  rw [← hholds, hno.1]
  split
  · exact heval w g D R s s' yes hs hyes
  · split
    · exact heval w g D R s s' no hs (hno.2 ‹_›)
    · exact paired_pure (.matrix _)

/-- Conditions and rounds that go together make loops that do: by induction on the rounds that are
left. -/
theorem loop (hs : L.Settings w g D R s s') {cond cond' : Evaluation Bool}
    {round round' : Evaluation Value} (hcond : L.Agrees w R Eq cond cond')
    (hround : L.Agrees w R (Value.Alike L.callables) round round') (fuel : Nat)
    (hv : v.Alike L.callables v') :
    L.Agrees w R (Value.Alike L.callables) (s.loop cond round fuel v)
      (s'.loop cond' round' fuel v') := by
  induction fuel generalizing v v' with
  | zero => exact paired_throw .outOfFuel
  | succ fuel ih =>
      refine hs.check.bind fun _ _ _ => hcond.bind fun holds holds' hholds => ?_
      rw [← hholds]
      split
      · exact hround.bind fun u u' hu => ih hu
      · exact paired_pure hv

theorem whileLoop (hs : L.Settings w g D R s s') (heval : L.Evaluates eval eval') (fuel : Nat)
    {cond body : NodeId} (hcond : D cond) (hbody : D body) :
    L.Agrees w R (Value.Alike L.callables) (s.whileLoop eval fuel cond body)
      (s'.whileLoop eval' fuel (g cond) (g body)) :=
  hs.loop (hs.isTrue heval hcond) (heval w g D R s s' body hs hbody) fuel (.matrix _)

theorem effect (hs : L.Settings w g D R s s') (heval : L.Evaluates eval eval') {id : NodeId}
    (hid : id.Guided g D) :
    L.Agrees w R (fun _ _ => True) (s.effect eval id) (s'.effect eval' (g id)) := by
  unfold Setting.effect
  rw [hid.1]
  split
  · exact (heval w g D R s s' id hs (hid.2 ‹_›)).bind fun _ _ _ => paired_pure trivial
  · exact paired_pure trivial

theorem forLoop (hs : L.Settings w g D R s s') (heval : L.Evaluates eval eval') (fuel : Nat)
    {init cond step body : NodeId} (hinit : init.Guided g D) (hcond : cond.Guided g D)
    (hstep : step.Guided g D) (hbody : D body) :
    L.Agrees w R (Value.Alike L.callables) (s.forLoop eval fuel init cond step body)
      (s'.forLoop eval' fuel (g init) (g cond) (g step) (g body)) := by
  refine (hs.effect heval hinit).bind fun _ _ _ => ?_
  rw [hcond.1]
  refine hs.loop ?_ ?_ fuel (.matrix _)
  · split
    · exact hs.isTrue heval (hcond.2 ‹_›)
    · exact paired_pure rfl
  · exact (heval w g D R s s' body hs hbody).bind fun v v' hv =>
      (hs.effect heval hstep).bind fun _ _ _ => paired_pure hv

theorem value (hL : L.Lawful) (hs : L.Settings w g D R s s') (heval : L.Evaluates eval eval')
    (fuel : Nat) {k : NodeKind NodeId} (hguided : k.Guided g D)
    (hnames : ∀ name, k = .name name → L.Knows w name) :
    L.Agrees w R (Value.Alike L.callables) (s.value eval fuel k)
      (s'.value eval' fuel (k.map g)) := by
  have hslot {id : NodeId} (h : (id, false) ∈ k.slots) : D id := hguided.required h
  have hoptional {id : NodeId} (h : (id, true) ∈ k.slots) : id.Guided g D := hguided.optional h
  cases k with
  | real x => exact paired_pure (.scalar _)
  | imaginary x => exact paired_pure (.scalar _)
  | text t => exact paired_pure (.text t)
  | name name => exact hs.lookup hL (hnames name rfl)
  | last => exact agrees_lastIndex
  | everything => exact agrees_fail _
  | unary op a =>
      refine (heval w g D R s s' a hs (hslot (by simp [NodeKind.slots]))).bind fun v v' hv => ?_
      exact agrees_ofResult (hv.unary_eq op)
        ((Value.unary_isPlain op v).imp fun _ h => .of_isPlain h)
  | binary op a b =>
      exact hs.binary hL heval op (hslot (by simp [NodeKind.slots]))
        (hslot (by simp [NodeKind.slots]))
  | range a b =>
      exact hs.range heval (hslot (by simp [NodeKind.slots])) (hslot (by simp [NodeKind.slots]))
  | assign target op v =>
      exact hs.assign hL heval (hslot (by simp [NodeKind.slots])) op
        (hslot (by simp [NodeKind.slots]))
  | call callee args =>
      rw [NodeKind.map_call]
      exact hs.call hL heval (hslot List.mem_cons_self) fun id hid =>
        hslot (List.mem_cons_of_mem _ (List.mem_map_of_mem hid))
  | matrix rows =>
      rw [NodeKind.map_matrix]
      exact hs.matrixLiteral heval fun id hid => hslot (List.mem_map_of_mem hid)
  | tuple items =>
      rw [NodeKind.map_tuple]
      exact agrees_fail _
  | lambda params body =>
      have hmem : (body, false) ∈ (NodeKind.lambda params body).slots := List.mem_singleton.mpr rfl
      exact hs.close hL params (hslot hmem) (hguided _ hmem).1
  | block statements =>
      rw [NodeKind.map_block]
      refine hs.block heval fun id hid => hslot ?_
      obtain ⟨t, ht, rfl⟩ := List.mem_map.mp hid
      exact List.mem_map_of_mem (f := fun t : NodeId × Bool => (t.1, false)) ht
  | branch cond yes no =>
      exact hs.branch heval (hslot (by simp [NodeKind.slots])) (hslot (by simp [NodeKind.slots]))
        (hoptional (by simp [NodeKind.slots]))
  | whileLoop cond body =>
      exact hs.whileLoop heval fuel (hslot (by simp [NodeKind.slots]))
        (hslot (by simp [NodeKind.slots]))
  | forLoop init cond step body =>
      exact hs.forLoop heval fuel (hoptional (by simp [NodeKind.slots]))
        (hoptional (by simp [NodeKind.slots])) (hoptional (by simp [NodeKind.slots]))
        (hslot (by simp [NodeKind.slots]))

end Likeness.Settings

namespace Likeness

variable {L : Likeness}

/-- By induction on the fuel: a child has one unit less. -/
theorem Lawful.evaluates (hL : L.Lawful) (fuel : Nat) :
    L.Evaluates (Setting.evaluate fuel) (Setting.evaluate fuel) := by
  induction fuel with
  | zero => exact fun _ _ _ _ _ _ _ _ _ => paired_throw .outOfFuel
  | succ fuel ih =>
      intro w g D R s s' id hs hid
      refine (hs.node hid).bind fun n n' ⟨hnode, hkind, hspan⟩ => ?_
      rw [hkind]
      refine agrees_locatedAt ?_ hspan
      exact hs.value hL ih fuel (hs.forest.guided id n hid hnode) (hs.forest.known id n hid hnode)

/-- Programs whose statements stand for one another run alike. -/
theorem Lawful.run (hL : L.Lawful) {w : L.World} {g : NodeId → NodeId} {D : NodeId → Prop}
    {R : Span → Span → Prop} {s s' : Setting} (hs : L.Settings w g D R s s') (fuel : Nat)
    {statements : List Statement} (hstatements : ∀ t ∈ statements, D t.root) :
    L.Agrees w R (List.Forall₂ (Option.Rel (Value.Alike L.callables))) (s.run fuel statements)
      (s'.run fuel (statements.map fun t => { t with root := g t.root })) := by
  refine paired_mapM (R := fun t t' => D t.root ∧ t' = { t with root := g t.root }) ?_
    fun t t' ht => ?_
  · exact List.forall₂_map_right_iff.mpr
      (List.forall₂_same.mpr fun t ht => ⟨hstatements t ht, rfl⟩)
  · obtain ⟨ht, rfl⟩ := ht
    refine hs.check.bind fun _ _ _ => ?_
    refine (hL.evaluates fuel w g D R s s' t.root hs ht).bind fun v v' hv => paired_pure ?_
    dsimp only
    split
    · exact .none
    · exact .some hv

end Likeness

end MatrixScript
