import MatrixScript.Proofs.Extension.Tables

/-!
# Lookups in a grammar

Whatever is registered and in which order, an operator is found by the longest registered symbol
that the text starts with, and a form by its priority and then by its place in the order of
registration. A registration that fails leaves the grammar as it was.
-/

namespace MatrixScript

namespace Grammar

/-- The grammar after registering something, whether that succeeds or fails. -/
def attempt (g : Grammar) (entry : Registration) : Grammar := (entry.add.run.run g).2

/-- The operators and forms that have been registered, in this order. -/
structure Log where
  operators : List Operator
  forms : List (Nat × Form)

namespace Log

/-- Whether there is a symbol, and no operator under it yet. -/
def Admits (log : Log) (op : Operator) : Prop :=
  op.symbol ≠ [] ∧ op.symbol ∉ log.operators.map (·.symbol)

instance (log : Log) (op : Operator) : Decidable (log.Admits op) :=
  inferInstanceAs (Decidable (_ ∧ _))

/-- The first operator under a symbol and the first form under a name count. -/
def record (log : Log) : Registration → Log
  | .operator op =>
    if log.Admits op then { log with operators := log.operators ++ [op] } else log
  | .form priority form =>
    if form.name ∈ log.forms.map (·.2.name) then log
    else { log with forms := log.forms ++ [(priority, form)] }
  | .transform .. => log

end Log

/-- The log of a grammar to start from. -/
def log (g : Grammar) : Log := ⟨g.operators, g.forms⟩

/-- What looking for an operator has to give, from the registered ones: that with the longest symbol
that the text starts with, or else that with the offered symbol, which takes no bytes. -/
inductive Finds (registered : List Operator) (input : List Char) (premise : Option (List Char)) :
    Option OperatorMatch → Prop where
  | written {op : Operator} (hop : op ∈ registered) (hstarts : op.symbol <+: input)
      (hlongest : ∀ other ∈ registered, other.symbol <+: input →
        other = op ∨ byteCount other.symbol < byteCount op.symbol) :
      Finds registered input premise (some ⟨op, byteCount op.symbol⟩)
  | offered {op : Operator} (hnone : ∀ other ∈ registered, ¬ other.symbol <+: input)
      (hpremise : premise = some op.symbol) (hop : op ∈ registered)
      (honly : ∀ other ∈ registered, other.symbol = op.symbol → other = op) :
      Finds registered input premise (some ⟨op, 0⟩)
  | nothing (hnone : ∀ other ∈ registered, ¬ other.symbol <+: input)
      (hpremise : ∀ op ∈ registered, premise ≠ some op.symbol) :
      Finds registered input premise none

/-- The two grammars have the same answer to every lookup. -/
structure AnswersAlike (g g' : Grammar) : Prop where
  operator : ∀ symbol, g.operator? symbol = g'.operator? symbol
  found : ∀ input premise, g.findOperator? input premise = g'.findOperator? input premise
  form : ∀ input flags, g.findForm? input flags = g'.findForm? input flags
  transform : ∀ trigger, g.transform? trigger = g'.transform? trigger

/-- The tables hold what the log says. No symbol is there twice. -/
structure Log.Describes (log : Log) (g : Grammar) : Prop where
  operators : Ranked (byteCount ·.symbol) log.operators g.operators
  forms : Ranked (·.1) log.forms g.forms
  symbols : (log.operators.map (·.symbol)).Nodup

variable {g g' : Grammar} {log log' : Log} {op other : Operator} {symbol input : List Char}
  {premise : Option (List Char)}

theorem eq_of_prefix_of_byteCount {cs ds : List Char} (hcs : cs <+: input) (hds : ds <+: input)
    (h : byteCount cs = byteCount ds) : cs = ds := by
  obtain ⟨behind, rfl⟩ := hcs
  obtain ⟨behind', hinput⟩ := hds
  have hbehind := dropBytes_append cs behind
  rw [← hinput, h, dropBytes_append] at hbehind
  rw [hbehind] at hinput
  exact (List.append_cancel_right hinput).symm

theorem Log.record_of_admits (h : log.Admits op) :
    log.record (.operator op) = { log with operators := log.operators ++ [op] } :=
  if_pos h

theorem Log.record_of_refused (h : ¬ log.Admits op) : log.record (.operator op) = log := if_neg h

theorem attempt_of_ok (entry : Registration) (h : g.register entry = .ok g') :
    g.attempt entry = g' :=
  congrArg Prod.snd (registered_eq_ok_iff.mp (g.register_eq entry ▸ h))

/-- A registration that fails leaves no trace. -/
theorem attempt_of_error (entry : Registration) {e : GrammarError}
    (h : g.register entry = .error e) : g.attempt entry = g := by
  cases hrun : entry.add.run.run g with
  | mk r after =>
      cases r with
      | error e' => exact (congrArg Prod.snd hrun).trans (eq_of_run_add_error hrun)
      | ok u =>
          rw [register_eq, registered_eq_ok_iff.mpr hrun] at h
          cases h

namespace Log.Describes

variable (h : log.Describes g)

include h

theorem eq_of_symbol (hop : op ∈ log.operators) (hother : other ∈ log.operators)
    (hsymbol : other.symbol = op.symbol) : other = op :=
  List.inj_on_of_nodup_map h.symbols hother hop hsymbol

/-! ### Looking up -/

theorem operator?_eq_some_iff :
    g.operator? symbol = some op ↔ op ∈ log.operators ∧ op.symbol = symbol := by
  have hsearch := h.operators.search (·.symbol == symbol)
  constructor
  · intro hfound
    unfold operator? at hfound
    rw [hfound] at hsearch
    exact ⟨hsearch.mem, eq_of_beq hsearch.accepted⟩
  · rintro ⟨hop, hsymbol⟩
    unfold operator?
    cases hfound : g.operators.find? (·.symbol == symbol) with
    | none =>
        rw [hfound] at hsearch
        exact absurd (beq_iff_eq.mpr hsymbol) (Bool.eq_false_iff.mp (hsearch.none_accepted op hop))
    | some found =>
        rw [hfound] at hsearch
        rw [h.eq_of_symbol hop hsearch.mem ((eq_of_beq hsearch.accepted).trans hsymbol.symm)]

theorem operator?_isSome_iff :
    (g.operator? symbol).isSome = true ↔ symbol ∈ log.operators.map (·.symbol) := by
  rw [Option.isSome_iff_exists, List.mem_map]
  exact exists_congr fun _ => h.operator?_eq_some_iff

theorem finds (input : List Char) (premise : Option (List Char)) :
    Finds log.operators input premise (g.findOperator? input premise) := by
  have hsearch := h.operators.search (·.symbol.isPrefixOf input)
  unfold findOperator?
  cases hfound : g.operators.find? (·.symbol.isPrefixOf input) with
  | some op =>
      rw [hfound] at hsearch
      have hprefix := List.isPrefixOf_iff_prefix.mp hsearch.accepted
      refine .written hsearch.mem hprefix fun other hother hstarts => ?_
      have hle := hsearch.highest hother (List.isPrefixOf_iff_prefix.mpr hstarts)
      rcases Nat.eq_or_lt_of_le hle with hsame | hlt
      · exact .inl (h.eq_of_symbol hsearch.mem hother
          (eq_of_prefix_of_byteCount hstarts hprefix hsame))
      · exact .inr hlt
  | none =>
      rw [hfound] at hsearch
      have hnone (other : Operator) (hother : other ∈ log.operators) : ¬ other.symbol <+: input :=
        fun hstarts => absurd (List.isPrefixOf_iff_prefix.mpr hstarts)
          (Bool.eq_false_iff.mp (hsearch.none_accepted other hother))
      cases hoffered : premise.bind g.operator? with
      | some op =>
          obtain ⟨symbol, rfl, hsymbol⟩ := Option.bind_eq_some_iff.mp hoffered
          obtain ⟨hop, rfl⟩ := h.operator?_eq_some_iff.mp hsymbol
          exact .offered hnone rfl hop fun other hother => h.eq_of_symbol hop hother
      | none =>
          refine .nothing hnone fun op hop => ?_
          rintro rfl
          rw [Option.bind_some, h.operator?_eq_some_iff.mpr ⟨hop, rfl⟩] at hoffered
          cases hoffered

theorem findsForm (input : List Char) (flags : Flags) :
    ∃ found, FirstRanked (·.1) (·.2.accepts input flags) log.forms found
      ∧ g.findForm? input flags = found.map (·.2) :=
  ⟨_, h.forms.search _, rfl⟩

/-! ### Registering -/

theorem registerOperator_eq_ok_iff_admits :
    g.registerOperator op = .ok g' ↔ log.Admits op
      ∧ g' = { g with operators := insertRanked (byteCount ·.symbol) op g.operators } := by
  rw [registerOperator_eq_ok_iff, h.operator?_isSome_iff, ← and_assoc]
  rfl

theorem registerOperator_error_iff : (∃ e, g.registerOperator op = .error e) ↔ ¬ log.Admits op := by
  cases hregister : g.registerOperator op with
  | error e =>
      refine iff_of_true ⟨e, rfl⟩ fun hop => ?_
      rw [h.registerOperator_eq_ok_iff_admits.mpr ⟨hop, rfl⟩] at hregister
      cases hregister
  | ok after =>
      refine iff_of_false nofun (not_not.mpr ?_)
      exact (h.registerOperator_eq_ok_iff_admits.mp hregister).1

theorem record_operator (op : Operator) :
    (log.record (.operator op)).Describes (g.attempt (.operator op)) := by
  by_cases hop : log.Admits op
  · rw [attempt_of_ok (.operator op) (h.registerOperator_eq_ok_iff_admits.mpr ⟨hop, rfl⟩),
      record_of_admits hop]
    refine ⟨h.operators.insert op, h.forms, ?_⟩
    rw [List.map_append]
    exact h.symbols.append (List.nodup_singleton _) (List.disjoint_singleton.mpr hop.2)
  · obtain ⟨e, he⟩ := h.registerOperator_error_iff.mpr hop
    rw [attempt_of_error (.operator op) he, record_of_refused hop]
    exact h

theorem record_form (priority : Nat) (form : Form) :
    (log.record (.form priority form)).Describes (g.attempt (.form priority form)) := by
  have hnames : g.forms.any (·.2.name == form.name) = true
      ↔ form.name ∈ log.forms.map (·.2.name) := by
    rw [List.any_eq_true, ← (h.forms.perm.map (·.2.name)).mem_iff, List.mem_map]
    exact exists_congr fun _ => and_congr_right' beq_iff_eq
  simp only [record, attempt, Registration.add, run_addForm, hnames]
  split
  · exact h
  · exact ⟨h.operators, h.forms.insert (priority, form), h.symbols⟩

theorem record_transform (trigger : Char) (transform : Transform) :
    (log.record (.transform trigger transform)).Describes
      (g.attempt (.transform trigger transform)) := by
  simp only [record, attempt, Registration.add, run_addTransform]
  split
  · exact h
  · exact ⟨h.operators, h.forms, h.symbols⟩

theorem record (entry : Registration) : (log.record entry).Describes (g.attempt entry) := by
  cases entry with
  | operator op => exact h.record_operator op
  | form priority form => exact h.record_form priority form
  | transform trigger transform => exact h.record_transform trigger transform

/-- By induction on the calls, each of which either extends a table and the log or neither. -/
theorem foldl_record (entries : List Registration) :
    (entries.foldl Log.record log).Describes (entries.foldl attempt g) := by
  induction entries generalizing g log with
  | nil => exact h
  | cons entry entries ih => exact ih (h.record entry)

end Log.Describes

/-! ### The order of registration -/

/-- Which operator is to be found depends on what is registered, not on the order. -/
theorem Finds.unique {registered registered' : List Operator} {found found' : Option OperatorMatch}
    (h : Finds registered input premise found) (h' : Finds registered' input premise found')
    (hsame : ∀ op, op ∈ registered ↔ op ∈ registered') : found = found' := by
  cases h with
  | @written op hop hstarts hlongest =>
      cases h' with
      | @written op' hop' hstarts' hlongest' =>
          rcases hlongest op' ((hsame op').mpr hop') hstarts' with rfl | hshorter
          · rfl
          rcases hlongest' op ((hsame op).mp hop) hstarts with rfl | hshorter'
          · rfl
          exact absurd hshorter (Nat.lt_asymm hshorter')
      | offered hnone => exact absurd hstarts (hnone op ((hsame op).mp hop))
      | nothing hnone => exact absurd hstarts (hnone op ((hsame op).mp hop))
  | @offered op hnone hpremise hop honly =>
      cases h' with
      | @written op' hop' hstarts' =>
          exact absurd hstarts' (hnone op' ((hsame op').mpr hop'))
      | @offered op' _ hpremise' hop' =>
          have hsymbol := Option.some.inj (hpremise'.symm.trans hpremise)
          rw [honly op' ((hsame op').mpr hop') hsymbol]
      | nothing _ hpremise' => exact absurd hpremise (hpremise' op ((hsame op).mp hop))
  | nothing hnone hpremise =>
      cases h' with
      | @written op' hop' hstarts' =>
          exact absurd hstarts' (hnone op' ((hsame op').mpr hop'))
      | @offered op' _ hpremise' hop' =>
          exact absurd hpremise' (hpremise op' ((hsame op').mpr hop'))
      | nothing => rfl

theorem mem_record_operator {call : Operator} :
    op ∈ (log.record (.operator call)).operators
      ↔ op ∈ log.operators ∨ op = call ∧ log.Admits op := by
  by_cases hcall : log.Admits call
  · rw [Log.record_of_admits hcall, List.mem_append, List.mem_singleton]
    refine or_congr_right ⟨?_, And.left⟩
    rintro rfl
    exact ⟨rfl, hcall⟩
  · rw [Log.record_of_refused hcall]
    refine ⟨.inl, ?_⟩
    rintro (hop | ⟨rfl, hop⟩)
    · exact hop
    · exact absurd hop hcall

theorem admits_record_operator {call : Operator} (hsymbol : op.symbol ≠ call.symbol) :
    (log.record (.operator call)).Admits op ↔ log.Admits op := by
  refine and_congr_right' (not_congr ?_)
  rw [List.mem_map, List.mem_map]
  constructor
  · rintro ⟨other, hother, hsame⟩
    rcases mem_record_operator.mp hother with hother | ⟨rfl, -⟩
    · exact ⟨other, hother, hsame⟩
    · exact absurd hsame.symm hsymbol
  · rintro ⟨other, hother, hsame⟩
    exact ⟨other, mem_record_operator.mpr (.inl hother), hsame⟩

/-- None of several calls under different symbols gets in the way of another. -/
theorem mem_foldl_record {calls : List Operator} (hcalls : (calls.map (·.symbol)).Nodup) :
    op ∈ ((calls.map Registration.operator).foldl Log.record log).operators
      ↔ op ∈ log.operators ∨ op ∈ calls ∧ log.Admits op := by
  induction calls generalizing log with
  | nil => simp
  | cons call calls ih =>
      obtain ⟨hcall, hrest⟩ := List.nodup_cons.mp hcalls
      have hothers (hop : op ∈ calls) :
          (log.record (.operator call)).Admits op ↔ log.Admits op := by
        refine admits_record_operator fun hsymbol => hcall ?_
        exact List.mem_map.mpr ⟨op, hop, hsymbol⟩
      rw [List.map_cons, List.foldl_cons, ih hrest, mem_record_operator,
        and_congr_right hothers, or_assoc, ← or_and_right, List.mem_cons]

/-- Several calls under different symbols, none of which is taken, all succeed. -/
theorem Log.Describes.foldlM_register (h : log.Describes g) {calls : List Operator}
    (hcalls : (calls.map (·.symbol)).Nodup) (hadmits : ∀ op ∈ calls, log.Admits op) :
    (calls.map Registration.operator).foldlM register g
      = .ok ((calls.map Registration.operator).foldl attempt g) := by
  induction calls generalizing g log with
  | nil => rfl
  | cons call calls ih =>
      obtain ⟨hcall, hrest⟩ := List.nodup_cons.mp hcalls
      have hfirst : g.register (.operator call) = .ok (g.attempt (.operator call)) := by
        have hregister := h.registerOperator_eq_ok_iff_admits.mpr
          ⟨hadmits call List.mem_cons_self, rfl⟩
        exact hregister.trans (congrArg _ (attempt_of_ok (.operator call) hregister).symm)
      rw [List.map_cons, List.foldlM_cons, List.foldl_cons, hfirst]
      refine ih (h.record_operator call) hrest fun op hop => ?_
      rw [admits_record_operator fun hsymbol => hcall (List.mem_map.mpr ⟨op, hop, hsymbol⟩)]
      exact hadmits op (List.mem_cons_of_mem _ hop)

theorem attempt_operator (g : Grammar) (op : Operator) :
    (g.attempt (.operator op)).forms = g.forms
      ∧ (g.attempt (.operator op)).transforms = g.transforms := by
  rw [attempt, Registration.add, run_addOperator]
  repeat' split
  all_goals exact ⟨rfl, rfl⟩

theorem foldl_attempt_operator (g : Grammar) (calls : List Operator) :
    ((calls.map Registration.operator).foldl attempt g).forms = g.forms
      ∧ ((calls.map Registration.operator).foldl attempt g).transforms = g.transforms := by
  induction calls generalizing g with
  | nil => exact ⟨rfl, rfl⟩
  | cons call calls ih =>
      obtain ⟨hforms, htransforms⟩ := attempt_operator g call
      obtain ⟨hforms', htransforms'⟩ := ih (g.attempt (.operator call))
      exact ⟨hforms'.trans hforms, htransforms'.trans htransforms⟩

theorem Log.Describes.answersAlike (h : log.Describes g) (h' : log'.Describes g')
    (hsame : ∀ op, op ∈ log.operators ↔ op ∈ log'.operators) (hforms : g.forms = g'.forms)
    (htransforms : g.transforms = g'.transforms) : g.AnswersAlike g' where
  operator symbol := Option.ext fun op => by
    rw [h.operator?_eq_some_iff, h'.operator?_eq_some_iff, hsame]
  found input premise := (h.finds input premise).unique (h'.finds input premise) hsame
  form input flags := by rw [findForm?, findForm?, hforms]
  transform trigger := by rw [transform?, transform?, htransforms]

theorem Log.Describes.answersAlike_of_perm (h : log.Describes g) {calls calls' : List Operator}
    (hperm : calls.Perm calls') (hcalls : (calls.map (·.symbol)).Nodup) :
    ((calls.map Registration.operator).foldl attempt g).AnswersAlike
      ((calls'.map Registration.operator).foldl attempt g) := by
  have hcalls' : (calls'.map (·.symbol)).Nodup := (hperm.map _).nodup_iff.mp hcalls
  obtain ⟨hforms, htransforms⟩ := foldl_attempt_operator g calls
  obtain ⟨hforms', htransforms'⟩ := foldl_attempt_operator g calls'
  refine (h.foldl_record _).answersAlike (h.foldl_record _) (fun op => ?_)
    (hforms.trans hforms'.symm) (htransforms.trans htransforms'.symm)
  rw [mem_foldl_record hcalls, mem_foldl_record hcalls', hperm.mem_iff]

/-! ### The empty and the standard grammar -/

theorem describes_empty : empty.log.Describes empty where
  operators := .of_sorted .nil
  forms := .of_sorted .nil
  symbols := .nil

theorem describes_standard : standard.log.Describes standard where
  operators := .of_sorted ((Ranked.of_sorted .nil).foldl_insert Operator.standard).sorted
  forms := .of_sorted (by decide)
  symbols := by decide +kernel

/-- After any registrations with the empty or the standard grammar, some of which may have failed,
every lookup finds what it has to. An operator is refused exactly if it has no symbol or its symbol
is taken. Operators with different symbols may be registered in any order. -/
theorem lookups_of_registered {base : Grammar} (hbase : base = empty ∨ base = standard)
    (entries : List Registration) :
    let g := entries.foldl attempt base
    let log := entries.foldl Log.record base.log
    (∀ input premise, Finds log.operators input premise (g.findOperator? input premise))
    ∧ (∀ input flags, ∃ found, FirstRanked (·.1) (·.2.accepts input flags) log.forms found
      ∧ g.findForm? input flags = found.map (·.2))
    ∧ (∀ op, ((∃ e, g.registerOperator op = .error e)
        ↔ op.symbol = [] ∨ ∃ other ∈ log.operators, other.symbol = op.symbol)
      ∧ ∀ e, g.registerOperator op = .error e → g.attempt (.operator op) = g)
    ∧ ∀ calls calls' : List Operator, calls.Perm calls' → (calls.map (·.symbol)).Nodup →
      ((calls.map Registration.operator).foldl attempt g).AnswersAlike
        ((calls'.map Registration.operator).foldl attempt g) := by
  intro g log
  have hdescribes : log.Describes g := by
    rcases hbase with rfl | rfl
    · exact describes_empty.foldl_record entries
    · exact describes_standard.foldl_record entries
  refine ⟨hdescribes.finds, hdescribes.findsForm, fun op => ⟨?_, fun e he => ?_⟩,
    fun calls calls' => hdescribes.answersAlike_of_perm⟩
  · rw [hdescribes.registerOperator_error_iff, Log.Admits, not_and_or, not_not, not_not,
      List.mem_map]
  · exact attempt_of_error _ he

/-- One symbol starts with the other. Either of them can be registered first, none of them again. -/
theorem lookups_of_registered_nested :
    let short := Operator.binary "@".toList 9 .left .add
    let long := Operator.binary "@@".toList 9 .left .sub
    (∃ e, (standard.attempt (.operator short)).registerOperator short = .error e)
    ∧ ((standard.attempt (.operator short)).attempt (.operator long)).AnswersAlike
        ((standard.attempt (.operator long)).attempt (.operator short)) := by
  intro short long
  have hshort : short ∈ (standard.log.record (.operator short)).operators :=
    mem_record_operator.mpr (.inr ⟨rfl, by decide +kernel⟩)
  constructor
  · obtain ⟨-, -, hrefused, -⟩ := lookups_of_registered (.inr rfl) [.operator short]
    exact (hrefused short).1.mpr (.inr ⟨short, hshort, rfl⟩)
  · obtain ⟨-, -, -, hordered⟩ := lookups_of_registered (.inr (Eq.refl standard)) []
    exact hordered [short, long] [long, short] (.swap long short []) (by decide)

end Grammar

end MatrixScript
