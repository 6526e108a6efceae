import MatrixScript.Proofs.Lookups
import MatrixScript.Proofs.Precedence.Groupings
import MatrixScript.Proofs.Reading.Progress

/-!
# Registered operators between names

Operators between two operands are registered with a grammar that knows only names and blanks. A
chain of names with these operators between them is one statement, and the tree of the statement
groups them by their precedences. The associativities are respected as declared, unless an operator
with the highest precedence that is left-associative is followed by another one with the highest.
-/

namespace MatrixScript

open Reading

namespace Chain

open Printing (Name)

def Link.text (l : Link) : List Char :=
  List.replicate (l.before + 1) ' ' ++ (l.operator.symbol
    ++ (List.replicate (l.after + 1) ' ' ++ l.name.chars))

def linksText (links : List Link) : List Char := links.flatMap Link.text

/-- A name, and operators with a name behind each. -/
def text (first : Name) (links : List Link) : List Char := first.chars ++ linksText links

/-- Whether the tree has these names and operators in it, in their order, and groups them so. -/
structure Grouping.Describes (t : Grouping) (tree : Tree) (first : Name) (links : List Link) :
    Prop where
  tree : t.tree = tree
  names : t.names = first :: links.map (·.name)
  infixes : t.infixes = links.map (·.operator)

/-- A grammar that knows names, and blanks under some triggers. -/
def named (priority : Nat) (triggers : List Char) : Grammar :=
  ⟨[], [(priority, Form.identifier)], triggers.map (·, Transform.whitespace)⟩

/-- What reading a chain of names needs of a grammar. -/
structure Joins (g : Grammar) (infixes : List Infix) : Prop where
  blank : g.transform? ' ' = some Transform.whitespace
  blanks_only : ∀ x t, g.transform? x = some t → t = Transform.whitespace
  named : ∀ input flags, Form.identifier.accepts input flags = true →
    g.findForm? input flags = some Form.identifier
  found : ∀ e ∈ infixes, ∀ d premise,
    g.findOperator? (e.symbol ++ ' ' :: d) premise = some ⟨e.operator, byteCount e.symbol⟩

variable {g : Grammar} {infixes : List Infix} {priority : Nat} {triggers : List Char}

/-! ### Registering the operators -/

theorem describes_named (priority : Nat) (triggers : List Char) :
    (named priority triggers).log.Describes (named priority triggers) where
  operators := .of_sorted .nil
  forms := .of_sorted (List.pairwise_singleton _ _)
  symbols := .nil

/-- A symbol ends in front of a blank, so no longer one is there. -/
theorem prefix_of_blank {e e' : Infix} {d : List Char} (h : e'.symbol <+: e.symbol ++ ' ' :: d) :
    e'.symbol <+: e.symbol := by
  rcases List.prefix_or_prefix_of_prefix h (List.prefix_append _ _) with hshorter | ⟨more, hmore⟩
  · exact hshorter
  · rw [← hmore, List.prefix_append_right_inj] at h
    cases more with
    | nil =>
        have hsame : e.symbol = e'.symbol := (List.append_nil _).symm.trans hmore
        exact hsame ▸ List.prefix_rfl
    | cons x more =>
        obtain ⟨rfl, -⟩ := List.cons_prefix_cons.mp h
        have hblank : ' ' ∈ e'.symbol := by
          rw [← hmore]
          exact List.mem_append_right _ List.mem_cons_self
        exact absurd (e'.chars ' ' hblank) (by decide)

theorem finds_written (hdistinct : (infixes.map (·.symbol)).Nodup) {e : Infix} (he : e ∈ infixes)
    (d : List Char) (premise : Option (List Char)) :
    Grammar.Finds (infixes.map Infix.operator) (e.symbol ++ ' ' :: d) premise
      (some ⟨e.operator, byteCount e.symbol⟩) := by
  refine .written (List.mem_map_of_mem he) (List.prefix_append _ _) fun other hother hprefix => ?_
  obtain ⟨e', he', rfl⟩ := List.mem_map.mp hother
  obtain ⟨more, hmore⟩ := prefix_of_blank hprefix
  have hbytes : byteCount e'.symbol + byteCount more = byteCount e.symbol := by
    rw [← hmore, byteCount_append]
  cases more with
  | nil =>
      rw [List.append_nil] at hmore
      exact .inl (congrArg Infix.operator (List.inj_on_of_nodup_map hdistinct he' he hmore))
  | cons x more =>
      have hpos := x.utf8Size_pos
      rw [byteCount_cons] at hbytes
      exact .inr (by change byteCount e'.symbol < byteCount e.symbol; omega)

theorem joins_of_forms (hblank : ' ' ∈ triggers)
    (hforms : g.forms = (named priority triggers).forms)
    (htransforms : g.transforms = (named priority triggers).transforms)
    (hfound : ∀ e ∈ infixes, ∀ d premise, g.findOperator? (e.symbol ++ ' ' :: d) premise
      = some ⟨e.operator, byteCount e.symbol⟩) : Joins g infixes where
  blank := by
    rw [Grammar.transform?, htransforms, Option.map_eq_some_iff]
    cases hfind : (named priority triggers).transforms.find? (·.1 == ' ') with
    | none =>
        have hnone := List.find?_eq_none.mp hfind (' ', Transform.whitespace)
          (List.mem_map_of_mem hblank)
        exact absurd rfl hnone
    | some p =>
        obtain ⟨x, -, rfl⟩ := List.mem_map.mp (List.mem_of_find?_eq_some hfind)
        exact ⟨_, rfl, rfl⟩
  blanks_only x t ht := by
    rw [Grammar.transform?, htransforms] at ht
    obtain ⟨p, hfind, rfl⟩ := Option.map_eq_some_iff.mp ht
    obtain ⟨y, -, rfl⟩ := List.mem_map.mp (List.mem_of_find?_eq_some hfind)
    rfl
  named input flags haccepts := by
    have hfirst : (named priority triggers).forms.find? (·.2.accepts input flags)
        = some (priority, Form.identifier) := List.find?_cons_of_pos haccepts
    rw [Grammar.findForm?, hforms, hfirst, Option.map_some]
  found := hfound

theorem exists_registered (priority : Nat) (triggers : List Char) (infixes : List Infix)
    (hblank : ' ' ∈ triggers) (hdistinct : (infixes.map (·.symbol)).Nodup) :
    ∃ g, ((infixes.map Infix.operator).map Grammar.Registration.operator).foldlM Grammar.register
        (named priority triggers) = .ok g ∧ Joins g infixes := by
  have hsymbols : ((infixes.map Infix.operator).map (·.symbol)).Nodup := by
    rw [List.map_map]
    exact hdistinct
  have hadmits : ∀ op ∈ infixes.map Infix.operator,
      (named priority triggers).log.Admits op := by
    intro op hop
    obtain ⟨e, -, rfl⟩ := List.mem_map.mp hop
    exact ⟨e.written, List.not_mem_nil⟩
  obtain ⟨hforms, htransforms⟩ :=
    Grammar.foldl_attempt_operator (named priority triggers) (infixes.map Infix.operator)
  have hdescribes := describes_named priority triggers
  refine ⟨_, hdescribes.foldlM_register hsymbols hadmits,
    joins_of_forms hblank hforms htransforms fun e he d premise => ?_⟩
  refine ((hdescribes.foldl_record _).finds _ premise).unique (finds_written hdistinct he d premise)
    fun op => ?_
  rw [Grammar.mem_foldl_record hsymbols]
  exact ⟨fun h => (h.resolve_left List.not_mem_nil).1, fun h => .inr ⟨h, hadmits op h⟩⟩

/-! ### The text of the links -/

namespace Joins

variable (hg : Joins g infixes)

include hg

theorem settled (flags : Flags) {c : Cursor}
    (hc : ∀ x ∈ c.rest.head?, Transform.isInline x = false) : g.Settled flags c := by
  intro t ht
  obtain ⟨x, hx, ht⟩ := Option.bind_eq_some_iff.mp ht
  rw [hg.blanks_only x t ht]
  refine .inr ?_
  obtain ⟨d, hd⟩ := Cursor.rest_of_peek? hx
  have hplain := hc x (by rw [hd, List.head?_cons]; rfl)
  rw [hd, Transform.whitespace, List.takeWhile_cons_of_neg (Bool.eq_false_iff.mp hplain),
    List.length_nil]

end Joins

/-- The surroundings of a chain, with fuel for the right operands in it. -/
abbrev around (g : Grammar) (fuel : Nat) : Surroundings :=
  ⟨.statement, g.skip, g.expression fuel⟩

/-- What stands behind a name in a chain is nothing or a blank. -/
theorem linksText_cases (links : List Link) :
    linksText links = [] ∨ ∃ d, linksText links = ' ' :: d := by
  cases links with
  | nil => exact .inl rfl
  | cons l links => exact .inr ⟨_, rfl⟩

theorem endsWord_linksText (links : List Link) : EndsWord (linksText links) := by
  intro x hx
  rcases linksText_cases links with hnil | ⟨d, hblank⟩
  · rw [hnil] at hx
    cases hx
  · rw [hblank] at hx
    cases hx
    decide

theorem length_le_linksText (links : List Link) : links.length ≤ (linksText links).length := by
  induction links with
  | nil => exact Nat.le_refl _
  | cons l links ih =>
      have hlink : 1 ≤ l.text.length := by
        rw [Link.text, List.length_append, List.length_replicate]
        omega
      rw [linksText, List.flatMap_cons, List.length_append, List.length_cons, ← linksText]
      omega

/-- The text behind the symbol of a link. -/
def Link.behind (l : Link) (links : List Link) : List Char :=
  ' ' :: (List.replicate l.after ' ' ++ (l.name.chars ++ linksText links))

theorem linksText_cons (l : Link) (links : List Link) :
    linksText (l :: links)
      = List.replicate (l.before + 1) ' ' ++ (l.operator.symbol ++ l.behind links) := by
  simp only [linksText, List.flatMap_cons, Link.text, Link.behind, List.append_assoc,
    List.replicate_succ, List.cons_append]

/-- No symbol is an end mark of the chain. -/
theorem endsOperators_symbol (g : Grammar) (e : Infix) (spaced : Bool) (d : List Char) :
    g.endsOperators Mode.statement.flags spaced (e.symbol ++ d) = false := by
  have hfree : ∀ x ∈ symbolChars, x ∉ [';', ',', ')', ']', '}', '\n'] ∧ x ≠ '|' ∧ 'e' ≠ x := by
    decide
  obtain ⟨x, more, hsymbol⟩ := List.exists_cons_of_ne_nil e.written
  obtain ⟨hmark, hbar, hword⟩ := hfree x (e.chars x (hsymbol ▸ List.mem_cons_self))
  have hmarks : [';', ',', ')', ']', '}', '\n'].contains x = false := by simpa using hmark
  have helse : startsWithWord "else".toList (x :: (more ++ d)) = false := by
    simp [startsWithWord, hword]
  rw [hsymbol, List.cons_append, Grammar.endsOperators, hmarks, helse, beq_false_of_ne hbar]
  simp [Mode.flags]

theorem not_isInline_symbol (e : Infix) (d : List Char) :
    ∀ x ∈ (e.symbol ++ d).head?, Transform.isInline x = false := by
  have hall : ∀ x ∈ symbolChars, Transform.isInline x = false := by decide
  obtain ⟨y, more, hsymbol⟩ := List.exists_cons_of_ne_nil e.written
  intro x hx
  rw [hsymbol] at hx
  cases hx
  exact hall y (e.chars y (hsymbol ▸ List.mem_cons_self))

theorem not_isInline_name (x : Name) (d : List Char) :
    ∀ c ∈ (x.chars ++ d).head?, Transform.isInline c = false := by
  obtain ⟨y, hhead, hstart⟩ := x.isName.start
  obtain ⟨more, hchars⟩ := List.head?_eq_some_iff.mp hhead
  intro c hc
  rw [hchars] at hc
  cases hc
  rw [Bool.eq_false_iff]
  intro hinline
  have hblank : y = ' ' ∨ y = '\t' ∨ y = '\r' := by
    simpa [Transform.isInline, or_assoc] using hinline
  rcases hblank with rfl | rfl | rfl <;> exact absurd hstart (by decide)

/-! ### Reading the links -/

variable {fuel k : Nat} {left id : NodeId} {r₀ r r₁ : Reader} {l : Link}
  {links rest : List Link} {least : UInt8} {t t' right : Grouping}

/-- What holds wherever the loop over operators looks for the next one: the links stand behind the
cursor, and there is fuel and room for all of them. -/
structure Stands (infixes : List Infix) (fuel : Nat) (r : Reader) (left : NodeId) (t : Grouping)
    (links : List Link) : Prop where
  known : ∀ l ∈ links, l.operator ∈ infixes
  fuel : links.length ≤ fuel
  linked : r.forest.Linked
  shown : r.forest.Shows left t.tree
  ahead : r.cursor.rest = linksText links
  room : r.forest.size + 2 * links.length ≤ 4294967295

/-- What reading some of the links leaves: two nodes for each of them, and the others. -/
structure Reaches (r r₁ : Reader) (id : NodeId) (t : Grouping) (links rest : List Link) :
    Prop where
  behind : r.Behind r₁ id t.tree
  ahead : r₁.cursor.rest = linksText rest
  size : r₁.forest.size + 2 * rest.length = r.forest.size + 2 * links.length

theorem Reaches.trans {r₂ : Reader} {id' : NodeId} {rest' : List Link}
    (h : Reaches r r₁ id t links rest) (h' : Reaches r₁ r₂ id' t' rest rest') :
    Reaches r r₂ id' t' links rest' :=
  ⟨h'.behind.since h.behind.grown, h'.ahead, h'.size.trans h.size⟩

theorem Stands.reaches (h : Stands infixes fuel r left t links) (hrest : rest <:+ links)
    (hreaches : Reaches r r₁ id t' links rest) : Stands infixes fuel r₁ id t' rest where
  known l hl := h.known l (hrest.subset hl)
  fuel := Nat.le_trans hrest.length_le h.fuel
  linked := hreaches.behind.linked
  shown := hreaches.behind.shown
  ahead := hreaches.ahead
  room := hreaches.size ▸ h.room

/-- The loop has a round for each link, since each has some text. -/
theorem Stands.rounds (h : Stands infixes fuel r left t links) :
    links.length < r.cursor.rest.length + 1 := by
  rw [h.ahead]
  exact Nat.lt_succ_of_le (length_le_linksText links)

namespace Joins

variable (hg : Joins g infixes)

include hg

theorem skip_to_symbol (hrest : r.cursor.rest = linksText (l :: links)) :
    (around g fuel).skip r = .ok (true, r.movedTo ⟨r.cursor.offset + (l.before + 1),
      l.operator.symbol ++ l.behind links⟩) := by
  rw [linksText_cons] at hrest
  exact Grammar.skip_blanks rfl hg.blank hrest (not_isInline_symbol _ _)
    (hg.settled _ (not_isInline_symbol _ _))

theorem skip_to_name (hrest : r.cursor.rest = l.behind links) :
    (around g fuel).skip r = .ok (true, r.movedTo ⟨r.cursor.offset + (l.after + 1),
      l.name.chars ++ linksText links⟩) :=
  Grammar.skip_blanks rfl hg.blank hrest (not_isInline_name _ _)
    (hg.settled _ (not_isInline_name _ _))

/-- A name and what the loop makes of the links behind it. -/
theorem expression_of_chain {x : Name} {b : Bool} (hskip : (around g fuel).skip r₀ = .ok (b, r))
    (hrest : r.cursor.rest = x.chars ++ linksText links) (hlinked : r.forest.Linked)
    (hknown : ∀ l ∈ links, l.operator ∈ infixes) (hfuel : links.length ≤ fuel)
    (hroom : r.forest.size + 1 + 2 * links.length ≤ 4294967295)
    (hchain : ∀ {left : NodeId} {r : Reader}, Stands infixes fuel r left (.name x) links →
      ∃ id r₁, g.chain (around g fuel) least (r.cursor.rest.length + 1) left r = .ok (id, r₁)
        ∧ Reaches r r₁ id t links rest) :
    ∃ id r₁, g.expression (fuel + 1) .statement least r₀ = .ok (id, r₁) ∧ r.Behind r₁ id t.tree
      ∧ r₁.cursor.rest = linksText rest
      ∧ r₁.forest.size + 2 * rest.length = r.forest.size + 1 + 2 * links.length := by
  have hends := endsWord_linksText links
  have hform := hg.named _ Mode.statement.flags
    (Grammar.identifier_accepts x.isName hends Mode.statement.flags)
  rw [← hrest] at hform
  obtain ⟨r₂, hoperand, hbehind, -, hcursor, -, hsize, hflow⟩ :=
    Grammar.identifier_behind hform x.isName hends hskip hlinked hrest (by omega)
  have hstands : Stands infixes fuel r₂ r.forest.nextId (.name x) links :=
    ⟨hknown, hfuel, hbehind.linked, hbehind.shown, by rw [hcursor], by rw [hsize]; exact hroom⟩
  obtain ⟨id, r₁, hmore, hreaches⟩ := hchain hstands
  exact ⟨id, r₁, Grammar.expression_eq_ok_iff.mpr ⟨_, r₂, hoperand, .inr ⟨hflow, hmore⟩⟩,
    hreaches.behind.since hbehind.grown, hreaches.ahead, hsize ▸ hreaches.size⟩

/-- The operator of a link takes the right operand behind it, and the loop goes on. -/
theorem chain_take (hstands : Stands infixes (fuel + 1) r left t (l :: links))
    (hleast : ¬ l.operator.precedence < least)
    (hright : ∀ {left : NodeId} {r : Reader}, Stands infixes fuel r left (.name l.name) links →
      ∃ id r₁, g.chain (around g fuel) l.operator.need (r.cursor.rest.length + 1) left r
          = .ok (id, r₁)
        ∧ Reaches r r₁ id right links rest) :
    ∃ id r₁, Reaches r r₁ id (.join l.operator t right) (l :: links) rest
      ∧ ∀ p, g.chain (around g (fuel + 1)) least k id r₁ = .ok p →
        g.chain (around g (fuel + 1)) least (k + 1) left r = .ok p := by
  have hfuel := hstands.fuel
  have hroom := hstands.room
  rw [List.length_cons] at hfuel hroom
  let start : Cursor := ⟨r.cursor.offset + (l.before + 1), l.operator.symbol ++ l.behind links⟩
  let behind : Cursor := ⟨start.offset + byteCount l.operator.symbol, l.behind links⟩
  have hadvance : start.advance (byteCount l.operator.symbol) = behind := Cursor.advance_append rfl
  obtain ⟨x, r₂, hexpression, hbehind, hrest, hsize⟩ :=
    hg.expression_of_chain (hg.skip_to_name (r := r.movedTo behind) rfl) rfl hstands.linked
      (fun l hl => hstands.known l (List.mem_cons_of_mem _ hl)) (Nat.le_of_succ_le_succ hfuel)
      (show r.forest.size + 1 + 2 * links.length ≤ 4294967295 by omega) hright
  have happly (span : Span) : Grammar.applyFixity (around g (fuel + 1)) l.operator.operator left
      span (r.movedTo (start.advance (byteCount l.operator.symbol)))
        = .ok (.binary l.operator.op left x, r₂) := by
    rw [hadvance]
    exact Grammar.applyFixity_binary_eq_ok_iff.mpr ⟨x, hexpression, rfl⟩
  have hsize₂ : r₂.forest.size + 2 * rest.length = r.forest.size + 1 + 2 * links.length :=
    hsize
  have hbehind₂ : r.Behind r₂ x right.tree := ⟨hbehind.linked, hbehind.grown, hbehind.shown⟩
  -- reading the right operand has only added nodes
  have hleft : r₂.forest.Shows left t.tree :=
    hstands.shown.extends hbehind₂.grown hstands.linked (by omega)
  have htree : (NodeKind.binary l.operator.op left x).map (fun id => (r₂.forest.unfold id).bare)
      = .binary l.operator.op t.tree right.tree := by
    rw [← hleft.2, ← hbehind₂.shown.2]
    rfl
  obtain ⟨span, hloop⟩ := Grammar.chain_operator (k := k) (hg.skip_to_symbol hstands.ahead)
    (endsOperators_symbol g _ _ _) (hg.found _ (hstands.known l List.mem_cons_self) _ _) hleast
    (happly _)
  refine ⟨_, _, ⟨hbehind₂.join hleft (by omega) rfl htree span, hrest, ?_⟩, hloop⟩
  rw [Reader.size_afterOperator, List.length_cons]
  omega

/-- The loop over operators does on the text what it does on the links. The induction is on what it
does there; the fuel goes down with every right operand and the rounds with every link. -/
theorem chain_of_climbs (h : Climbs least t links t' rest)
    (hstands : Stands infixes fuel r left t links) (hrounds : links.length < k) :
    ∃ id r₁, g.chain (around g fuel) least k left r = .ok (id, r₁)
      ∧ Reaches r r₁ id t' links rest := by
  induction h generalizing fuel k left r with
  | @stop least t links hloose =>
      obtain ⟨k, rfl⟩ := Nat.exists_eq_add_of_lt hrounds
      refine ⟨left, r, ?_, ⟨hstands.linked, .refl _, hstands.shown⟩, hstands.ahead, rfl⟩
      cases links with
      | nil => exact Grammar.chain_atEnd rfl hstands.ahead
      | cons l links =>
          exact Grammar.chain_loose (hg.skip_to_symbol hstands.ahead) (endsOperators_symbol g _ _ _)
            (hg.found _ (hstands.known l List.mem_cons_self) _) (hloose l rfl)
  | @take least t right t' l links rest rest' hleast hright hmore ihright ihmore =>
      have hfuel := hstands.fuel
      rw [List.length_cons] at hfuel hrounds
      obtain ⟨k, rfl⟩ : ∃ n, k = n + 1 := ⟨k - 1, by omega⟩
      obtain ⟨fuel, rfl⟩ : ∃ n, fuel = n + 1 := ⟨fuel - 1, by omega⟩
      obtain ⟨id, r₂, hreaches, hloop⟩ := hg.chain_take (k := k) hstands hleast
        fun {left r} hnamed => ihright hnamed hnamed.rounds
      have hrest : rest.length < k := Nat.lt_of_le_of_lt hright.suffix.length_le (by omega)
      have hstands₂ := hstands.reaches (hright.suffix.trans (List.suffix_cons l links)) hreaches
      obtain ⟨id', r₁, hchain, hreaches'⟩ := ihmore hstands₂ hrest
      exact ⟨id', r₁, hloop _ hchain, hreaches.trans hreaches'⟩

/-- The whole text is one statement, with the tree of what the loop makes of all links. -/
theorem parse_text {first : Name} (h : Climbs 0 (.name first) links t [])
    (hknown : ∀ l ∈ links, l.operator ∈ infixes) (hroom : 2 * links.length + 1 ≤ 4294967295) :
    ∃ program root, g.parse (text first links) = .ok program
      ∧ program.statements = [⟨root, false⟩] ∧ (program.forest.unfold root).bare = t.tree := by
  let whole := text first links
  have hfuel : links.length ≤ whole.length := by
    have hlength := length_le_linksText links
    rw [show whole.length = first.chars.length + (linksText links).length from List.length_append]
    omega
  have hsettled := hg.settled (c := ⟨0, whole⟩) Mode.statement.flags (not_isInline_name first _)
  have hskip (fuel : Nat) : (around g fuel).skip (.ofText whole) = .ok (false, .ofText whole) :=
    Grammar.skip_stays rfl hsettled
  obtain ⟨root, r₁, hroot, hbehind, hahead, -⟩ := hg.expression_of_chain (hskip whole.length) rfl
    (Reader.linked_ofText _) hknown hfuel
    (show 0 + 1 + 2 * links.length ≤ 4294967295 by omega)
    fun {left r} hstands => hg.chain_of_climbs h hstands hstands.rounds
  obtain ⟨c, hhead, hstart⟩ := first.isName.start
  have hpeek : (Cursor.mk 0 whole).peek? = some c := by
    obtain ⟨more, hchars⟩ := List.head?_eq_some_iff.mp hhead
    rw [Cursor.peek?, show whole = first.chars ++ linksText links from rfl, hchars]
    rfl
  have hsep : ¬(c = ';' ∨ c = '\n') := by
    rintro (rfl | rfl) <;> exact absurd hstart (by decide)
  have hstatements : (g.top whole).statements none (.ofText whole) = .ok ([⟨root, false⟩], r₁) :=
    Grammar.statements_single rfl hpeek hsettled hsep hroot hahead
  exact ⟨_, root, Grammar.parse_of_statements hstatements, rfl, hbehind.shown.2⟩

/-- There is one grouping that the statement describes, and the operators group so. -/
theorem exists_grouping (first : Name) (links : List Link)
    (hknown : ∀ l ∈ links, l.operator ∈ infixes) (hroom : 2 * links.length + 1 ≤ 4294967295) :
    ∃ program root, ∃ t : Grouping, g.parse (text first links) = .ok program
      ∧ program.statements = [⟨root, false⟩]
      ∧ (∀ u : Grouping, u.Describes (program.forest.unfold root).bare first links ↔ u = t)
      ∧ t.Respects Infix.effective ∧ t.infixes = links.map (·.operator) := by
  obtain ⟨t, rest, hclimbs⟩ := Climbs.exists_of 0 (.name first) links
  obtain ⟨rfl, hrespects, hnames, hinfixes⟩ := hclimbs.whole
  obtain ⟨program, root, hparse, hstatements, htree⟩ := hg.parse_text hclimbs hknown hroom
  refine ⟨program, root, t, hparse, hstatements, fun u => ⟨fun hu => ?_, ?_⟩, hrespects, hinfixes⟩
  · exact Grouping.eq_of_tree (hu.tree.trans htree) (hu.infixes.trans hinfixes.symm)
  · rintro rfl
    exact ⟨htree.symm, hnames, hinfixes⟩

end Joins

/-! ### Precedence and associativity -/

/-- Whatever operators between two operands are registered, a chain of names with these operators
between them is one statement, as long as its nodes can be numbered, and there is exactly one
grouping that its tree describes. It respects the precedences. It respects the associativities as
well, unless an operator with the highest precedence that is declared as left-associative stands in
front of an equal one. -/
theorem grouped_by_precedence (priority : Nat) (triggers : List Char) (infixes : List Infix)
    (first : Name) (links : List Link) (hblank : ' ' ∈ triggers)
    (hdistinct : (infixes.map (·.symbol)).Nodup) (hknown : ∀ l ∈ links, l.operator ∈ infixes)
    (hroom : 2 * links.length + 1 ≤ 4294967295) :
    ∃ g, ((infixes.map Infix.operator).map Grammar.Registration.operator).foldlM Grammar.register
        (named priority triggers) = .ok g
      ∧ ∃ program root, ∃ t : Grouping, g.parse (text first links) = .ok program
        ∧ program.statements = [⟨root, false⟩]
        ∧ (∀ u : Grouping, u.Describes (program.forest.unfold root).bare first links ↔ u = t)
        ∧ t.Respects Infix.effective
        ∧ (t.Respects Infix.assoc
          ↔ (links.map (·.operator)).IsChain fun e next => ¬ e.Yields next) := by
  obtain ⟨g, hregister, hg⟩ := exists_registered priority triggers infixes hblank hdistinct
  obtain ⟨program, root, t, hparse, hstatements, hunique, hrespects, hinfixes⟩ :=
    hg.exists_grouping first links hknown hroom
  refine ⟨g, hregister, program, root, t, hparse, hstatements, hunique, hrespects, ?_⟩
  rw [← hinfixes]
  exact Grouping.respects_declared_iff hrespects

/-- Two operators on one level, of which one groups to the left and the other to the right. -/
theorem grouped_by_precedence_mixed :
    let minus : Infix := ⟨['@'], 10, .left, .sub, by decide, by decide⟩
    let plus : Infix := ⟨['@', '#'], 10, .right, .add, by decide, by decide⟩
    let a : Name := ⟨['a'], by decide⟩
    let links : List Link := [⟨0, minus, 0, a⟩, ⟨1, plus, 0, a⟩, ⟨0, plus, 2, a⟩]
    ∃ g, ([minus, plus].map Infix.operator |>.map Grammar.Registration.operator).foldlM
        Grammar.register (named 600 [' ']) = .ok g
      ∧ ∃ program root, ∃ t : Grouping, g.parse (text a links) = .ok program
        ∧ program.statements = [⟨root, false⟩]
        ∧ t.Describes (program.forest.unfold root).bare a links ∧ t.Respects Infix.assoc := by
  intro minus plus a links
  obtain ⟨g, hregister, program, root, t, hparse, hstatements, hunique, -, hdeclared⟩ :=
    grouped_by_precedence 600 [' '] [minus, plus] a links (by decide) (by decide) (by decide)
      (by decide)
  exact ⟨g, hregister, program, root, t, hparse, hstatements, (hunique t).mpr rfl,
    hdeclared.mpr (by decide)⟩

/-- With the highest precedence a left-associative operator groups to the right. -/
theorem not_grouped_as_declared :
    let minus : Infix := ⟨['@'], 255, .left, .sub, by decide, by decide⟩
    let a : Name := ⟨['a'], by decide⟩
    let b : Name := ⟨['b'], by decide⟩
    let c : Name := ⟨['c'], by decide⟩
    let links : List Link := [⟨0, minus, 0, b⟩, ⟨0, minus, 0, c⟩]
    ∃ g, ([minus].map Infix.operator |>.map Grammar.Registration.operator).foldlM
        Grammar.register (named 600 [' ']) = .ok g
      ∧ text a links = "a @ b @ c".toList
      ∧ ∃ program root, ∃ t : Grouping, g.parse (text a links) = .ok program
        ∧ program.statements = [⟨root, false⟩]
        ∧ (∀ u : Grouping, u.Describes (program.forest.unfold root).bare a links ↔ u = t)
        ∧ ¬ t.Respects Infix.assoc := by
  intro minus a b c links
  obtain ⟨g, hregister, hg⟩ := exists_registered 600 [' '] [minus] (by decide) (by decide)
  obtain ⟨program, root, t, hparse, hstatements, hunique, hrespects, hinfixes⟩ :=
    hg.exists_grouping a links (by decide) (by decide)
  refine ⟨g, hregister, rfl, program, root, t, hparse, hstatements, hunique, fun hdeclared => ?_⟩
  have hchain := (Grouping.respects_declared_iff hrespects).mp hdeclared
  rw [hinfixes] at hchain
  exact absurd hchain (by decide)

end Chain

end MatrixScript
