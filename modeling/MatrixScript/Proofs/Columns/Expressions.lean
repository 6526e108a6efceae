import MatrixScript.Proofs.Columns.Forms
import MatrixScript.Proofs.Lines.Expressions

/-!
# Expressions in a row

The chain of operators is followed round by round. Outside of delimiters it ends in the row where it
ends in the element, at the mark that stands behind it there. An operator that was offered before
the element began is never understood in it, since it was offered further to the left.
-/

namespace MatrixScript

open Reading Grammar

/-! ### Operands -/

theorem Reader.At.afterOperand {r : Reader} {depth : Nat} (h : r.At depth) {f : Nat × Form}
    (hf : f ∈ Form.standard) (id : NodeId) : (r.afterOperand f.2 id).At depth := by
  have hall : ∀ f ∈ Form.standard, ∀ symbol ∈ f.2.premise, symbol = ['*'] := by decide
  refine ⟨h.compact, h.begun, fun q hq => ?_⟩
  rcases Option.or_eq_some_iff.mp hq with hq | ⟨-, hq⟩
  · obtain ⟨symbol, hsymbol, rfl⟩ := Option.map_eq_some_iff.mp hq
    exact ⟨hall f hf symbol hsymbol, Nat.le_refl _⟩
  · exact h.offered q hq

/-- Only the opening parenthesis of a call is a delimiter. -/
theorem Operator.eq_call_or {op : Operator} (hop : op ∈ Operator.standard) :
    op = Operator.call ∨ ∀ c ∈ op.symbol, c ∉ delimiters := by
  have hlast : Operator.standard = Operator.standard.dropLast ++ [Operator.call] := rfl
  have hall : ∀ op ∈ Operator.standard.dropLast, ∀ c ∈ op.symbol, c ∉ delimiters := by decide
  rw [hlast] at hop
  rcases List.mem_append.mp hop with hop | hop
  · exact .inr (hall op hop)
  · exact .inl (List.mem_singleton.mp hop)

namespace RowPlace

open Site (reader_movedTo reader_afterOperand reader_stored)

variable {E : RowPlace} {s s' : Surroundings} {z : Zone} {i : Nat} {r r₁ : Reader} {left : NodeId}
  {span span' : Span} {c d : Cursor} {flags : Flags} {mode : Mode} {b : Bool}

/-- In front of the mark behind the element there is no operand to be read in the element. -/
theorem findForm?_cursor (hz : z.Admits mode i) (h : z.Open c) (hc : c.rest ≠ [']']) :
    standard.findForm? (E.cursor c).rest mode.flags = standard.findForm? c.rest mode.flags := by
  obtain ⟨w, hw, hopen⟩ := h.cases hz
  obtain ⟨x, u, htail, hx⟩ := E.separated.mark
  have hne : w ≠ [] := by
    rintro rfl
    exact hc hw
  rw [rest_cursor hw, htail, hw]
  exact findForm?_mark hx (by decide) hne (hopen.symm.imp_left fun hmode => by rw [hmode.1]; rfl)

theorem operand_follows (h : E.Around s s') (hz : z.Admits s.mode i) (r : Reader) :
    E.Follows i i z.Open z.Open (standard.operand s) (standard.operand s') r := by
  intro hat id r₁ hrun
  obtain ⟨b, r₂, hskip, form, hform, r₃, hread, rfl⟩ := operand_eq_ok_iff.mp hrun
  obtain ⟨⟨priority, hmem⟩, haccepts⟩ := findForm?_eq_some hform
  obtain ⟨hleads, hat₂, hpassed⟩ := h.skip_follows hz r hat b r₂ hskip
  obtain ⟨hleads', hat₃, hfollows⟩ := form_follows h hz hmem haccepts hat₂ id r₃ hread
  refine ⟨(hleads.trans hleads').trans (.afterOperand r₃ form id), hat₃.afterOperand hmem id,
    fun hopen => ?_⟩
  obtain ⟨hopen₂, hread'⟩ := hfollows hopen
  have hne : r₂.cursor.rest ≠ [']'] := by
    intro hrest
    have hnone : standard.findForm? [']'] s.mode.flags = none := by
      cases s.mode <;> rfl
    rw [hrest, hnone] at hform
    cases hform
  obtain ⟨hopen₁, hskip'⟩ := hpassed ⟨hopen₂, hne⟩
  refine ⟨hopen₁, fun hfits => ?_⟩
  have hform' : standard.findForm? (E.reader r₂).cursor.rest s'.mode.flags = some form := by
    rw [h.mode]
    exact (findForm?_cursor hz hopen₂ hne).trans hform
  exact operand_eq_ok_iff.mpr ⟨b, E.reader r₂, hskip' (hfits.mono hleads'.size_le), form, hform',
    E.reader r₃, hread' hfits, reader_afterOperand (r := r₃) hfits form id⟩

/-! ### Operators -/

/-- Whether operators end is decided in the row as in the element, if the element does not end
there. -/
theorem endsOperators_cursor (hz : z.Admits mode i) (hcompact : Compact (.code i) c.rest)
    (hskips : standard.Skips mode.flags b c d) (h : z.Open d) (hd : d.rest ≠ [']']) :
    standard.endsOperators mode.flags b (E.cursor d).rest
      = standard.endsOperators mode.flags b d.rest := by
  obtain ⟨w, hw, hopen⟩ := h.cases hz
  obtain ⟨x, u, htail, hx⟩ := E.separated.mark
  have hne : w ≠ [] := by
    rintro rfl
    exact hd hw
  rw [rest_cursor hw, htail, hw]
  refine endsOperators_mark hx (by decide) hne (hopen.symm.imp_left fun hmode => ?_)
  obtain ⟨-, rfl⟩ := hmode
  exact (hskips.eq_of_settled (hcompact.settled _)).1

/-- The operator behind an operand is the same in the row. -/
theorem findOperator?_reader (hz : z.Admits mode i) (h : z.Open r.cursor)
    (hr : r.cursor.rest ≠ [']']) {start : Nat} (hstart : 0 < start) (spaced : Bool) :
    standard.findOperator? (E.reader r).cursor.rest
        (standard.premiseAt (E.reader r) mode.flags (start + E.bytes) spaced)
      = standard.findOperator? r.cursor.rest (standard.premiseAt r mode.flags start spaced) := by
  have hpremise : standard.premiseAt (E.reader r) mode.flags (start + E.bytes) spaced
      = standard.premiseAt r mode.flags start spaced := by
    refine Site.premiseAt_reader (findForm?_cursor hz h hr) (fun q hq => ?_) spaced
    have hstale := E.stale q hq
    omega
  obtain ⟨w, hw⟩ := h.fenced
  obtain ⟨x, u, htail, hx⟩ := E.separated.mark
  have hrest : (E.reader r).cursor.rest = w ++ x :: u := htail ▸ rest_cursor hw
  rw [hpremise, hrest, hw, findOperator?_mark hx, findOperator?_mark (by decide)]

theorem call_follows (h : E.Around s s') :
    E.Follows (i + 1) i z.Open z.Open (applyFixity s Operator.call left span)
      (applyFixity s' Operator.call (left.shift E.before.size) span') r := by
  simp only [applyFixity, Operator.call]
  refine Site.Follows.start (P := Within) ?_ Zone.open_of_within
  refine Follows.bind_fenced (z := z) (h.delimited_follows (by decide) rfl _ _ _ _ _ r)
    fun args r₁ _ => ?_
  have hpure := Site.Follows.pure (E := E.toSite) (I := (·.At i)) (Q := z.Open) (r := r₁)
    (NodeKind.call left args)
  have hcall : Numbered.shift E.before.size (NodeKind.call left args)
      = .call (left.shift E.before.size) (Numbered.shift E.before.size args) :=
    NodeKind.map_call _ _ _
  rwa [hcall] at hpure

/-- Every operator of the language is followed, from behind its symbol. -/
theorem applyFixity_follows (h : E.Around s s') (hz : z.Admits s.mode i) {op : Operator}
    (hop : op ∈ standard.operators) (hsymbol : ∀ c ∈ op.symbol, c ∉ delimiters) (span span' : Span)
    (r : Reader) :
    E.Follows i i z.Open z.Open (applyFixity s op left span)
      (applyFixity s' op (left.shift E.before.size) span') r := by
  have hmode := h.mode
  rcases Operator.standard_cases hop with ⟨symbol, o, rfl⟩ | rfl | rfl | rfl
    | ⟨symbol, p, a, o, rfl⟩ | ⟨symbol, p, o, rfl⟩
  · exact Site.assignment_follows hmode fun least => h.expression z i _ least r hz
  · exact Site.lambda_follows hmode fun least => h.expression z i _ least r hz
  · simp only [applyFixity, Operator.range, hmode]
    refine (h.expression z i _ _ r hz).bind fun right r₁ _ => ?_
    exact .pure (NodeKind.range left right)
  · exact absurd (hsymbol '(' (by decide)) (by decide)
  · simp only [applyFixity, Operator.binary, hmode]
    refine (h.expression z i _ _ r hz).bind fun right r₁ _ => ?_
    exact .pure (NodeKind.binary o left right)
  · exact .pure (NodeKind.unary o left)

/-- Behind the symbol of an operator so many brackets are open that the operator is followed. An
operator that is understood without being written is a multiplication. -/
theorem operator_follows (h : E.Around s s') (hz : z.Admits s.mode i) (hat : r.At i) {start : Nat}
    {found : OperatorMatch}
    (hfound : standard.findOperator? r.cursor.rest
      (standard.premiseAt r flags start b) = some found) :
    ∃ p w, r.cursor.rest = p ++ w ∧ found.bytes = byteCount p ∧ ∃ j, Compact (.code j) w
      ∧ ∀ span span' r₁, E.Follows j i z.Open z.Open (applyFixity s found.operator left span)
        (applyFixity s' found.operator (left.shift E.before.size) span') r₁ := by
  have hcompact := hat.compact
  unfold findOperator? at hfound
  split at hfound
  · rename_i op hfind
    cases hfound
    have hop := List.mem_of_find?_eq_some hfind
    have hprefix : op.symbol.isPrefixOf r.cursor.rest = true := by simpa using List.find?_some hfind
    obtain ⟨w, hw⟩ := List.isPrefixOf_iff_prefix.mp hprefix
    rw [← hw] at hcompact
    refine ⟨op.symbol, w, hw.symm, rfl, ?_⟩
    rcases Operator.eq_call_or (mem_standard_operators.mp hop) with rfl | hsymbol
    · exact ⟨i + 1, hcompact.next, fun span span' r₁ => call_follows h⟩
    · exact ⟨i, hcompact.pass hsymbol, applyFixity_follows h hz hop hsymbol⟩
  · obtain ⟨op, hpremise, rfl⟩ := Option.map_eq_some_iff.mp hfound
    obtain ⟨symbol, hoffer, hfind⟩ := Option.bind_eq_some_iff.mp hpremise
    have hstar : symbol = ['*'] := by
      unfold premiseAt at hoffer
      split at hoffer
      · cases hoffer
      · rename_i offered ended hq
        split at hoffer
        · cases hoffer
          exact (hat.offered _ hq).1
        · cases hoffer
    have hsymbol : op.symbol = symbol := by simpa using List.find?_some hfind
    refine ⟨[], r.cursor.rest, rfl, rfl, i, hcompact, ?_⟩
    refine applyFixity_follows h hz (List.mem_of_find?_eq_some hfind) ?_
    rw [hsymbol, hstar]
    decide

/-! ### Chains -/

/-- Where operators end in the element, they end in the row. -/
theorem chain_ends (h : E.Around s s') (hz : z.Admits s.mode i) (hat : r.At i)
    (hopen : z.Open r.cursor) (hskips : standard.Skips s.mode.flags b r.cursor d)
    (hends : standard.endsOperators s.mode.flags b d.rest = true) (least : UInt8) (n : Nat)
    (id : NodeId) : standard.chain s' least (n + 1) id (E.reader r) = .ok (id, E.reader r) := by
  have hskip' : s'.skip = standard.skip s.mode := by rw [Surroundings.skip, h.skip', h.mode]
  have hopen_d : z.Open d := hopen.of_skips hz hat.compact hskips
  suffices hfound : ∃ b' d', standard.Skips s.mode.flags b' (E.cursor r.cursor) d'
      ∧ standard.endsOperators s.mode.flags b' d'.rest = true by
    obtain ⟨b', d', hskips', hends'⟩ := hfound
    refine chain_eq_ok_iff.mpr ⟨b', (E.reader r).movedTo d', ?_, .inl ⟨?_, rfl, rfl⟩⟩
    · rw [hskip']
      exact skip_eq_ok_iff.mpr ⟨d', hskips', rfl⟩
    · rw [h.mode]
      exact hends'
  by_cases hd : d.rest = [']']
  · -- the element ends here
    cases z with
    | inner => exact absurd hd (rest_ne_of_within hopen_d)
    | outer =>
        obtain ⟨hmode, rfl⟩ := hz
        rw [(hskips.eq_of_settled (hat.compact.settled _)).2] at hd
        have hcursor : E.cursor r.cursor = ⟨(E.cursor r.cursor).offset, E.tail⟩ := by
          rw [cursor_eq, hd]
          rfl
        rw [hcursor, hmode]
        exact E.separated.ends _
  · exact ⟨b, E.cursor d, skips_open hz hat.compact hskips hopen_d hd,
      (endsOperators_cursor hz hat.compact hskips hopen_d hd).trans hends⟩

/-- An operator that goes on with the element is found in the row, too. -/
theorem operator_found (h : E.Around s s') (hz : z.Admits s.mode i) (hat : r.At i)
    (hopen : z.Open d) (hskips : standard.Skips s.mode.flags b r.cursor d)
    (hends : standard.endsOperators s.mode.flags b d.rest = false) {found : OperatorMatch}
    (hfound : standard.findOperator? d.rest
      (standard.premiseAt (r.movedTo d) s.mode.flags r.cursor.offset b) = some found) :
    s'.skip (E.reader r) = .ok (b, E.reader (r.movedTo d))
      ∧ standard.endsOperators s'.mode.flags b (E.reader (r.movedTo d)).cursor.rest = false
      ∧ standard.findOperator? (E.reader (r.movedTo d)).cursor.rest
        (standard.premiseAt (E.reader (r.movedTo d)) s'.mode.flags (r.cursor.offset + E.bytes) b)
          = some found := by
  have hd : d.rest ≠ [']'] := by
    intro hrest
    rw [hrest] at hends
    cases hends
  refine ⟨?_, ?_, ?_⟩
  · rw [Surroundings.skip, h.skip', h.mode]
    exact skip_eq_ok_iff.mpr ⟨E.cursor d, skips_open hz hat.compact hskips hopen hd, rfl⟩
  · rw [h.mode]
    exact (endsOperators_cursor hz hat.compact hskips hopen hd).trans hends
  · rw [h.mode]
    exact (findOperator?_reader (r := r.movedTo d) hz hopen hd hat.begun b).trans hfound

/-- An operator that has been applied in the element is applied in the row. -/
theorem operator_passed (h : E.Around s s') (hz : z.Admits s.mode i) (hat : r.At i)
    (hskips : standard.Skips s.mode.flags b r.cursor d) {found : OperatorMatch} {start : Nat}
    (hfound : standard.findOperator? d.rest
      (standard.premiseAt (r.movedTo d) s.mode.flags start b) = some found)
    {kind : NodeKind NodeId} {span : Span} {r₁ : Reader}
    (hkind : applyFixity s found.operator left span (r.movedTo (d.advance found.bytes))
      = .ok (kind, r₁)) :
    r.Leads r₁ ∧ r₁.At i ∧ (z.Open r₁.cursor → z.Open r.cursor ∧ z.Open d
      ∧ (E.Fits r₁.forest → ∀ span', applyFixity s' found.operator (left.shift E.before.size) span'
          ((E.reader r).movedTo ((E.cursor d).advance found.bytes))
        = .ok (Numbered.shift E.before.size kind, E.reader r₁))) := by
  obtain ⟨p, w, hp, hbytes, j, hcompact, happly⟩ :=
    operator_follows h hz (hat.skips hskips) hfound
  have hp : d.rest = p ++ w := hp
  have hreaches := hskips.reaches.trans (d.reaches_advance found.bytes)
  have hpassed : (r.movedTo (d.advance found.bytes)).At j := by
    refine hat.movedTo hreaches ?_
    rw [hbytes, Cursor.advance_append hp]
    exact hcompact
  have happlied (span' : Span) := happly span span' _ hpassed kind r₁ hkind
  obtain ⟨hleads, hat₁, -⟩ := happlied span
  refine ⟨(Reader.Leads.movedTo hreaches).trans hleads, hat₁, fun hopen => ?_⟩
  have hopen_passed := ((happlied span).2.2 hopen).1
  refine ⟨hopen_passed.of_reaches hreaches, hopen_passed.of_reaches (d.reaches_advance _),
    fun hfits span' => ?_⟩
  have hrun := ((happlied span').2.2 hopen).2 hfits
  have hadvance : E.cursor (d.advance found.bytes) = (E.cursor d).advance found.bytes := by
    have hfenced := hopen_passed.fenced
    rw [Reader.movedTo_cursor, hbytes] at hfenced
    rw [hbytes, (cursor_advance hp hfenced).2]
  rwa [reader_movedTo, hadvance] at hrun

theorem chain_follows (h : E.Around s s') (hz : z.Admits s.mode i) (least : UInt8) {n n' : Nat}
    (hn : n ≤ n') (hleft : r.Holds left) :
    E.Follows i i z.Open z.Open (standard.chain s least n left)
      (standard.chain s' least n' (left.shift E.before.size)) r := by
  induction n generalizing n' left r with
  | zero => exact .of_fails fun p => fail_ne_ok (r := r)
  | succ n ih =>
      obtain ⟨n', rfl⟩ : ∃ m, n' = m + 1 := ⟨n' - 1, by omega⟩
      have hn : n ≤ n' := Nat.le_of_succ_le_succ hn
      intro hat id r₁ hrun
      obtain ⟨spaced, r₂, hskip, hcases⟩ := chain_eq_ok_iff.mp hrun
      rw [Surroundings.skip, h.skip] at hskip
      obtain ⟨d, hskips, rfl⟩ := skip_eq_ok_iff.mp hskip
      simp only [Reader.movedTo_cursor, Reader.movedTo_forest, Reader.movedTo_movedTo,
        Reader.movedTo_self] at hcases
      rcases hcases with ⟨hends, rfl, rfl⟩ | ⟨hends, found, hfound, hcases⟩
      · exact ⟨.refl _, hat, fun hopen => ⟨hopen, fun _ =>
          chain_ends h hz hat hopen hskips hends least n' _⟩⟩
      rcases hcases with ⟨hlow, rfl, rfl⟩ | ⟨hhigh, kind, r₃, hkind, hchain⟩
      · -- the operator is left to an outer chain
        refine ⟨.refl _, hat, fun hopen => ⟨hopen, fun _ => ?_⟩⟩
        obtain ⟨hskip', hends', hfound'⟩ :=
          operator_found h hz hat (hopen.of_skips hz hat.compact hskips) hskips hends hfound
        exact chain_eq_ok_iff.mpr ⟨spaced, _, hskip',
          .inr ⟨hends', found, hfound', .inl ⟨hlow, rfl, rfl⟩⟩⟩
      · -- the operator is applied, and the chain goes on behind it
        obtain ⟨hleads, hat₃, hfollows⟩ := operator_passed h hz hat hskips hfound hkind
        obtain ⟨hmore, hat₁, hchained⟩ :=
          ih hn (r₃.holds_afterOperator kind _) (hat₃.afterOperator kind _) id r₁ hchain
        have hstored := (Reader.Leads.afterOperator r₃ kind _).trans hmore
        refine ⟨hleads.trans hstored, hat₁, fun hopen => ?_⟩
        obtain ⟨hopen₃, hchain'⟩ := hchained hopen
        obtain ⟨hopen_r, hopen_d, hkind'⟩ := hfollows hopen₃
        refine ⟨hopen_r, fun hfits => ?_⟩
        obtain ⟨hskip', hends', hfound'⟩ := operator_found h hz hat hopen_d hskips hends hfound
        obtain ⟨hnode, hnext⟩ := reader_stored (hfits.mono hmore.size_le) hleft hleads rfl
        have hchain' := hchain' hfits
        rw [hnode, ← hnext] at hchain'
        exact chain_eq_ok_iff.mpr ⟨spaced, E.reader (r.movedTo d), hskip', .inr ⟨hends', found,
          hfound', .inr ⟨hhigh, _, E.reader r₃, hkind' (hfits.mono hstored.size_le) _, hchain'⟩⟩⟩

/-! ### Expressions -/

/-- What the expressions of the language give are nodes of the text. -/
theorem finds_standard (mode : Mode) (fuel : Nat) :
    Surroundings.Finds ⟨mode, standard.skip, standard.expression fuel⟩ :=
  (Place.around_standard (E := ⟨⟨0, Forest.empty, none, []⟩, nofun, .inl rfl, nofun⟩)
    (Nat.le_refl fuel) mode).2

/-- The whole language is followed in a row. -/
theorem around_standard {fuel fuel' : Nat} (hfuel : fuel ≤ fuel') (mode : Mode) :
    E.Around ⟨mode, standard.skip, standard.expression fuel⟩
      ⟨mode, standard.skip, standard.expression fuel'⟩ := by
  induction fuel generalizing fuel' mode with
  | zero =>
      exact ⟨rfl, rfl, rfl, fun z i mode least r _ => .of_fails fun p => fail_ne_ok (r := r)⟩
  | succ fuel ih =>
      obtain ⟨fuel', rfl⟩ : ∃ n, fuel' = n + 1 := ⟨fuel' - 1, by omega⟩
      have hfuel : fuel ≤ fuel' := Nat.le_of_succ_le_succ hfuel
      refine ⟨rfl, rfl, rfl, fun z i mode least r hz => ?_⟩
      change E.Follows i i z.Open z.Open (standard.expression (fuel + 1) mode least)
        (standard.expression (fuel' + 1) mode least) r
      rw [expression, expression]
      refine (operand_follows (ih hfuel mode) hz r).bind fun left r₁ hleft => .flow_bind ?_ ?_
      · exact .pure left
      · exact Follows.rounds_bind fun n n' hn => chain_follows (ih hfuel mode) hz least hn
          (Place.operand_holds (finds_standard mode fuel) hleft)

end RowPlace

end MatrixScript
