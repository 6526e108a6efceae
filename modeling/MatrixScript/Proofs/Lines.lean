import MatrixScript.Proofs.Crowds
import MatrixScript.Proofs.Layout.Gathered
import MatrixScript.Proofs.Layout.Programs
import MatrixScript.Proofs.Lines.Expressions
import MatrixScript.Proofs.Reading.Flow

/-!
# Texts of several lines

A text that can be read by itself can be read in front of other lines, and behind them. What is read
of the whole is what was read of its parts, one after the other. The first part hands over to the
second at the newline between them: whatever the first part still had to see there, it also sees at
its end. What the second part takes over is the operator that the last operand offered, which is of
no use any more, and whether that operand was control flow, which nothing looks at.
-/

namespace MatrixScript

open Reading Grammar

/-! ### What a text starts with -/

namespace Grammar

variable {r r₁ : Reader}

/-- An operand starts behind text without meaning, and not with the word `else`. -/
theorem arrives_of_operand {s : Surroundings} (hs : s.skipIn = standard.skip) {id : NodeId}
    (hrun : standard.operand s r = .ok (id, r₁)) :
    ∃ d, Arrives r.cursor d ∧ ¬Dangling d.rest
      ∧ startsWithWord ['e', 'l', 's', 'e'] d.rest = false := by
  obtain ⟨b, r₂, hskip, form, hform, -⟩ := operand_eq_ok_iff.mp hrun
  rw [Surroundings.skip, hs] at hskip
  obtain ⟨d, hskips, rfl⟩ := skip_eq_ok_iff.mp hskip
  have hnone {x : Char} {v : List Char} (hx : x ∈ triggers) : d.rest ≠ x :: v := by
    intro hd
    rw [Reader.movedTo_cursor, hd, findForm?_trigger hx] at hform
    cases hform
  have hline : d.peek? ≠ some '\n' := by
    intro hpeek
    obtain ⟨v, hv⟩ := Cursor.rest_of_peek? hpeek
    exact hnone (by decide) hv
  refine ⟨d, .of_skips hskips ⟨false, .stop (hskips.settled.change hline _)⟩, ?_, ?_⟩
  · rintro ⟨blanks, hblanks, -⟩
    exact hnone (by decide) hblanks
  · refine Bool.eq_false_iff.mpr fun helse => ?_
    rw [Reader.movedTo_cursor, findForm?_else helse] at hform
    cases hform

theorem arrives_of_expression {fuel : Nat} {mode : Mode} {least : UInt8} {id : NodeId}
    (hrun : standard.expression fuel mode least r = .ok (id, r₁)) :
    ∃ d, Arrives r.cursor d ∧ ¬Dangling d.rest
      ∧ startsWithWord ['e', 'l', 's', 'e'] d.rest = false := by
  cases fuel with
  | zero => exact absurd hrun (fail_ne_ok (r := r))
  | succ fuel =>
      obtain ⟨left, r₂, hleft, -⟩ := expression_eq_ok_iff.mp hrun
      exact arrives_of_operand rfl hleft

/-- Statements up to the end of a text start with one, or with nothing. -/
theorem arrives_of_statementList {fuel k : Nat} {found ts : List Statement}
    (hrun : Surroundings.statementList ⟨.statement, standard.skip, standard.expression fuel⟩ none k
      found r = .ok (ts, r₁)) :
    ∃ d, Arrives r.cursor d ∧ ¬Dangling d.rest
      ∧ startsWithWord ['e', 'l', 's', 'e'] d.rest = false := by
  induction k generalizing found r with
  | zero => exact absurd hrun (fail_ne_ok (r := r))
  | succ k ih =>
      obtain ⟨b, r₂, hskip, hcases⟩ := Surroundings.statementList_eq_ok_iff.mp hrun
      obtain ⟨c, hskips, rfl⟩ := skip_eq_ok_iff.mp hskip
      rw [Reader.movedTo_cursor] at hcases
      rcases hcases with ⟨hend, -⟩ | ⟨x, hx, -, ⟨rfl | rfl, hmore⟩ | ⟨-, root, r₃, hroot, -⟩⟩
      · have hrest : c.rest = [] := List.head?_eq_none_iff.mp (or_self_iff.mp hend)
        refine ⟨c, .of_skips hskips (arrives_of_rest_eq_nil hrest), ?_, ?_⟩
        · rintro ⟨blanks, hblanks, -⟩
          rw [hrest] at hblanks
          cases hblanks
        · rw [hrest]
          rfl
      · obtain ⟨w, hw⟩ := Cursor.rest_of_peek? hx
        refine ⟨c, .of_skips hskips (arrives_self hx (by decide)), ?_, ?_⟩
        · rintro ⟨blanks, hblanks, -⟩
          rw [hw] at hblanks
          cases hblanks
        · rw [hw]
          rfl
      · obtain ⟨d, harrives, hd⟩ := ih hmore
        exact ⟨d, .of_skips hskips (.of_next hx harrives), hd⟩
      · obtain ⟨d, harrives, hd⟩ := arrives_of_expression hroot
        exact ⟨d, .of_skips hskips harrives, hd⟩

theorem finished_of_statementList {fuel k : Nat} {found ts : List Statement}
    (hrun : Surroundings.statementList ⟨.statement, standard.skip, standard.expression fuel⟩ none k
      found r = .ok (ts, r₁)) : Finished true r.cursor := by
  obtain ⟨d, harrives, hdangling, -⟩ := arrives_of_statementList hrun
  exact ⟨d, harrives, hdangling, fun _ => rfl⟩

end Grammar

/-! ### Lists of statements -/

namespace Surroundings

variable {s : Surroundings} {close : Option Char} {k : Nat} {found ts : List Statement}
  {r r₁ : Reader}

/-- What was found before goes in front of what is found. -/
theorem statementList_append (more : List Statement)
    (hrun : s.statementList close k found r = .ok (ts, r₁)) :
    s.statementList close k (found ++ more) r = .ok (more.reverse ++ ts, r₁) := by
  induction k generalizing found r with
  | zero => exact absurd hrun (fail_ne_ok (r := r))
  | succ k ih =>
      obtain ⟨b, r₂, hskip, hcases⟩ := statementList_eq_ok_iff.mp hrun
      refine statementList_eq_ok_iff.mpr ⟨b, r₂, hskip, ?_⟩
      rcases hcases with ⟨hend, rfl, rfl⟩ | ⟨x, hx, hclose, ⟨hsep, hmore⟩
        | ⟨hsep, root, r₃, hroot, e, r₄, hskip', muted, r₅, hmuted, hmore⟩⟩
      · exact .inl ⟨hend, List.reverse_append.symm, rfl⟩
      · exact .inr ⟨x, hx, hclose, .inl ⟨hsep, ih hmore⟩⟩
      · exact .inr ⟨x, hx, hclose, .inr ⟨hsep, root, r₃, hroot, e, r₄, hskip', muted, r₅, hmuted,
          ih hmore⟩⟩

/-- More rounds than are needed change nothing. -/
theorem statementList_mono {k' : Nat} (hk : k ≤ k')
    (hrun : s.statementList close k found r = .ok (ts, r₁)) :
    s.statementList close k' found r = .ok (ts, r₁) := by
  induction k generalizing k' found r with
  | zero => exact absurd hrun (fail_ne_ok (r := r))
  | succ k ih =>
      obtain ⟨k', rfl⟩ : ∃ j, k' = j + 1 := ⟨k' - 1, by omega⟩
      have hk : k ≤ k' := Nat.le_of_succ_le_succ hk
      obtain ⟨b, r₂, hskip, hcases⟩ := statementList_eq_ok_iff.mp hrun
      refine statementList_eq_ok_iff.mpr ⟨b, r₂, hskip, ?_⟩
      rcases hcases with hend | ⟨x, hx, hclose, ⟨hsep, hmore⟩
        | ⟨hsep, root, r₃, hroot, e, r₄, hskip', muted, r₅, hmuted, hmore⟩⟩
      · exact .inl hend
      · exact .inr ⟨x, hx, hclose, .inl ⟨hsep, ih hk hmore⟩⟩
      · exact .inr ⟨x, hx, hclose, .inr ⟨hsep, root, r₃, hroot, e, r₄, hskip', muted, r₅, hmuted,
          ih hk hmore⟩⟩

/-- Up to the end of the text means up to its last character. -/
theorem rest_of_statementList (hrun : s.statementList none k found r = .ok (ts, r₁)) :
    r₁.cursor.rest = [] := by
  induction k generalizing found r with
  | zero => exact absurd hrun (fail_ne_ok (r := r))
  | succ k ih =>
      obtain ⟨b, r₂, hskip, hcases⟩ := statementList_eq_ok_iff.mp hrun
      rcases hcases with ⟨hend, -, rfl⟩ | ⟨x, -, -, ⟨-, hmore⟩
        | ⟨-, root, r₃, -, e, r₄, -, muted, r₅, -, hmore⟩⟩
      · exact List.head?_eq_none_iff.mp (or_self_iff.mp hend)
      · exact ih hmore
      · exact ih hmore

end Surroundings

namespace Place

open Site (reader_movedTo)

variable {E : Place} {fuel fuel' k m : Nat} {found ts ts' : List Statement} {r r₁ r' : Reader}
  {u : List Char}

/-- At the end of the text there is nothing left to find. -/
theorem statementList_end {r r₁ : Reader} (hrest : r.cursor.rest = [])
    (hrun : Surroundings.statementList ⟨.statement, standard.skip, standard.expression fuel⟩ none k
      found r = .ok (ts, r₁)) : ts = found.reverse ∧ r₁ = r := by
  cases k with
  | zero => exact absurd hrun (fail_ne_ok (r := r))
  | succ k =>
      obtain ⟨b, r₂, hskip, hcases⟩ := Surroundings.statementList_eq_ok_iff.mp hrun
      obtain ⟨c, hskips, rfl⟩ := skip_eq_ok_iff.mp hskip
      obtain ⟨-, rfl⟩ := hskips.eq_of_settled (settled_of_rest_eq_nil hrest)
      rcases hcases with ⟨-, hts, hr₁⟩ | ⟨x, hx, -⟩
      · exact ⟨hts, hr₁⟩
      · rw [Reader.movedTo_cursor, Cursor.peek?, hrest] at hx
        cases hx

/-- Where a line ends and more lines follow, a newline is seen. -/
theorem peek?_line {c : Cursor} (htail : E.tail = '\n' :: u) (hrest : c.rest = []) :
    (E.cursor c).peek? = some '\n' := by
  rw [Cursor.peek?, cursor_eq, hrest, htail]
  rfl

/-- A line that more lines follow ends a statement as the end of a text does. -/
theorem statementEnd_line (htail : E.tail = '\n' :: u) (hrest : r.cursor.rest = []) :
    Surroundings.statementEnd none (E.reader r)
      = .ok (false, (E.reader r).movedTo (E.cursor r.cursor).next) :=
  Surroundings.statementEnd_eq_ok_iff.mpr (.inr ⟨.inr ⟨peek?_line htail hrest, rfl⟩, rfl⟩)

/-- Where a text ends no statement is muted. -/
theorem statementEnd_end {muted : Bool} (hpeek : r.cursor.peek? = none)
    (hend : Surroundings.statementEnd none r = .ok (muted, r₁)) : muted = false ∧ r₁ = r := by
  rcases Surroundings.statementEnd_eq_ok_iff.mp hend with ⟨-, hsame⟩
    | ⟨⟨hpeek', -⟩ | ⟨hpeek', -⟩, -⟩
  · exact hsame
  · rw [hpeek] at hpeek'
    cases hpeek'
  · rw [hpeek] at hpeek'
    cases hpeek'

/-- A statement ends clear of what stands behind the text if the statements behind it are read. -/
theorem clear_of_statementEnd {muted : Bool} {r₂ : Reader}
    (hend : Surroundings.statementEnd none r = .ok (muted, r₂))
    (hrun : Surroundings.statementList ⟨.statement, standard.skip, standard.expression fuel⟩ none k
      found r₂ = .ok (ts, r₁)) : E.Clear true r.cursor := by
  rcases Surroundings.statementEnd_eq_ok_iff.mp hend with ⟨-, -, rfl⟩
    | ⟨⟨hpeek, -⟩ | ⟨hpeek, -⟩, rfl⟩
  · exact .inr (finished_of_statementList hrun)
  · exact clear_of_peek? hpeek (by decide)
  · exact .inr (.of_next hpeek (finished_of_statementList hrun))

/-- The statements of a line are followed, and then what can be read behind the line. -/
theorem statementList_line (hfuel : fuel ≤ fuel') (htail : E.tail = '\n' :: u)
    (hrun : Surroundings.statementList ⟨.statement, standard.skip, standard.expression fuel⟩ none k
      found r = .ok (ts, r₁)) (hfits : E.Fits r₁.forest)
    (hmore : Surroundings.statementList ⟨.statement, standard.skip, standard.expression fuel'⟩ none m
      (Numbered.shift E.before.size ts : List Statement).reverse
      ((E.reader r₁).movedTo (E.cursor r₁.cursor).next) = .ok (ts', r')) :
    Surroundings.statementList ⟨.statement, standard.skip, standard.expression fuel'⟩ none (k + m)
      (Numbered.shift E.before.size found) (E.reader r) = .ok (ts', r') := by
  have haround := (around_standard (E := E) hfuel .statement).1
  have hdone (found : List Statement) : (Numbered.shift E.before.size found.reverse
      : List Statement).reverse = Numbered.shift E.before.size found := by
    rw [Numbered.shift_reverse, List.reverse_reverse]
  induction k generalizing found r with
  | zero => exact absurd hrun (fail_ne_ok (r := r))
  | succ k ih =>
      obtain ⟨b, r₂, hskip, hcases⟩ := Surroundings.statementList_eq_ok_iff.mp hrun
      obtain ⟨-, -, hpassed⟩ := haround.skip_follows true (fun _ => rfl) r trivial b r₂ hskip
      rw [Nat.add_right_comm]
      refine Surroundings.statementList_eq_ok_iff.mpr ⟨b, E.reader r₂, ?_⟩
      rcases hcases with ⟨hend, rfl, rfl⟩ | ⟨x, hx, -, ⟨hsep, hrun⟩
        | ⟨hsep, root, r₃, hroot, e, r₄, hskip', muted, r₅, hmuted, hrun⟩⟩
      · -- the text ends here, and the next line is read on
        have hrest : r₁.cursor.rest = [] := List.head?_eq_none_iff.mp (or_self_iff.mp hend)
        have hmore := Surroundings.statementList_mono (Nat.le_add_left m k) hmore
        rw [hdone] at hmore
        exact ⟨(hpassed (.inr (finished_of_rest_eq_nil hrest))).2 hfits,
          .inr ⟨'\n', peek?_line htail hrest, nofun, .inl ⟨.inr rfl, hmore⟩⟩⟩
      · -- a separator
        have hfollows :=
          (haround.statementList_follows none (Nat.le_refl k) found _ trivial ts r₁ hrun).1
        have hclear : E.Clear true r₂.cursor := by
          rcases hsep with rfl | rfl
          · exact clear_of_peek? hx (by decide)
          · exact .inr (.of_next hx (finished_of_statementList hrun))
        refine ⟨(hpassed hclear).2 (hfits.mono hfollows.size_le),
          .inr ⟨x, peek?_of_some hx, nofun, .inl ⟨hsep, ?_⟩⟩⟩
        have hrun' := ih hrun
        rw [reader_movedTo, cursor_next hx] at hrun'
        exact hrun'
      · -- a statement, which may be the last of the text
        obtain ⟨hled, -, hrooted⟩ := haround.any_follows r₂ trivial root r₃ hroot
        obtain ⟨hled', -, hpassed'⟩ :=
          haround.skip_follows true (fun _ => rfl) r₃ trivial e r₄ hskip'
        have hled₅ := (statementEnd_follows (E := E) none r₄ trivial muted r₅ hmuted).1
        have hled₁ :=
          (haround.statementList_follows none (Nat.le_refl k) _ r₅ trivial ts r₁ hrun).1
        have hfits₄ : E.Fits r₄.forest := hfits.mono (hled₅.trans hled₁).size_le
        have hfits₃ := hfits₄.mono hled'.size_le
        obtain ⟨hclear₃, hskip''⟩ := hpassed' (clear_of_statementEnd hmuted hrun)
        obtain ⟨hclear₂, hroot'⟩ := hrooted hclear₃
        refine ⟨(hpassed hclear₂.mono).2 (hfits₃.mono hled.size_le),
          .inr ⟨x, peek?_of_some hx, nofun, .inr ⟨hsep, root.shift E.before.size, E.reader r₃,
            hroot' hfits₃, e, E.reader r₄, hskip'' hfits₄, muted, ?_⟩⟩⟩
        cases hpeek : r₄.cursor.peek? with
        | some y =>
            have hsame : (E.cursor r₄.cursor).peek? = r₄.cursor.peek? := by
              rw [hpeek, peek?_of_some hpeek]
            exact ⟨_, statementEnd_reader hsame hmuted, ih hrun⟩
        | none =>
            have hrest : r₄.cursor.rest = [] := List.head?_eq_none_iff.mp hpeek
            obtain ⟨rfl, rfl⟩ := statementEnd_end hpeek hmuted
            obtain ⟨rfl, rfl⟩ := statementList_end hrest hrun
            have hmore := Surroundings.statementList_mono (Nat.le_add_left m k) hmore
            rw [hdone] at hmore
            exact ⟨_, statementEnd_line htail hrest, hmore⟩

/-- A text that nothing stands behind. -/
def ofEnd (bytes : Nat) (before : Forest) (earlier : Option (List Char × Nat))
    (stale : ∀ q ∈ earlier, q.2 < bytes) : Place where
  bytes
  before
  earlier
  tail := []
  stale
  endsLine := .inl rfl
  passable h := absurd rfl h

/-- Where something starts does not depend on how far to the right the text stands. -/
theorem arrives_later {c d : Cursor} (h : Arrives c d) (n : Nat) :
    Arrives ⟨c.offset + n, c.rest⟩ ⟨d.offset + n, d.rest⟩ := by
  obtain ⟨b, hskips⟩ := h
  have hclear : (ofEnd n .empty none nofun).Clear false d := .inl rfl
  have hmoved := hclear.skips nofun hskips
  rw [cursor_eq, cursor_eq, ofEnd, List.append_nil, List.append_nil] at hmoved
  exact ⟨b, hmoved⟩

/-- A text at the start of a longer one, in front of lines that can be read. -/
def ofStart (u : List Char) (hpassable : ∃ d, Arrives (.ofText u) d
    ∧ startsWithWord ['e', 'l', 's', 'e'] d.rest = false) : Place where
  bytes := 0
  before := .empty
  earlier := none
  tail := '\n' :: u
  stale := nofun
  endsLine := .inr ⟨u, rfl⟩
  passable _ n := by
    obtain ⟨d, harrives, hd⟩ := hpassable
    have hnext : Cursor.next ⟨n, '\n' :: u⟩ = ⟨0 + (n + 1), u⟩ := by
      rw [Nat.zero_add]
      rfl
    refine ⟨⟨d.offset + (n + 1), d.rest⟩, .of_next rfl ?_, hd⟩
    rw [hnext]
    exact arrives_later harrives (n + 1)

theorem ofStart_cursor (u : List Char) (h) (c : Cursor) :
    (ofStart u h).cursor c = ⟨c.offset, c.rest ++ '\n' :: u⟩ := rfl

theorem ofStart_reader (u : List Char) (h) (r : Reader) :
    (ofStart u h).reader r
      = { r with cursor := ⟨r.cursor.offset, r.cursor.rest ++ '\n' :: u⟩ } := by
  have hforest : (ofStart u h).forest r.forest = r.forest := Forest.empty_followedBy r.forest
  have hpremise : (r.premise.map fun q => (q.1, q.2 + 0)).or none = r.premise := by
    rw [Option.or_none]
    exact Option.map_id_apply
  rw [Site.reader, hforest]
  exact congrArg (Reader.mk _ _ · _) hpremise

theorem ofEnd_reader (bytes : Nat) (before : Forest) (earlier : Option (List Char × Nat)) (h)
    (text : List Char) : (ofEnd bytes before earlier h).reader (.ofText text)
      = ⟨⟨bytes, text⟩, before, earlier, false⟩ := by
  have hforest : (ofEnd bytes before earlier h).forest .empty = before :=
    Forest.followedBy_empty before bytes
  have hcursor : (ofEnd bytes before earlier h).cursor (.ofText text) = ⟨bytes, text⟩ := by
    rw [cursor_eq, ofEnd, List.append_nil]
    exact congrArg (Cursor.mk · text) (Nat.zero_add bytes)
  rw [Site.reader, Reader.ofText, hforest, hcursor]
  rfl

end Place

namespace Grammar

variable {s₁ s₂ : List Char} {p q : Program}

/-- Two texts on lines of their own are read one after the other. -/
theorem parse_followedBy (h₁ : standard.parse s₁ = .ok p) (h₂ : standard.parse s₂ = .ok q)
    (hroom : p.forest.size + q.forest.size ≤ 4294967295) :
    standard.parse (s₁ ++ '\n' :: s₂) = .ok (p.followedBy (byteCount s₁ + 1) q) := by
  obtain ⟨ts, r₁, hrun₁, rfl⟩ := exists_of_parse h₁
  obtain ⟨us, r₂, hrun₂, rfl⟩ := exists_of_parse h₂
  dsimp only at hroom
  have hlength : (s₁ ++ '\n' :: s₂).length = s₁.length + (s₂.length + 1) := List.length_append
  have hfuel₁ : s₁.length + 1 ≤ (s₁ ++ '\n' :: s₂).length + 1 := by omega
  have hfuel₂ : s₂.length + 1 ≤ (s₁ ++ '\n' :: s₂).length + 1 := by omega
  obtain ⟨d, harrives, -, hd⟩ := arrives_of_statementList hrun₂
  let E₁ := Place.ofStart s₂ ⟨d, harrives, hd⟩
  have hled₁ := ((Place.around_standard (E := E₁) hfuel₁ .statement).1.statementList_follows none
    (Nat.le_refl _) [] _ trivial ts r₁ hrun₁).1
  have hrest := Surroundings.rest_of_statementList hrun₁
  have hoffset : r₁.cursor.offset = byteCount s₁ := by
    obtain ⟨w, hw, hoffset⟩ := hled₁.reaches
    rw [hrest, List.append_nil] at hw
    rw [hoffset, ← hw]
    exact Nat.zero_add _
  have hstale : ∀ q ∈ r₁.premise, q.2 < byteCount s₁ + 1 := by
    intro q hq
    rcases hled₁.offer q hq with hq | hle
    · cases hq
    · rw [hrest, byteCount_nil, hoffset] at hle
      omega
  let E₂ := Place.ofEnd (byteCount s₁ + 1) r₁.forest r₁.premise hstale
  -- what the first text leaves is what the second one starts with, but for the control flow
  have hturn : (E₁.reader r₁).movedTo (E₁.cursor r₁.cursor).next
      = (E₂.reader (.ofText s₂)).flowing r₁.afterControlFlow := by
    rw [Place.ofStart_reader, Place.ofEnd_reader, Place.ofStart_cursor, hrest, hoffset]
    rfl
  have hfits₂ : E₂.Fits r₂.forest := hroom
  have hsecond := ((Place.around_standard (E := E₂) hfuel₂ .statement).1.statementList_follows none
    (Nat.le_refl _) [] _ trivial us r₂ hrun₂).2.2 (.inl rfl)
  obtain ⟨flow, hsecond⟩ := (standard_renews .statement _).statementList none _ _ _ _ _
    (hsecond.2 hfits₂) r₁.afterControlFlow
  have hold : Numbered.shift E₁.before.size ts = ts := by
    have hsame (t : Statement) : Numbered.shift 0 t = t := by
      change (⟨t.root.shift 0, t.muted⟩ : Statement) = t
      rw [NodeId.shift_zero]
    exact List.map_id'' hsame ts
  have hfits₁ : E₁.Fits r₁.forest := by
    have hempty : E₁.before.size = 0 := rfl
    unfold Site.Fits
    omega
  have hall := Place.statementList_line hfuel₁ rfl hrun₁ hfits₁ (by
    have hmore := Surroundings.statementList_append ts.reverse hsecond
    rw [hold, hturn]
    exact hmore)
  have hrounds : (Reader.ofText s₁).cursor.rest.length + 1
      + ((Reader.ofText s₂).cursor.rest.length + 1) = (s₁ ++ '\n' :: s₂).length + 1 := by
    have hrest₁ : (Reader.ofText s₁).cursor.rest = s₁ := rfl
    have hrest₂ : (Reader.ofText s₂).cursor.rest = s₂ := rfl
    rw [hrest₁, hrest₂]
    omega
  rw [hrounds, Place.ofStart_reader, List.reverse_reverse] at hall
  exact parse_of_statements hall

/-- Texts on lines of their own are read as they are by themselves, the second one behind the nodes
and bytes of the first. As long as offsets do not run out, its spans are further to the right by
that many bytes. There has to be a number for every node of both, and there is one unless the texts
have about 2^31 characters: a text has at most two nodes for each. -/
theorem parse_lines (h₁ : standard.parse s₁ = .ok p) (h₂ : standard.parse s₂ = .ok q)
    (hroom : p.forest.size + q.forest.size ≤ 4294967295) :
    ∃ program, standard.parse (s₁ ++ '\n' :: s₂) = .ok program
      ∧ program = p.followedBy (byteCount s₁ + 1) q
      ∧ program.statements.map (fun t => (program.forest.unfold t.root, t.muted))
        = p.statements.map (fun t => (p.forest.unfold t.root, t.muted))
          ++ q.statements.map (fun t =>
            ((q.forest.unfold t.root).mapSpans (Span.shift (byteCount s₁ + 1)), t.muted))
      ∧ (byteCount s₁ + 1 + byteCount s₂ < 4294967296 → ∀ node ∈ q.forest.nodes,
          (node.span.shift (byteCount s₁ + 1)).start.toNat
              = node.span.start.toNat + (byteCount s₁ + 1)
            ∧ (node.span.shift (byteCount s₁ + 1)).stop.toNat
              = node.span.stop.toNat + (byteCount s₁ + 1)) := by
  refine ⟨_, parse_followedBy h₁ h₂ hroom, rfl, ?_, fun hbytes node hnode => ?_⟩
  · obtain ⟨hlinked₁, hroots₁⟩ := linked_of_parse h₁
    obtain ⟨hlinked₂, hroots₂⟩ := linked_of_parse h₂
    rw [Program.followedBy, List.map_append, List.map_map]
    congr 1
    · refine List.map_congr_left fun t ht => ?_
      rw [Forest.unfold_followedBy_of_lt hlinked₁ hroom _ (hroots₁ t ht)]
    · refine List.map_congr_left fun t ht => ?_
      rw [Function.comp_apply, Forest.unfold_followedBy hlinked₂ hroom _ (hroots₂ t ht)]
  · obtain ⟨hproper, hstop⟩ := span_of_parse (by omega) h₂ hnode
    rw [Span.shift_start, Span.shift_stop]
    omega

/-- A branch waits for its `else`, a name for an operator, and both for what ends the line. -/
theorem parse_lines_branch : ∃ p q, standard.parse "if (a) b".toList = .ok p
    ∧ standard.parse "-c;".toList = .ok q ∧ p.forest.size + q.forest.size ≤ 4294967295
    ∧ standard.parse "if (a) b\n-c;".toList = .ok (p.followedBy 9 q) := by
  have h₁ : standard.parse "if (a) b".toList = .ok ⟨⟨#[⟨.name "a", ⟨4, 5⟩⟩, ⟨.name "b", ⟨7, 8⟩⟩,
      ⟨.branch ⟨0⟩ ⟨1⟩ .absent, ⟨0, 8⟩⟩]⟩, [⟨⟨2⟩, false⟩]⟩ := by decide +kernel
  have h₂ : standard.parse "-c;".toList = .ok ⟨⟨#[⟨.name "c", ⟨1, 2⟩⟩, ⟨.unary .neg ⟨0⟩, ⟨0, 2⟩⟩]⟩,
      [⟨⟨1⟩, true⟩]⟩ := by decide +kernel
  have hroom : 3 + 2 ≤ 4294967295 := by decide
  obtain ⟨program, hparse, rfl, -⟩ := parse_lines h₁ h₂ hroom
  exact ⟨_, _, h₁, h₂, hroom, hparse⟩

/-- Where there are more nodes than numbers, the root of the second line has the number of a digit
on that line, and the tree of the statement is that digit. -/
theorem not_parse_lines : ¬∀ (s₁ s₂ : List Char) (p q program : Program),
    byteCount (s₁ ++ '\n' :: s₂) < 4294967296 → standard.parse s₁ = .ok p →
    standard.parse s₂ = .ok q → standard.parse (s₁ ++ '\n' :: s₂) = .ok program →
      program.statements.map (fun t => ((program.forest.unfold t.root).bare, t.muted))
        = p.statements.map (fun t => ((p.forest.unfold t.root).bare, t.muted))
          ++ q.statements.map (fun t => ((q.forest.unfold t.root).bare, t.muted)) := by
  intro h
  have hshort : byteCount (Crowd.guarded Crowd.bulk ++ '\n' :: Crowd.guarded 1) < 4294967296 := by
    rw [Crowd.byteCount_guarded_lines]
    decide
  obtain ⟨f, hwhole, -, -, -, hdigit, -⟩ := Crowd.parse_crowd
  obtain ⟨f₁, hfirst, -⟩ := Crowd.parse_guarded (n := Crowd.bulk) (by decide)
  obtain ⟨f₂, hsecond, -, hor⟩ := Crowd.parse_guarded (n := 1) (by decide)
  obtain ⟨cs, hread⟩ := Forest.exists_bare_unfold hdigit
  obtain ⟨cs₂, halone⟩ := Forest.exists_bare_unfold hor
  have htrees := (List.cons.inj (h _ _ _ _ _ hshort hfirst hsecond hwhole)).2
  have htree : (f.unfold ⟨4294967294⟩).bare = (f₂.unfold (.ofPlace (4 * 1 + 4))).bare :=
    congrArg Prod.fst (List.cons.inj htrees).1
  rw [hread, halone] at htree
  cases htree

end Grammar

end MatrixScript
