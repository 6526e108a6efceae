import MatrixScript.Proofs.Display.Entries
import MatrixScript.Proofs.Printing.Targets

/-!
# Reading rows of entries

Entries stand between commas and rows between semicolons, each with a blank behind it, so the reader
of a matrix passes the separator, skips the blank, and finds the next entry. The rows that it has
found when it comes to the closing bracket are the rows that were written.
-/

namespace MatrixScript

open Reading Grammar

namespace Display

variable {mode : Mode} {fuel : Nat} {r r₀ : Reader} {d : List Char} {b : Bool}

/-- The entries of a row with commas between them. -/
def rowChars (row : List Double) : List Char := [',', ' '].intercalate (row.map (·.text.toList))

/-- The rows with semicolons between them. -/
def gridChars (rows : List (List Double)) : List Char := [';', ' '].intercalate (rows.map rowChars)

theorem rowChars_cons_cons (x y : Double) (row : List Double) :
    rowChars (x :: y :: row) = x.text.toList ++ ',' :: ' ' :: rowChars (y :: row) := by
  simp only [rowChars, List.map_cons, List.intercalate_cons_cons, List.append_assoc,
    List.cons_append, List.nil_append]

theorem gridChars_cons_cons (row row' : List Double) (rows : List (List Double)) :
    gridChars (row :: row' :: rows) = rowChars row ++ ';' :: ' ' :: gridChars (row' :: rows) := by
  simp only [gridChars, List.map_cons, List.intercalate_cons_cons, List.append_assoc,
    List.cons_append, List.nil_append]

/-- An entry starts with something to read that is no separator. -/
theorem text_head {x : Double} (hx : x.isFinite = true) :
    ∃ c cs, x.text.toList = c :: cs ∧ c ∉ triggers
      ∧ c ≠ ']' ∧ ¬(c = ';' ∨ c = '\n') ∧ c ≠ ',' := by
  have hall : ∀ c ∈ '-' :: ['0', '1', '2', '3', '4', '5', '6', '7', '8', '9'],
      c ∉ triggers ∧ c ≠ ']' ∧ ¬(c = ';' ∨ c = '\n') ∧ c ≠ ',' := by decide
  obtain ⟨c, ds, hds, hdigit⟩ := (Double.numeral_text_abs hx).head
  rw [Double.text_eq hx, hds]
  by_cases hsign : (x.isNegative && !x.isZero) = true
  · rw [if_pos hsign]
    exact ⟨'-', c :: ds, rfl, hall '-' List.mem_cons_self⟩
  · rw [if_neg hsign]
    exact ⟨c, ds, rfl, hall c (List.mem_cons_of_mem _ (digit_mem hdigit))⟩

theorem rowChars_head {x : Double} (hx : x.isFinite = true) (row : List Double) (d : List Char) :
    Grammar.Plain (rowChars (x :: row) ++ d) := by
  obtain ⟨c, cs, htext, hc, -⟩ := text_head hx
  intro y hy
  cases row with
  | nil =>
      rw [rowChars, List.map_singleton, List.intercalate_singleton, htext] at hy
      cases hy
      exact hc
  | cons z row =>
      rw [rowChars_cons_cons, htext] at hy
      cases hy
      exact hc

/-- One entry in front of which nothing is left to skip. -/
theorem cell_reads {x : Double} (hx : x.isFinite = true) (hd : EndsEntry d)
    (hskip : (Surroundings.standard .matrix (fuel + 2)).skip r₀ = .ok (b, r))
    (hr : r.cursor.rest = x.text.toList ++ d) (hroom : r.forest.size + 2 ≤ 4294967295) :
    ∃ id r₁, r₁.forest.Writes x.reread id ∧ Adds r.forest r₁.forest 1 ∧ r₁.cursor.rest = d
      ∧ ∀ opener k found rows p,
        Form.matrixRows (.standard .matrix (fuel + 2)) opener k (id :: found) rows r₁ = .ok p →
        Form.matrixRows (.standard .matrix (fuel + 2)) opener (k + 1) found rows r₀ = .ok p := by
  obtain ⟨c, cs, htext, hplain, hclose, hend, hcomma⟩ := text_head hx
  have hrest : r.cursor.rest = c :: (cs ++ d) := by rw [hr, htext, List.cons_append]
  have hstays : (Surroundings.standard .matrix (fuel + 1)).skip r = .ok (false, r) := by
    apply skip_stays rfl
    apply settled_of_peek? _ (Cursor.peek?_cons hrest) hplain
  obtain ⟨id, r₁, hread, hwrites, hadds, hrest₁⟩ := entry_reads 0 hx hd hstays hr hroom
  refine ⟨id, r₁, hwrites, hadds, hrest₁, fun opener k found rows p hmore => ?_⟩
  exact Form.matrixRows_eq_ok_iff.mpr ⟨b, r, hskip, c, Cursor.peek?_cons hrest, .inr
    ⟨hclose, .inr ⟨hend, .inr ⟨hcomma, id, r₁, hread, hmore⟩⟩⟩⟩

/-- What stands behind a separator and a blank. -/
theorem skip_separated {c : Char} (h : r.cursor.rest = c :: ' ' :: d) (hd : Grammar.Plain d) :
    ∃ r₁, (Surroundings.standard mode fuel).skip (r.movedTo r.cursor.next) = .ok (true, r₁)
      ∧ r₁.cursor.rest = d ∧ r₁.forest = r.forest := by
  have hnext : (r.movedTo r.cursor.next).cursor.rest = ' ' :: d := by
    rw [Reader.movedTo_cursor, Cursor.next_cons h]
  exact ⟨_, skip_blank rfl hnext (Grammar.Plain.settled hd mode.flags), rfl, rfl⟩

/-- A separator is passed together with the blank behind it. -/
theorem comma_reads (hr : r.cursor.rest = ',' :: ' ' :: d) (hd : Grammar.Plain d) :
    ∃ r₁, (Surroundings.standard .matrix (fuel + 2)).skip (r.movedTo r.cursor.next) = .ok (true, r₁)
      ∧ r₁.cursor.rest = d ∧ r₁.forest = r.forest
      ∧ ∀ opener k found rows p, Form.matrixRows (.standard .matrix (fuel + 2)) opener k found rows
            (r.movedTo r.cursor.next) = .ok p →
          Form.matrixRows (.standard .matrix (fuel + 2)) opener (k + 1) found rows r = .ok p := by
  have hstays : (Surroundings.standard .matrix (fuel + 2)).skip r = .ok (false, r) :=
    skip_stays rfl (settled_of_peek? _ (Cursor.peek?_cons hr) (by decide))
  obtain ⟨r₁, hskip, hrest, hforest⟩ := skip_separated hr hd
  refine ⟨r₁, hskip, hrest, hforest, fun opener k found rows p hmore => ?_⟩
  exact Form.matrixRows_eq_ok_iff.mpr ⟨false, r, hstays, ',', Cursor.peek?_cons hr, .inr
    ⟨by decide, .inr ⟨by decide, .inl ⟨rfl, hmore⟩⟩⟩⟩

/-- A row is read up to what stands behind it. -/
theorem row_reads (opener : Span) (found : List NodeId) (rows : List (List NodeId)) {k : Nat}
    {xs : List Double} (hne : xs ≠ []) (hfinite : ∀ x ∈ xs, x.isFinite = true)
    (hd : EndsEntry d) (hskip : (Surroundings.standard .matrix (fuel + 2)).skip r₀ = .ok (b, r))
    (hr : r.cursor.rest = rowChars xs ++ d)
    (hroom : r.forest.size + 2 * xs.length ≤ 4294967295) (hk : r.cursor.rest.length < k) :
    ∃ ids r₁ j, List.Forall₂ r₁.forest.Writes (xs.map (·.reread)) ids
      ∧ Adds r.forest r₁.forest xs.length ∧ r₁.cursor.rest = d ∧ d.length < j
      ∧ ∀ p, Form.matrixRows (.standard .matrix (fuel + 2)) opener j (ids.reverse ++ found) rows r₁
          = .ok p →
        Form.matrixRows (.standard .matrix (fuel + 2)) opener k found rows r₀ = .ok p := by
  induction xs generalizing r₀ r b found k with
  | nil => exact absurd rfl hne
  | cons x xs ih =>
      obtain ⟨k, rfl⟩ : ∃ j, k = j + 1 := ⟨k - 1, by omega⟩
      have hx := hfinite x List.mem_cons_self
      have hpos : 0 < x.text.toList.length := by
        obtain ⟨c, cs, htext, -⟩ := text_head hx
        rw [htext]
        exact Nat.succ_pos _
      cases xs with
      | nil =>
          rw [rowChars, List.map_singleton, List.intercalate_singleton] at hr
          obtain ⟨id, r₁, hwrites, hadds, hrest, hstep⟩ := cell_reads hx hd hskip hr hroom
          refine ⟨[id], r₁, k, .cons hwrites .nil, hadds, hrest, ?_, hstep opener k found rows⟩
          rw [hr, List.length_append] at hk
          omega
      | cons y ys =>
          rw [rowChars_cons_cons, List.append_assoc, List.cons_append, List.cons_append] at hr
          simp only [List.length_cons] at hroom
          have hcomma : EndsEntry (',' :: ' ' :: (rowChars (y :: ys) ++ d)) := by
            intro c hc
            cases hc
            decide
          obtain ⟨id, r₁, hwrites, hadds, hrest, hstep⟩ := cell_reads hx hcomma hskip hr (by omega)
          have hsize := hadds.size_le
          rw [hr] at hk
          simp only [List.length_append, List.length_cons] at hk
          obtain ⟨k, rfl⟩ : ∃ j, k = j + 1 := ⟨k - 1, by omega⟩
          have hy := hfinite y (by simp)
          obtain ⟨r₂, hskip₂, hrest₂, hforest₂, hseparator⟩ :=
            comma_reads hrest (rowChars_head hy ys d)
          obtain ⟨ids, r₃, j, hall, hadds₃, hrest₃, hj, hsteps⟩ :=
            ih (k := k) (id :: found) nofun (fun z hz => hfinite z (List.mem_cons_of_mem _ hz))
              hskip₂ hrest₂ (by rw [hforest₂, List.length_cons]; omega)
              (by rw [hrest₂, List.length_append]; omega)
          rw [hforest₂] at hadds₃
          have htotal := hadds.trans hadds₃
          have hfirst := hwrites.extends hadds₃.grown
          refine ⟨id :: ids, r₃, j, .cons hfirst hall, ?_, hrest₃, hj, fun p hmore => ?_⟩
          · rw [List.length_cons, Nat.add_comm]
            exact htotal
          · rw [List.reverse_cons, List.append_assoc, List.singleton_append] at hmore
            exact hstep _ _ _ _ p (hseparator _ _ _ _ p (hsteps p hmore))

theorem gridChars_head {row : List Double} (hne : row ≠ []) (hrow : ∀ x ∈ row, x.isFinite = true)
    (rows : List (List Double)) (d : List Char) : Grammar.Plain (gridChars (row :: rows) ++ d) := by
  obtain ⟨x, xs, rfl⟩ := List.exists_cons_of_ne_nil hne
  have hx := hrow x List.mem_cons_self
  cases rows with
  | nil =>
      rw [gridChars, List.map_singleton, List.intercalate_singleton]
      exact rowChars_head hx xs d
  | cons row' rows =>
      rw [gridChars_cons_cons, List.append_assoc]
      exact rowChars_head hx xs _

theorem endRow_reverse {ids : List NodeId} (h : ids ≠ []) (done : List (List NodeId)) :
    Form.endRow (ids.reverse ++ []) done = ids :: done := by
  rw [Form.endRow, List.append_nil, if_neg (by simpa using h), List.reverse_reverse]

/-- The closing bracket ends the last row. -/
theorem close_reads {ids : List NodeId} (h : ids ≠ []) (hr : r.cursor.rest = ']' :: d)
    (opener : Span) (k : Nat) (done : List (List NodeId)) :
    Form.matrixRows (.standard .matrix (fuel + 2)) opener (k + 1) (ids.reverse ++ []) done r
      = .ok (done.reverse ++ [ids], r.movedTo r.cursor.next) := by
  have hstays : (Surroundings.standard .matrix (fuel + 2)).skip r = .ok (false, r) :=
    skip_stays rfl (settled_of_peek? _ (Cursor.peek?_cons hr) (by decide))
  refine Form.matrixRows_eq_ok_iff.mpr ⟨false, r, hstays, ']', Cursor.peek?_cons hr, .inl
    ⟨rfl, ?_, rfl⟩⟩
  rw [endRow_reverse h, List.reverse_cons]

/-- A semicolon ends a row in front of the next. -/
theorem semicolon_reads {ids : List NodeId} (h : ids ≠ []) (hr : r.cursor.rest = ';' :: ' ' :: d)
    (hd : Grammar.Plain d) :
    ∃ r₁, (Surroundings.standard .matrix (fuel + 2)).skip (r.movedTo r.cursor.next) = .ok (true, r₁)
      ∧ r₁.cursor.rest = d ∧ r₁.forest = r.forest
      ∧ ∀ opener k done p, Form.matrixRows (.standard .matrix (fuel + 2)) opener k [] (ids :: done)
            (r.movedTo r.cursor.next) = .ok p →
          Form.matrixRows (.standard .matrix (fuel + 2)) opener (k + 1) (ids.reverse ++ []) done r
            = .ok p := by
  have hstays : (Surroundings.standard .matrix (fuel + 2)).skip r = .ok (false, r) :=
    skip_stays rfl (settled_of_peek? _ (Cursor.peek?_cons hr) (by decide))
  obtain ⟨r₁, hskip, hrest, hforest⟩ := skip_separated hr hd
  refine ⟨r₁, hskip, hrest, hforest, fun opener k done p hmore => ?_⟩
  refine Form.matrixRows_eq_ok_iff.mpr ⟨false, r, hstays, ';', Cursor.peek?_cons hr, .inr
    ⟨by decide, .inl ⟨.inl rfl, ?_⟩⟩⟩
  rw [endRow_reverse h]
  exact hmore

/-- Rows are read up to the closing bracket. -/
theorem grid_reads (opener : Span) (done : List (List NodeId)) {k : Nat} {xss : List (List Double)}
    (hne : xss ≠ []) (hrows : ∀ row ∈ xss, row ≠ [] ∧ ∀ x ∈ row, x.isFinite = true)
    (hskip : (Surroundings.standard .matrix (fuel + 2)).skip r₀ = .ok (b, r))
    (hr : r.cursor.rest = gridChars xss ++ ']' :: d)
    (hroom : r.forest.size + 2 * (xss.map List.length).sum ≤ 4294967295)
    (hk : r.cursor.rest.length < k) :
    ∃ idss r₁, Form.matrixRows (.standard .matrix (fuel + 2)) opener k [] done r₀
        = .ok (done.reverse ++ idss, r₁)
      ∧ List.Forall₂ (List.Forall₂ r₁.forest.Writes) (xss.map (·.map (·.reread))) idss
      ∧ Adds r.forest r₁.forest (xss.map List.length).sum ∧ r₁.cursor.rest = d := by
  induction xss generalizing r₀ r b done k with
  | nil => exact absurd rfl hne
  | cons row xss ih =>
      obtain ⟨hrow, hfinite⟩ := hrows row List.mem_cons_self
      have hsome {f : Forest} {ids : List NodeId}
          (hall : List.Forall₂ f.Writes (row.map (·.reread)) ids) : ids ≠ [] := by
        rintro rfl
        exact hrow (List.map_eq_nil_iff.mp (List.forall₂_nil_right_iff.mp hall))
      cases xss with
      | nil =>
          rw [gridChars, List.map_singleton, List.intercalate_singleton] at hr
          have hclose : EndsEntry (']' :: d) := by
            intro c hc
            cases hc
            decide
          obtain ⟨ids, r₁, j, hall, hadds, hrest, hj, hsteps⟩ :=
            row_reads opener [] done hrow hfinite hclose hskip hr hroom hk
          obtain ⟨j, rfl⟩ : ∃ i, j = i + 1 := ⟨j - 1, by omega⟩
          refine ⟨[ids], _, hsteps _ (close_reads (hsome hall) hrest opener j done),
            .cons hall .nil, hadds, ?_⟩
          rw [Reader.movedTo_cursor, Cursor.next_cons hrest]
      | cons row' xss =>
          rw [gridChars_cons_cons, List.append_assoc, List.cons_append, List.cons_append] at hr
          simp only [List.map_cons, List.sum_cons] at hroom
          have hend : EndsEntry (';' :: ' ' :: (gridChars (row' :: xss) ++ ']' :: d)) := by
            intro c hc
            cases hc
            decide
          obtain ⟨ids, r₁, j, hall, hadds, hrest, hj, hsteps⟩ :=
            row_reads opener [] done hrow hfinite hend hskip hr (by omega) hk
          obtain ⟨j, rfl⟩ : ∃ i, j = i + 1 := ⟨j - 1, by omega⟩
          obtain ⟨hrow', hfinite'⟩ := hrows row' (by simp)
          have hsize := hadds.size_le
          obtain ⟨r₂, hskip₂, hrest₂, hforest₂, hseparator⟩ :=
            semicolon_reads (hsome hall) hrest (gridChars_head hrow' hfinite' xss _)
          simp only [List.length_cons] at hj
          obtain ⟨idss, r₃, hmore, hall₃, hadds₃, hrest₃⟩ := ih (k := j) (ids :: done) nofun
            (fun row hmem => hrows row (List.mem_cons_of_mem _ hmem)) hskip₂ hrest₂
            (by rw [hforest₂]; simp only [List.map_cons, List.sum_cons]; omega)
            (by rw [hrest₂]; omega)
          rw [hforest₂] at hadds₃
          have htotal := hadds.trans hadds₃
          have hfirst := hall.imp fun x id hwrites => hwrites.extends hadds₃.grown
          refine ⟨ids :: idss, r₃, ?_, .cons hfirst hall₃, htotal, hrest₃⟩
          rw [List.reverse_cons, List.append_assoc, List.singleton_append] at hmore
          exact hsteps _ (hseparator opener j done _ hmore)

/-! ### Whole texts -/

/-- A number is a text of one statement. -/
theorem parse_number {x : Double} (hx : x.isFinite = true) :
    ∃ forest id, standard.parse x.text.toList = .ok ⟨forest, [⟨id, false⟩]⟩
      ∧ forest.Writes x.reread id := by
  obtain ⟨c, cs, htext, hplain, -, hend, -⟩ := text_head hx
  have hpeek : (Reader.ofText x.text.toList).cursor.peek? = some c := Cursor.peek?_cons htext
  have hsettled (flags : Flags) : standard.Settled flags (Reader.ofText x.text.toList).cursor :=
    settled_of_peek? flags hpeek hplain
  have hstays : (Surroundings.standard .statement (cs.length + 1)).skip (.ofText x.text.toList)
      = .ok (false, .ofText x.text.toList) := skip_stays rfl (hsettled _)
  have hroom : (Reader.ofText x.text.toList).forest.size + 2 ≤ 4294967295 := by
    change 0 + 2 ≤ 4294967295
    decide
  obtain ⟨id, r₁, hread, hwrites, -, hrest⟩ := entry_reads (d := []) 0 hx nofun hstays
    (List.append_nil _).symm hroom
  have htop : standard.top x.text.toList = .standard .statement (cs.length + 2) := by
    rw [top, htext, List.length_cons]
  have hroot : (standard.top x.text.toList).expression (.ofText x.text.toList) = .ok (id, r₁) := by
    rw [htop]
    exact hread
  have hstatements := statements_single (s := standard.top x.text.toList) rfl hpeek (hsettled _)
    hend hroot hrest
  exact ⟨r₁.forest, id, parse_of_statements hstatements, hwrites⟩

/-- Rows between brackets are a text of one statement. -/
theorem parse_grid {xss : List (List Double)} (hne : xss ≠ [])
    (hrows : ∀ row ∈ xss, row ≠ [] ∧ ∀ x ∈ row, x.isFinite = true)
    (hroom : 2 * (xss.map List.length).sum < 4294967295) :
    ∃ forest id idss span, standard.parse ('[' :: (gridChars xss ++ [']']))
        = .ok ⟨forest, [⟨id, false⟩]⟩
      ∧ forest.get? id = some ⟨.matrix idss, span⟩
      ∧ List.Forall₂ (List.Forall₂ forest.Writes) (xss.map (·.map (·.reread))) idss := by
  obtain ⟨row, rows, rfl⟩ := List.exists_cons_of_ne_nil hne
  obtain ⟨hrow, hfinite⟩ := hrows row List.mem_cons_self
  let text := '[' :: (gridChars (row :: rows) ++ [']'])
  let r := Reader.ofText text
  have hpeek : r.cursor.peek? = some '[' := rfl
  have hsettled (flags : Flags) : standard.Settled flags r.cursor :=
    settled_of_peek? flags hpeek (by decide)
  have hlength : text.length = (gridChars (row :: rows)).length + 2 := by simp [text]
  have hstays : (Surroundings.standard .statement ((gridChars (row :: rows)).length + 2)).skip r
      = .ok (false, r) := skip_stays rfl (hsettled _)
  have hnext : (r.movedTo r.cursor.next).cursor.rest = gridChars (row :: rows) ++ [']'] := rfl
  have hinside : (Surroundings.standard .matrix ((gridChars (row :: rows)).length + 2)).skip
      (r.movedTo r.cursor.next) = .ok (false, r.movedTo r.cursor.next) :=
    skip_stays rfl (Grammar.Plain.settled (hnext ▸ gridChars_head hrow hfinite rows [']']) _)
  have hspace : (r.movedTo r.cursor.next).forest.size + 2 * ((row :: rows).map List.length).sum
      ≤ 4294967295 := by
    change 0 + _ ≤ _
    omega
  obtain ⟨idss, r₁, hread, hall, hadds, hrest⟩ := grid_reads r.cursor.peekSpan [] hne hrows hinside
    hnext hspace (Nat.lt_succ_self _)
  have hsize : r₁.forest.size < 4294967295 := by
    have hle := hadds.size_le
    change r₁.forest.size ≤ 0 + _ at hle
    omega
  obtain ⟨span, hmatrix⟩ := Printing.matrix_read
    (s := .standard .statement ((gridChars (row :: rows)).length + 2)) hread
  have hread := expression_of_read 0 r₁ (d := []) nofun hstays (Printing.findForm?_matrix _ _)
    hmatrix hsize rfl hrest
  have htop : standard.top text = .standard .statement ((gridChars (row :: rows)).length + 3) := by
    rw [top, hlength]
  have hroot : (standard.top text).expression r = .ok (r₁.forest.nextId,
      (r₁.withNode (.matrix idss) span).afterOperand Form.matrix r₁.forest.nextId) := by
    rw [htop]
    exact hread
  have hstatements := statements_single (s := standard.top text) rfl hpeek (hsettled _)
    (by decide) hroot hrest
  have hgrown : r₁.forest.Extends (r₁.withNode (.matrix idss) span).forest :=
    Forest.extends_push _ _
  refine ⟨_, _, idss, span, parse_of_statements hstatements, Forest.get?_push_nextId hsize _, ?_⟩
  exact hall.imp fun _ _ hrow => hrow.imp fun _ _ hwrites => hwrites.extends hgrown

end Display

end MatrixScript
