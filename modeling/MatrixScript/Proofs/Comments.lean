import MatrixScript.Proofs.Comments.Expressions

/-!
# Comments and blanks

A comment in a gap of a text is read as a blank is, or the text cannot be read with either. There
are two places where this fails. A lone colon is a whole argument only if nothing but blanks stands
between it and the comma or parenthesis behind it. And a sign in a matrix starts a new column if
there is a blank before it but none behind it, and a comment is none.
-/

namespace MatrixScript

namespace Grammar

variable {f f' : Forest} {g : Gap}

/-- Trees without spans depend on nothing but the kinds of nodes. -/
theorem bare_unfoldWith_eq (hkinds : f'.nodes.map (·.kind) = f.nodes.map (·.kind)) (n : Nat)
    (id : NodeId) : (f'.unfoldWith n id).bare = (f.unfoldWith n id).bare := by
  induction n generalizing id with
  | zero => rfl
  | succ n ih =>
      have hkind : (f'.get? id).map (·.kind) = (f.get? id).map (·.kind) := by
        have hget := congrArg (fun kinds : Array (NodeKind NodeId) => kinds[id.index.toNat]?) hkinds
        simp only [Array.getElem?_map] at hget
        exact hget
      rw [Forest.unfoldWith, Forest.unfoldWith]
      cases hnode : f.get? id with
      | none =>
          rw [hnode, Option.map_none, Option.map_eq_none_iff] at hkind
          rw [hkind]
      | some node =>
          rw [hnode, Option.map_some] at hkind
          obtain ⟨node', hnode', hsame⟩ := Option.map_eq_some_iff.mp hkind
          have hchildren : (node.kind.children.map (f'.unfoldWith n)).map Tree.bare
              = (node.kind.children.map (f.unfoldWith n)).map Tree.bare := by
            rw [List.map_map, List.map_map]
            exact List.map_congr_left fun child _ => ih child
          simp only [hnode', hsame, Tree.bare, Tree.bareAll_eq_map, hchildren]

/-- The whole texts are read in step. -/
theorem statements_agree (hg : g.Clear) :
    Agree (g.Same (g.blanked.length + 1))
      ((standard.top g.blanked).statements none (.ofText g.blanked))
      ((standard.top g.commented).statements none (.ofText g.commented)) := by
  have hmeets : g.Meets (Cursor.ofText g.blanked) (Cursor.ofText g.commented) :=
    .before [] g.before rfl
  have hlength : g.commented.length + 1 = g.bound (g.blanked.length + 1) := hmeets.length_eq
  have hmatch : g.Match (g.blanked.length + 1) (.ofText g.blanked) (.ofText g.commented) :=
    ⟨hmeets, Nat.lt_succ_self _, rfl, rfl, nofun, rfl⟩
  have hs : g.Pair (g.blanked.length + 1) (standard.top g.blanked) (standard.top g.commented) := by
    refine ⟨hg, rfl, rfl, rfl, Gap.entered_of_not_inMatrix rfl, fun least _ _ hm hmode hr => ?_⟩
    have hmono := Gap.bound_le (g := g) hm
    exact Gap.expression_agrees hg hm (by omega) hmode least hr
  exact hs.statements_agrees hmatch none

/-- A comment is read as a blank: where the one text can be read, the other can, as the same
statements. -/
theorem reads_commented_iff (hg : g.Clear) (trees : List (Tree × Bool)) :
    Reads g.commented trees ↔ Reads g.blanked trees := by
  have hagree := statements_agree hg
  cases hblank : (standard.top g.blanked).statements none (.ofText g.blanked) with
  | error e =>
      cases hcomment : (standard.top g.commented).statements none (.ofText g.commented) with
      | ok p' =>
          rw [hblank, hcomment] at hagree
          exact hagree.elim
      | error e' =>
          have hfails {text : List Char} {e : ParseError}
              (herror : (standard.top text).statements none (.ofText text) = .error e) :
              ¬Reads text trees := by
            rintro ⟨program, hparse, -⟩
            obtain ⟨ts, r₁, hrun, -⟩ := exists_of_parse hparse
            rw [herror] at hrun
            cases hrun
          exact iff_of_false (hfails hcomment) (hfails hblank)
  | ok p =>
      cases hcomment : (standard.top g.commented).statements none (.ofText g.commented) with
      | error e' =>
          rw [hblank, hcomment] at hagree
          exact hagree.elim
      | ok p' =>
          rw [hblank, hcomment] at hagree
          obtain ⟨ts, r⟩ := p
          obtain ⟨ts', r'⟩ := p'
          obtain ⟨hts, hmatch⟩ := hagree
          have hts : ts = ts' := hts
          have hreads : ts'.map (fun t => ((r'.forest.unfold t.root).bare, t.muted))
              = ts.map (fun t => ((r.forest.unfold t.root).bare, t.muted)) := by
            rw [hts]
            refine List.map_congr_left fun t _ => ?_
            rw [Forest.unfold, Forest.unfold, bare_unfoldWith_eq hmatch.kinds]
          unfold Reads
          rw [parse_of_statements hblank, parse_of_statements hcomment]
          simp only [Except.ok.injEq, exists_eq_left', hreads]

/-- A comment behind a sign, where there is no matrix. -/
theorem reads_commented_difference : Reads "a -/* minus */b".toList
    [(.of (.binary .sub (.of (.name "a")) (.of (.name "b"))), false)] := by
  have hg : (Gap.mk "a -".toList " minus ".toList "b".toList).Clear := by
    refine ⟨by decide, by decide, by decide, by decide +kernel, ?_, fun hbracket => ?_⟩
    · rintro ⟨hcolon, -⟩
      revert hcolon
      decide
    · exact absurd hbracket (by decide)
  refine (reads_commented_iff hg _).mpr ?_
  have hparse : standard.parse "a - b".toList = .ok ⟨⟨#[⟨.name "a", ⟨0, 1⟩⟩, ⟨.name "b", ⟨4, 5⟩⟩,
      ⟨.binary .sub ⟨0⟩ ⟨1⟩, ⟨0, 5⟩⟩]⟩, [⟨⟨2⟩, false⟩]⟩ := by decide +kernel
  exact ⟨_, hparse, rfl⟩

/-- A comment behind a lone colon keeps the colon from being an argument. -/
theorem not_reads_commented_colon : ¬∀ g : Gap, Unmarked g.before → Unmarked g.after →
    g.before.getLast? ≠ some '.' → ¬['*', '/'] <:+: g.comment →
    ∀ trees, Reads g.commented trees ↔ Reads g.blanked trees := by
  intro h
  have hcolon := h ⟨"A(:".toList, [], ",x)".toList⟩ (by decide) (by decide) (by decide) (by decide)
    [(.of (.call (.of (.name "A")) [.of .everything, .of (.name "x")]), false)]
  have hparse : standard.parse "A(: ,x)".toList = .ok ⟨⟨#[⟨.name "A", ⟨0, 1⟩⟩, ⟨.everything, ⟨2, 3⟩⟩,
      ⟨.name "x", ⟨5, 6⟩⟩, ⟨.call ⟨0⟩ [⟨1⟩, ⟨2⟩], ⟨0, 7⟩⟩]⟩, [⟨⟨3⟩, false⟩]⟩ := by decide +kernel
  obtain ⟨program, hcommented, -⟩ := hcolon.mpr ⟨_, hparse, rfl⟩
  have hfails : (standard.parse "A(:/**/,x)".toList).toOption = none := by decide +kernel
  have hsome : (standard.parse "A(:/**/,x)".toList).toOption = some program :=
    congrArg Except.toOption hcommented
  rw [hfails] at hsome
  cases hsome

end Grammar

end MatrixScript
