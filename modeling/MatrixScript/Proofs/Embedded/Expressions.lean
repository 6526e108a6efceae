import MatrixScript.Proofs.Embedded.Forms
import MatrixScript.Proofs.Reading.Operators

/-!
# Expressions in two readings

The forms, the operators and the steps that they share are put together. Nested expressions stand on
less fuel, so the induction for expressions is on the fuel, and that for the chain of operators on
the rounds left.
-/

namespace MatrixScript

open Reading

namespace Embedding

variable {E : Embedding} {s s' : Surroundings} {n : Nat}

/-! ### Operands -/

theorem TracksWhen.imp {α : Type} [Numbered α] {P P' Q : Cursor → Prop} {f f' : Reading α}
    (h : E.TracksWhen P n Q f f') (hP : ∀ c, P' c → P c) : E.TracksWhen P' n Q f f' where
  grows hr := h.grows (hP _ hr)
  steady hr := h.steady (hP _ hr)
  follows hr := h.follows (hP _ hr)

theorem TracksWhen.weaken {α : Type} [Numbered α] {P Q : Cursor → Prop} {f f' : Reading α}
    (h : E.TracksWhen P n Anywhere f f') : E.TracksWhen P n Q f f' where
  grows := h.grows
  steady hr hf _ := h.steady hr hf trivial
  follows hP hr hn hf _ := h.follows hP hr hn hf trivial

/-- Where a form accepts the text, the text starts with a character that has a meaning. -/
theorem head?_of_accepts {f : Nat × Form} (hf : f ∈ Form.standard) {input : List Char}
    {flags : Flags} (h : f.2.accepts input flags = true) :
    ∃ x, input.head? = some x ∧ x ∉ Grammar.triggers := by
  have hkeyword {word : List Char} (hword : startsWithWord word input = true)
      (hhead : ∃ x ∈ word.head?, x ∉ Grammar.triggers) :
      ∃ x, input.head? = some x ∧ x ∉ Grammar.triggers := by
    obtain ⟨x, hx, htrigger⟩ := hhead
    obtain ⟨rest, rfl⟩ := exists_of_startsWithWord hword
    exact ⟨x, by rw [List.head?_append, hx]; rfl, htrigger⟩
  simp only [Form.standard, List.mem_cons, List.not_mem_nil, or_false] at hf
  rcases hf with rfl | rfl | rfl | rfl | rfl | rfl | rfl | rfl | rfl | rfl | rfl | rfl | rfl
  · exact hkeyword h ⟨'i', rfl, by decide⟩
  · exact hkeyword h ⟨'w', rfl, by decide⟩
  · exact hkeyword h ⟨'f', rfl, by decide⟩
  · exact hkeyword h ⟨'e', rfl, by decide⟩
  · exact ⟨':', Form.colon_of_accepts h, by decide⟩
  · cases input with
    | nil => cases h
    | cons x input =>
        refine ⟨x, rfl, fun hx => ?_⟩
        have hdigit : ∀ y ∈ Grammar.triggers, y.isDigit = false ∧ y ≠ '.' := by decide
        obtain ⟨hx, hpoint⟩ := hdigit x hx
        simp [Form.number, hx, hpoint] at h
  · exact ⟨'"', of_decide_eq_true h, by decide⟩
  · cases input with
    | nil => cases h
    | cons x input =>
        refine ⟨x, rfl, fun hx => ?_⟩
        have hstart : ∀ y ∈ Grammar.triggers, isWordStart y = false := by decide
        simp [Form.identifier, hstart x hx] at h
  · exact ⟨'(', of_decide_eq_true h, by decide⟩
  · exact ⟨'[', of_decide_eq_true h, by decide⟩
  · exact ⟨'|', Form.bar_of_accepts h, by decide⟩
  · cases input with
    | nil => cases h
    | cons x input =>
        refine ⟨x, rfl, fun hx => ?_⟩
        have hsign : ∀ y ∈ Grammar.triggers, (Form.leadingOp? (some y)).isSome = false := by decide
        simp [Form.leading, hsign x hx] at h
  · exact ⟨'\x7b', of_decide_eq_true h, by decide⟩

theorem Around.form_tracks (h : E.Around s s') {f : Nat × Form} (hf : f ∈ Form.standard) :
    E.TracksWhen (fun c => f.2.accepts c.rest s.mode.flags = true) n Alive
      (f.2.read s) (f.2.read s') := by
  have hpeek (c : Cursor) (hc : f.2.accepts c.rest s.mode.flags = true) := head?_of_accepts hf hc
  simp only [Form.standard, List.mem_cons, List.not_mem_nil, or_false] at hf
  rcases hf with rfl | rfl | rfl | rfl | rfl | rfl | rfl | rfl | rfl | rfl | rfl | rfl | rfl
  · exact h.branch_tracks
  · exact h.whileLoop_tracks
  · exact h.forLoop_tracks
  · exact last_tracks
  · exact everything_tracks.imp fun c hc => Form.colon_of_accepts hc
  · exact number_tracks.imp hpeek
  · exact text_tracks.imp fun c hc => of_decide_eq_true hc
  · exact identifier_tracks.imp hpeek
  · exact h.group_tracks.weaken.imp fun c hc => of_decide_eq_true hc
  · exact h.matrix_tracks.weaken.imp fun c hc => of_decide_eq_true hc
  · exact h.abs_tracks.weaken.imp fun c hc => Form.bar_of_accepts hc
  · exact h.leading_tracks.imp hpeek
  · exact h.block_tracks.weaken.imp fun c hc => of_decide_eq_true hc

/-- Both readings note the same about the operand that they have read. -/
theorem Readers.afterOperand {r r' : Reader} (hr : E.Readers r r') (hfits : E.Fits r.forest)
    (form : Form) (id : NodeId) :
    E.Readers (r.afterOperand form id)
      (r'.afterOperand form (Numbered.shift E.before.size id)) := by
  refine ⟨hr.cursor, hr.forest, ?_, ?_⟩
  · unfold Reader.afterOperand
    cases form.premise with
    | none => exact hr.premise
    | some symbol =>
        have hoffset := hr.cursor.offset
        have hinside := hr.cursor.inside
        refine ⟨?_, .inl ?_⟩
        · intro q hq
          cases hq
          dsimp only
          omega
        · simp [hoffset]
  · have hkind := hr.forest.kind? hfits id
    change (r'.forest.kind? (id.shift E.before.size)).any _ = (r.forest.kind? id).any _
    rw [hkind]
    cases r.forest.kind? id with
    | none => rfl
    | some k => exact NodeKind.isControlFlow_map _ k

theorem Around.operand_tracks (h : E.Around s s') :
    E.Tracks n Alive (Grammar.standard.operand s) (Grammar.standard.operand s') := by
  constructor
  · intro r r₁ id hf
    obtain ⟨b, r₂, hskip, form, hform, r₃, hread, rfl⟩ := Grammar.operand_eq_ok_iff.mp hf
    obtain ⟨⟨priority, hmem⟩, haccepts⟩ := Grammar.findForm?_eq_some hform
    have hgrows := (h.form_tracks (n := 0) hmem).grows haccepts hread
    exact Nat.le_trans ((h.skip_tracks (n := 0)).grows hskip) hgrows
  · intro r r₁ id hf halive
    obtain ⟨b, r₂, hskip, form, hform, r₃, hread, rfl⟩ := Grammar.operand_eq_ok_iff.mp hf
    obtain ⟨⟨priority, hmem⟩, haccepts⟩ := Grammar.findForm?_eq_some hform
    have halive₂ := (h.form_tracks (n := 0) hmem).steady haccepts hread halive
    exact (h.skip_tracks (n := 0)).steady hskip halive₂
  · intro r r' r₁ id hr hn hf halive hfits
    obtain ⟨b, r₂, hskip, form, hform, r₃, hread, rfl⟩ := Grammar.operand_eq_ok_iff.mp hf
    obtain ⟨⟨priority, hmem⟩, haccepts⟩ := Grammar.findForm?_eq_some hform
    have hskipped := (h.skip_tracks (n := n)).grows hskip
    have hgrows := (h.form_tracks (n := n) hmem).grows haccepts hread
    have halive₂ := (h.form_tracks (n := n) hmem).steady haccepts hread halive
    obtain ⟨-, r₂', hskip', hr₂⟩ :=
      h.skip_tracks.follows hr hn hskip halive₂ (hfits.mono hgrows)
    obtain ⟨hid, r₃', hread', hr₃⟩ := (h.form_tracks hmem).follows haccepts hr₂
      (Nat.le_trans hn hskipped) hread halive hfits
    have hform' : Grammar.standard.findForm? r₂'.cursor.rest s'.mode.flags = some form := by
      obtain ⟨w, hw, hw'⟩ := hr₂.cursor.fence halive₂
      rw [hw', h.mode, findForm?_fence, ← hw, hform]
    exact ⟨hid, _, Grammar.operand_eq_ok_iff.mpr ⟨b, r₂', hskip', form, hform', r₃', hread', rfl⟩,
      hr₃.afterOperand hfits form id⟩

/-! ### Operators -/

/-- An operator that is understood in one reading is understood in the other. -/
theorem Readers.premiseAt {r r' : Reader} (hr : E.Readers r r') (halive : Alive r.cursor)
    (flags : Flags) (start : Nat) (spaced : Bool) :
    Grammar.standard.premiseAt r' flags (start + E.bytes) spaced
      = Grammar.standard.premiseAt r flags start spaced := by
  obtain ⟨w, hw, hw'⟩ := hr.cursor.fence halive
  have hform : Grammar.standard.findForm? r'.cursor.rest flags
      = Grammar.standard.findForm? r.cursor.rest flags := by
    rw [hw, hw', findForm?_fence]
  unfold Grammar.premiseAt
  rw [hform]
  rcases hr.premise.2 with hsame | ⟨hnone, hearlier⟩
  · rw [hsame]
    cases r.premise with
    | none => rfl
    | some q =>
        have hended : (q.2 + E.bytes == start + E.bytes) = (q.2 == start) := by
          rw [Bool.eq_iff_iff, beq_iff_eq, beq_iff_eq]
          omega
        simp only [Option.map_some, hended]
  · rw [hnone]
    cases hpremise : r'.premise with
    | none => rfl
    | some q =>
        have hq := hearlier q hpremise
        have hended : ¬q.2 = start + E.bytes := by omega
        simp [hended]

theorem Readers.endsOperators {r r' : Reader} (hr : E.Readers r r') (halive : Alive r.cursor)
    (flags : Flags) (spaced : Bool) :
    Grammar.standard.endsOperators flags spaced r'.cursor.rest
      = Grammar.standard.endsOperators flags spaced r.cursor.rest := by
  obtain ⟨w, hw, hw'⟩ := hr.cursor.fence halive
  rw [hw, hw', endsOperators_fence]

theorem Readers.findOperator? {r r' : Reader} (hr : E.Readers r r') (halive : Alive r.cursor)
    (flags : Flags) (start : Nat) (spaced : Bool) :
    Grammar.standard.findOperator? r'.cursor.rest
        (Grammar.standard.premiseAt r' flags (start + E.bytes) spaced)
      = Grammar.standard.findOperator? r.cursor.rest
          (Grammar.standard.premiseAt r flags start spaced) := by
  obtain ⟨w, hw, hw'⟩ := hr.cursor.fence halive
  rw [hr.premiseAt halive, hw, hw', findOperator?_fence, findOperator?_fence]

/-- Both readings note the node of an operator. -/
theorem Readers.afterOperator {r r' : Reader} (hr : E.Readers r r') {kind : NodeKind NodeId}
    (hkind : Numbered.Below r.forest.size kind) (span span' : Span) :
    E.Readers (r.afterOperator kind span)
      (r'.afterOperator (Numbered.shift E.before.size kind) span') := by
  have hnode := hr.withNode span span' hkind
  exact ⟨hnode.cursor, hnode.forest, hnode.premise, rfl⟩

theorem Around.alive_of_operator (h : E.Around s s') {r r₂ : Reader} {spaced : Bool}
    (hskip : s.skip r = .ok (spaced, r₂))
    (hends : Grammar.standard.endsOperators s.mode.flags spaced r₂.cursor.rest = false) :
    Alive r₂.cursor := by
  obtain ⟨x, hx, hline⟩ := Grammar.exists_of_endsOperators hends
  rw [Surroundings.skip, h.skip] at hskip
  obtain ⟨c, hskips, rfl⟩ := Grammar.skip_eq_ok_iff.mp hskip
  exact hskips.settled.alive hx hline

theorem Around.applyFixity_grows (h : E.Around s s') {op : Operator}
    (hop : op ∈ Grammar.standard.operators) {left : NodeId} (hleft : Numbered.Below n left)
    {span : Span} {r r₁ : Reader} {kind : NodeKind NodeId}
    (hf : Grammar.applyFixity s op left span r = .ok (kind, r₁)) :
    r.forest.size ≤ r₁.forest.size := by
  have htracks : E.Tracks n Alive (Grammar.applyFixity s op left span)
      (Grammar.applyFixity s' op (left.shift E.before.size) span) := h.applyFixity_tracks hop hleft
  exact htracks.grows hf

theorem Around.chain_tracks (h : E.Around s s') (least : UInt8) {k k' : Nat} (hk : k ≤ k') :
    ∀ {n : Nat} {left : NodeId}, Numbered.Below n left →
      E.Tracks n Alive (Grammar.standard.chain s least k left)
        (Grammar.standard.chain s' least k' (left.shift E.before.size)) := by
  induction k generalizing k' with
  | zero =>
      intro n left _
      rw [Grammar.chain]
      exact .of_fails fun r p => fail_ne_ok (r := r)
  | succ k ih =>
      obtain ⟨k', rfl⟩ : ∃ j, k' = j + 1 := ⟨k' - 1, by omega⟩
      have hk : k ≤ k' := Nat.le_of_succ_le_succ hk
      intro n left hleft
      constructor
      · intro r r₁ id hf
        obtain ⟨spaced, r₂, hskip, hcases⟩ := Grammar.chain_eq_ok_iff.mp hf
        have hskipped := (h.skip_tracks (n := 0)).grows hskip
        rcases hcases with ⟨-, -, rfl⟩ | ⟨-, found, hfound, hcases⟩
        · exact hskipped
        · rcases hcases with ⟨-, -, rfl⟩ | ⟨-, kind, r₃, hkind, hchain⟩
          · exact hskipped
          · obtain ⟨hop, -⟩ := Grammar.findOperator?_eq_some hfound
            have hleft_below := Numbered.below_all (Nat.le_refl 4294967296) left
            have happlied := h.applyFixity_grows hop hleft_below hkind
            have hmore := (ih hk (n := 4294967296)
              (Numbered.below_all (Nat.le_refl _) r₃.forest.nextId)).grows hchain
            rw [Reader.afterOperator_forest, Reader.withNode, Forest.size_push] at hmore
            rw [Reader.movedTo_forest] at happlied
            omega
      · intro r r₁ id hf halive
        obtain ⟨spaced, r₂, hskip, hcases⟩ := Grammar.chain_eq_ok_iff.mp hf
        rcases hcases with ⟨-, -, rfl⟩ | ⟨hends, -⟩
        · exact halive
        · exact (h.skip_tracks (n := 0)).steady hskip (h.alive_of_operator hskip hends)
      · intro r r' r₁ id hr hn hf halive hfits
        obtain ⟨spaced, r₂, hskip, hcases⟩ := Grammar.chain_eq_ok_iff.mp hf
        have hmoved := (h.skip_moves hskip).1
        rcases hcases with ⟨hends, rfl, rfl⟩ | ⟨hends, found, hfound, hcases⟩
        · have hfits₀ : E.Fits r.forest := by
            rw [hmoved] at hfits
            exact hfits
          obtain ⟨halive₂, r₂', hskip', hr₂⟩ := h.skip_follows hr halive hskip hfits₀
          have hends' := (hr₂.endsOperators halive₂ s.mode.flags spaced).trans hends
          rw [← h.mode] at hends'
          have hsize : n ≤ (r₂.movedTo r.cursor).forest.size := by
            rw [hmoved]
            exact hn
          exact ⟨hleft.mono hsize, _, Grammar.chain_eq_ok_iff.mpr
            ⟨spaced, r₂', hskip', .inl ⟨hends', rfl, rfl⟩⟩, hr₂.movedTo hr.cursor⟩
        · have halive₂ := h.alive_of_operator hskip hends
          have hsize₂ : r₂.forest.size = r.forest.size := by
            rw [hmoved]
            rfl
          have hn₂ : n ≤ r₂.forest.size := hsize₂ ▸ hn
          have hboth {r₂' : Reader} (hr₂ : E.Readers r₂ r₂') :
              Grammar.standard.endsOperators s'.mode.flags spaced r₂'.cursor.rest = false
                ∧ Grammar.standard.findOperator? r₂'.cursor.rest (Grammar.standard.premiseAt r₂'
                  s'.mode.flags r'.cursor.offset spaced) = some found := by
            rw [h.mode, hr.cursor.offset, hr₂.endsOperators halive₂, hr₂.findOperator? halive₂]
            exact ⟨hends, hfound⟩
          rcases hcases with ⟨hlow, rfl, rfl⟩ | ⟨hhigh, kind, r₃, hkind, hchain⟩
          · obtain ⟨-, r₂', hskip', hr₂⟩ := h.skip_tracks.follows hr hn hskip halive₂ hfits
            obtain ⟨hends', hfound'⟩ := hboth hr₂
            exact ⟨hleft.mono hn₂, _, Grammar.chain_eq_ok_iff.mpr ⟨spaced, r₂', hskip',
              .inr ⟨hends', found, hfound', .inl ⟨hlow, rfl, rfl⟩⟩⟩, hr₂.movedTo hr.cursor⟩
          · obtain ⟨hop, p, d, hrest, hbytes⟩ := Grammar.findOperator?_eq_some hfound
            have hlarge : Numbered.Below 4294967296 r₃.forest.nextId :=
              Numbered.below_all (Nat.le_refl _) _
            have halive₃ := (ih hk hlarge).steady hchain halive
            have hgrows := (ih hk hlarge).grows hchain
            rw [Reader.afterOperator_forest, Reader.withNode, Forest.size_push] at hgrows
            have happlied := h.applyFixity_grows hop hleft hkind
            rw [Reader.movedTo_forest] at happlied
            have hfits₃ : E.Fits r₃.forest := hfits.mono (by omega)
            obtain ⟨-, r₂', hskip', hr₂⟩ :=
              h.skip_tracks.follows hr hn hskip halive₂ (hfits.mono (by omega))
            obtain ⟨hends', hfound'⟩ := hboth hr₂
            have hpassed := hr₂.movedTo (hr₂.cursor.advance hrest)
            rw [← hbytes] at hpassed
            obtain ⟨hkind_below, r₃', hkind', hr₃⟩ :=
              (h.applyFixity_tracks hop hleft).follows hpassed hn₂ hkind halive₃ hfits₃
            have hroom : E.before.size + r₃.forest.size < 4294967295 := by
              unfold Fits at hfits
              omega
            have hnext : Numbered.Below (r₃.forest.size + 1) r₃.forest.nextId := by
              intro id hid
              rw [List.mem_singleton.mp hid]
              exact .inr (by rw [Forest.nextId_index (by omega)]; exact Nat.lt_succ_self _)
            have hsize₃ (span : Span) :
                (r₃.afterOperator kind span).forest.size = r₃.forest.size + 1 := by
              rw [Reader.afterOperator_forest, Reader.withNode, Forest.size_push]
            have hnoted := hr₃.afterOperator hkind_below
            obtain ⟨hid, r₁', hchain', hr₁⟩ :=
              (ih hk hnext).follows (hnoted _ _) (Nat.le_of_eq (hsize₃ _).symm) hchain halive hfits
            rw [← hr₃.forest.nextId hroom] at hchain'
            exact ⟨hid, r₁', Grammar.chain_eq_ok_iff.mpr ⟨spaced, r₂', hskip', .inr ⟨hends', found,
              hfound', .inr ⟨hhigh, _, r₃', hkind', hchain'⟩⟩⟩, hr₁⟩

/-! ### Expressions -/

/-- A step that depends on whether the operand before it was control flow. -/
theorem Tracks.flow_bind {α : Type} [Numbered α] {Q : Cursor → Prop} {f f' g g' : Reading α}
    (hf : E.Tracks n Q f f') (hg : E.Tracks n Q g g') :
    E.Tracks n Q (get >>= fun r => if r.afterControlFlow then f else g)
      (get >>= fun r => if r.afterControlFlow then f' else g') := by
  constructor
  · intro r r₁ a h
    rw [get_bind, ite_run] at h
    split at h
    · exact hf.grows h
    · exact hg.grows h
  · intro r r₁ a h hQ
    rw [get_bind, ite_run] at h
    split at h
    · exact hf.steady h hQ
    · exact hg.steady h hQ
  · intro r r' r₁ a hr hn h hQ hfits
    rw [get_bind, ite_run] at h ⊢
    rw [hr.afterControlFlow]
    split at h
    · rename_i hflow
      rw [if_pos hflow]
      exact hf.follows hr hn h hQ hfits
    · rename_i hflow
      rw [if_neg hflow]
      exact hg.follows hr hn h hQ hfits

theorem expression_tracks {fuel fuel' : Nat} (hfuel : fuel ≤ fuel') (mode : Mode) (least : UInt8) :
    E.Tracks n Alive (Grammar.standard.expression fuel mode least)
      (Grammar.standard.expression fuel' mode least) := by
  induction fuel generalizing fuel' n mode least with
  | zero =>
      rw [Grammar.expression]
      exact .of_fails fun r p => fail_ne_ok (r := r)
  | succ fuel ih =>
      obtain ⟨fuel', rfl⟩ : ∃ j, fuel' = j + 1 := ⟨fuel' - 1, by omega⟩
      have haround : E.Around ⟨mode, Grammar.standard.skip, Grammar.standard.expression fuel⟩
          ⟨mode, Grammar.standard.skip, Grammar.standard.expression fuel'⟩ :=
        ⟨rfl, rfl, rfl, fun n mode least => ih (Nat.le_of_succ_le_succ hfuel) mode least⟩
      rw [Grammar.expression, Grammar.expression]
      refine haround.operand_tracks.bind fun m left hm hleft => .flow_bind ?_ ?_
      · exact (TracksInPlace.pure hleft).tracks
      · exact .rounds_bind fun k k' hk => haround.chain_tracks least hk hleft

/-- The whole language is read alike within a longer text. -/
theorem around_standard {fuel fuel' : Nat} (hfuel : fuel ≤ fuel') (mode : Mode) :
    E.Around ⟨mode, Grammar.standard.skip, Grammar.standard.expression fuel⟩
      ⟨mode, Grammar.standard.skip, Grammar.standard.expression fuel'⟩ :=
  ⟨rfl, rfl, rfl, fun _ mode least => expression_tracks hfuel mode least⟩

end Embedding

end MatrixScript
