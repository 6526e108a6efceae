import Mathlib.Data.Prod.Lex
import MatrixScript.Library.Basic
import MatrixScript.Proofs.Overloads.Slots

/-!
# Choosing among overloads

A call goes to the overload of the lowest rank, if there is just one. The search looks at the
overloads one after another and remembers the best so far and how many have been as good, but what
comes out does not depend on their order.
-/

namespace MatrixScript

/-- No conversions of fixed arguments rank below them, and then narrower windows below wider. -/
def Score.Below (s t : Score) : Prop := toLex (s.coerced, s.window) < toLex (t.coerced, t.window)

namespace Overload

/-- `found` are the overloads of the lowest rank, and `others` those that rank higher or do not
match. -/
structure Lowest (overloads : List Overload) (args : List Value) (found others : List Overload)
    (rank : Score) : Prop where
  parts : (found ++ others).Perm overloads
  lowest : ∀ o ∈ found, o.signature.Ranks args rank
  higher : ∀ o ∈ others, ∀ r, o.signature.Ranks args r → rank.Below r

/-- What a call of these overloads is decided to. -/
inductive Selects (name : String) (overloads : List Overload) (args : List Value) :
    Result Overload → Prop where
  | none (h : ∀ o ∈ overloads, ∀ rest, ¬o.signature.Matches args rest) :
      Selects name overloads args (.error (.noMatchingOverload name (args.map Value.kind)))
  | one {o : Overload} {others : List Overload} {rank : Score}
      (h : Lowest overloads args [o] others rank) : Selects name overloads args (.ok o)
  | several {found others : List Overload} {rank : Score}
      (h : Lowest overloads args found others rank) (hseveral : 2 ≤ found.length) :
      Selects name overloads args
        (.error (.ambiguousOverload name (args.map Value.kind) found.length))

end Overload

/-! ### Comparing scores -/

namespace Score

variable {s t u : Score}

theorem le_iff : s.le t = true ↔ s = t ∨ s.Below t := by
  obtain ⟨a, m⟩ := s
  obtain ⟨b, n⟩ := t
  rw [Below, Prod.Lex.toLex_lt_toLex, Score.mk.injEq, le]
  cases a <;> cases b <;> simp [le_iff_eq_or_lt]

theorem le_refl' (s : Score) : s.le s = true := le_iff.mpr (.inl rfl)

theorem Below.le (h : s.Below t) : s.le t = true := le_iff.mpr (.inr h)

theorem Below.trans_le (h : s.Below t) (hle : t.le u = true) : s.Below u := by
  rcases le_iff.mp hle with rfl | hbelow
  · exact h
  · exact lt_trans h hbelow

theorem Below.ne (h : s.Below t) : s ≠ t := by
  rintro rfl
  exact lt_irrefl _ h

theorem below_of_not_le (h : ¬s.le t = true) : t.Below s := by
  obtain ⟨a, m⟩ := s
  obtain ⟨b, n⟩ := t
  rw [le_iff, not_or, Score.mk.injEq] at h
  rcases lt_trichotomy (toLex (a, m)) (toLex (b, n)) with hlt | heq | hgt
  · exact absurd hlt h.2
  · exact absurd (Prod.mk.inj (toLex.injective heq)) h.1
  · exact hgt

end Score

/-! ### One pass -/

namespace Overload

variable {done overloads : List Overload} {args : List Value} {o : Overload}

/-- The overloads that match with a score. -/
def withScore (overloads : List Overload) (args : List Value) (score : Score) : List Overload :=
  overloads.filter fun o => o.signature.score? args = some score

theorem mem_withScore {score : Score} :
    o ∈ withScore overloads args score ↔ o ∈ overloads ∧ o.signature.score? args = some score := by
  rw [withScore, List.mem_filter, decide_eq_true_iff]

theorem withScore_concat (score : Score) :
    withScore (done ++ [o]) args score = withScore done args score
      ++ if o.signature.score? args = some score then [o] else [] := by
  rw [withScore, List.filter_append, List.filter_singleton, cond_eq_ite]
  simp only [decide_eq_true_eq]
  rfl

/-- What is known of the best match among the overloads that have been looked at. -/
structure Leads (done : List Overload) (args : List Value) (lead : Lead) : Prop where
  first : (withScore done args lead.score).head? = some lead.overload
  tied : lead.tied = (withScore done args lead.score).length
  least : ∀ o ∈ done, ∀ t, o.signature.score? args = some t → lead.score.le t = true

/-- The same if there is none. -/
def Reached (done : List Overload) (args : List Value) : Option Lead → Prop
  | none => ∀ o ∈ done, o.signature.score? args = none
  | some lead => Leads done args lead

theorem Leads.skip {lead : Lead} (h : Leads done args lead)
    (hskip : ∀ t, o.signature.score? args = some t → lead.score.Below t) :
    Leads (done ++ [o]) args lead := by
  have hother : ¬o.signature.score? args = some lead.score := fun heq => (hskip _ heq).ne rfl
  constructor
  · rw [withScore_concat, if_neg hother, List.append_nil, h.first]
  · rw [withScore_concat, if_neg hother, List.append_nil, h.tied]
  · intro o' ho' t ht
    rcases List.mem_append.mp ho' with hdone | hlast
    · exact h.least o' hdone t ht
    · rw [List.mem_singleton.mp hlast] at ht
      exact (hskip t ht).le

theorem Leads.tie {lead : Lead} (h : Leads done args lead)
    (htie : o.signature.score? args = some lead.score) :
    Leads (done ++ [o]) args { lead with tied := lead.tied + 1 } := by
  constructor
  · rw [withScore_concat, if_pos htie, List.head?_append, h.first, Option.some_or]
  · rw [withScore_concat, if_pos htie, List.length_append, ← h.tied, List.length_singleton]
  · intro o' ho' t ht
    rcases List.mem_append.mp ho' with hdone | hlast
    · exact h.least o' hdone t ht
    · rw [List.mem_singleton.mp hlast, htie] at ht
      cases ht
      exact lead.score.le_refl'

theorem leads_of_below {score : Score} (hscore : o.signature.score? args = some score)
    (hdone : ∀ o' ∈ done, ∀ t, o'.signature.score? args = some t → score.Below t) :
    Leads (done ++ [o]) args ⟨o, score, 1⟩ := by
  have hnone : withScore done args score = [] := by
    rw [List.eq_nil_iff_forall_not_mem]
    intro o' ho'
    obtain ⟨hmem, heq⟩ := mem_withScore.mp ho'
    exact (hdone o' hmem score heq).ne rfl
  constructor
  · rw [withScore_concat, if_pos hscore, hnone]
    rfl
  · rw [withScore_concat, if_pos hscore, hnone]
    rfl
  · intro o' ho' t ht
    rcases List.mem_append.mp ho' with hmem | hlast
    · exact (hdone o' hmem t ht).le
    · rw [List.mem_singleton.mp hlast, hscore] at ht
      cases ht
      exact score.le_refl'

theorem Reached.meet {best : Option Lead} (h : Reached done args best) (o : Overload) :
    Reached (done ++ [o]) args (meet args best o) := by
  unfold Overload.meet
  cases hscore : o.signature.score? args with
  | none =>
      cases best with
      | none =>
          intro o' ho'
          rcases List.mem_append.mp ho' with hmem | hlast
          · exact h o' hmem
          · rw [List.mem_singleton.mp hlast, hscore]
      | some lead => exact Leads.skip h fun t ht => by rw [hscore] at ht; cases ht
  | some score =>
      cases best with
      | none => exact leads_of_below hscore fun o' ho' t ht => by rw [h o' ho'] at ht; cases ht
      | some lead =>
          have hlead : Leads done args lead := h
          dsimp only
          by_cases hle : score.le lead.score = true
          · rw [hle, Bool.not_true, if_neg Bool.false_ne_true]
            by_cases htie : score = lead.score
            · rw [if_pos htie]
              exact hlead.tie (htie ▸ hscore)
            · rw [if_neg htie]
              have hbelow := (Score.le_iff.mp hle).resolve_left htie
              exact leads_of_below hscore fun o' ho' t ht =>
                hbelow.trans_le (hlead.least o' ho' t ht)
          · rw [Bool.not_eq_true] at hle
            rw [hle, Bool.not_false, if_pos rfl]
            refine hlead.skip fun t ht => ?_
            rw [hscore] at ht
            cases ht
            exact Score.below_of_not_le (Bool.not_eq_true _ ▸ hle)

theorem reached_foldl {best : Option Lead} (h : Reached done args best)
    (overloads : List Overload) :
    Reached (done ++ overloads) args (overloads.foldl (Overload.meet args) best) := by
  induction overloads generalizing done best with
  | nil => rwa [List.append_nil]
  | cons o rest ih =>
      have hrest := ih (h.meet o)
      rwa [List.append_assoc] at hrest

/-- What the search has reached at its end. -/
theorem reached (overloads : List Overload) (args : List Value) :
    Reached overloads args (overloads.foldl (Overload.meet args) none) := by
  have hstart : Reached [] args none := fun _ ho => absurd ho List.not_mem_nil
  exact reached_foldl hstart overloads

/-! ### The choice -/

section Choice

variable {name : String} {found others : List Overload} {rank : Score} {outcome : Result Overload}
  (hvalid : ∀ o ∈ overloads, o.signature.validate name = .ok ())

include hvalid

theorem score?_iff (ho : o ∈ overloads) :
    o.signature.score? args = some rank ↔ o.signature.Ranks args rank :=
  Signature.score?_eq_some_iff (Signature.form_of_validate (hvalid o ho))

theorem matches_iff (ho : o ∈ overloads) :
    (∃ rank, o.signature.Ranks args rank) ↔ ∃ rest, o.signature.Matches args rest :=
  Signature.exists_ranks_iff (Signature.form_of_validate (hvalid o ho))

theorem Leads.lowest {lead : Lead} (h : Leads overloads args lead) :
    Lowest overloads args (withScore overloads args lead.score)
      (overloads.filter fun o => !decide (o.signature.score? args = some lead.score)) lead.score := by
  refine ⟨List.filter_append_perm _ overloads, fun o ho => ?_, fun o ho r hr => ?_⟩
  · obtain ⟨hmem, hscore⟩ := mem_withScore.mp ho
    exact (score?_iff hvalid hmem).mp hscore
  · obtain ⟨hmem, hother⟩ := List.mem_filter.mp ho
    have hscore := (score?_iff hvalid hmem).mpr hr
    refine (Score.le_iff.mp (h.least o hmem r hscore)).resolve_left ?_
    rintro rfl
    rw [hscore, decide_eq_true rfl] at hother
    cases hother

theorem Lowest.perm_withScore (h : Lowest overloads args found others rank) :
    found.Perm (withScore overloads args rank) := by
  have hmem {o : Overload} (ho : o ∈ found ++ others) : o ∈ overloads := h.parts.mem_iff.mp ho
  have hfound : withScore found args rank = found := List.filter_eq_self.mpr fun o ho =>
    decide_eq_true ((score?_iff hvalid (hmem (List.mem_append_left _ ho))).mpr (h.lowest o ho))
  have hothers : withScore others args rank = [] := by
    rw [List.eq_nil_iff_forall_not_mem]
    intro o ho
    obtain ⟨ho, hscore⟩ := mem_withScore.mp ho
    exact (h.higher o ho rank
      ((score?_iff hvalid (hmem (List.mem_append_right _ ho))).mp hscore)).ne rfl
  have hperm := h.parts.filter fun o => decide (o.signature.score? args = some rank)
  rw [List.filter_append] at hperm
  change (withScore found args rank ++ withScore others args rank).Perm _ at hperm
  rwa [hfound, hothers, List.append_nil] at hperm

/-- Two descriptions of what ranks lowest agree. -/
theorem Lowest.score_eq {lead : Lead} (h : Lowest overloads args found others rank)
    (hlead : Leads overloads args lead) (hsome : found ≠ []) : lead.score = rank := by
  obtain ⟨o, ho⟩ := List.exists_mem_of_ne_nil found hsome
  have hle := hlead.least o (h.parts.mem_iff.mp (List.mem_append_left _ ho)) rank
    ((score?_iff hvalid (h.parts.mem_iff.mp (List.mem_append_left _ ho))).mpr (h.lowest o ho))
  obtain ⟨hmem, hscore⟩ := mem_withScore.mp (List.mem_of_head? hlead.first)
  have hranks := (score?_iff hvalid hmem).mp hscore
  rcases List.mem_append.mp (h.parts.mem_iff.mpr hmem) with hfound | hother
  · have hboth := ((score?_iff hvalid hmem).mpr (h.lowest _ hfound)).symm.trans hscore
    exact (Option.some.inj hboth).symm
  · exact absurd rfl ((h.higher _ hother _ hranks).trans_le hle).ne

theorem exists_lead (h : Lowest overloads args found others rank) (hsome : found ≠ []) :
    ∃ lead, overloads.foldl (Overload.meet args) none = some lead
      ∧ found.Perm (withScore overloads args lead.score)
      ∧ lead.tied = found.length ∧ (withScore overloads args lead.score).head? = some lead.overload := by
  have hreached := reached overloads args
  cases hlead : overloads.foldl (Overload.meet args) none with
  | none =>
      rw [hlead] at hreached
      obtain ⟨o, ho⟩ := List.exists_mem_of_ne_nil found hsome
      have hmem := h.parts.mem_iff.mp (List.mem_append_left others ho)
      have hscore := (score?_iff hvalid hmem).mpr (h.lowest o ho)
      rw [hreached o hmem] at hscore
      cases hscore
  | some lead =>
      rw [hlead] at hreached
      have hleads : Leads overloads args lead := hreached
      have hperm := h.perm_withScore hvalid
      rw [← h.score_eq hvalid hleads hsome] at hperm
      exact ⟨lead, rfl, hperm, hleads.tied.trans hperm.length_eq.symm, hleads.first⟩

theorem select_eq_of_selects (h : Selects name overloads args outcome) :
    select name overloads args = outcome := by
  unfold select
  cases h with
  | none hnone =>
      have hreached := reached overloads args
      cases hlead : overloads.foldl (Overload.meet args) none with
      | none => rfl
      | some lead =>
          rw [hlead] at hreached
          obtain ⟨hmem, hscore⟩ := mem_withScore.mp (List.mem_of_head? (Leads.first hreached))
          obtain ⟨rest, hranks⟩ := (score?_iff hvalid hmem).mp hscore
          exact absurd hranks.fits (hnone _ hmem rest)
  | @one o others rank hlowest =>
      obtain ⟨lead, hlead, hperm, htied, hfirst⟩ :=
        exists_lead hvalid hlowest (List.cons_ne_nil o [])
      rw [← List.singleton_perm.mp hperm] at hfirst
      obtain rfl : o = lead.overload := Option.some.inj hfirst
      rw [hlead]
      dsimp only
      rw [htied, List.length_singleton, if_neg (Nat.lt_irrefl 1)]
  | @several found others rank hlowest hseveral =>
      have hsome : found ≠ [] := List.ne_nil_of_length_pos (by omega)
      obtain ⟨lead, hlead, -, htied, -⟩ := exists_lead hvalid hlowest hsome
      rw [hlead]
      dsimp only
      rw [htied, if_pos (Nat.lt_of_succ_le hseveral)]

theorem selects_select : Selects name overloads args (select name overloads args) := by
  have hreached := reached overloads args
  unfold select
  cases hlead : overloads.foldl (Overload.meet args) none with
  | none =>
      rw [hlead] at hreached
      refine .none fun o ho rest hmatch => ?_
      obtain ⟨rank, hranks⟩ := (matches_iff hvalid ho).mpr ⟨rest, hmatch⟩
      have hscore := (score?_iff hvalid ho).mpr hranks
      rw [hreached o ho] at hscore
      cases hscore
  | some lead =>
      rw [hlead] at hreached
      have hleads : Leads overloads args lead := hreached
      have hlowest := hleads.lowest hvalid
      dsimp only
      rw [hleads.tied]
      by_cases hseveral : 1 < (withScore overloads args lead.score).length
      · rw [if_pos hseveral]
        exact .several hlowest hseveral
      · have hfirst := hleads.first
        rw [if_neg hseveral]
        match hfound : withScore overloads args lead.score with
        | [] =>
            rw [hfound] at hfirst
            cases hfirst
        | [o] =>
            rw [hfound] at hfirst hlowest
            cases hfirst
            exact .one hlowest
        | _ :: _ :: _ =>
            rw [hfound] at hseveral
            exact absurd (Nat.succ_lt_succ (Nat.succ_pos _)) hseveral

end Choice

theorem Selects.perm {name : String} {permuted : List Overload} {outcome : Result Overload}
    (h : Selects name overloads args outcome) (hperm : overloads.Perm permuted) :
    Selects name permuted args outcome := by
  have hlowest {found others : List Overload} {rank : Score}
      (h : Lowest overloads args found others rank) : Lowest permuted args found others rank :=
    ⟨h.parts.trans hperm, h.lowest, h.higher⟩
  cases h with
  | none hnone => exact .none fun o ho => hnone o (hperm.mem_iff.mpr ho)
  | one h => exact .one (hlowest h)
  | several h hseveral => exact .several (hlowest h) hseveral

/-- The search finds what the ranks of the overloads decide, in whatever order they stand. -/
theorem select_iff {name : String} (hvalid : ∀ o ∈ overloads, o.signature.validate name = .ok ())
    (args : List Value) :
    (∀ o ∈ overloads,
      ((∃ rank, o.signature.Ranks args rank) ↔ ∃ rest, o.signature.Matches args rest)
      ∧ ∀ rank, o.signature.score? args = some rank ↔ o.signature.Ranks args rank)
    ∧ (∀ outcome, select name overloads args = outcome ↔ Selects name overloads args outcome)
    ∧ ∀ permuted, overloads.Perm permuted →
      select name permuted args = select name overloads args := by
  refine ⟨fun o ho => ⟨matches_iff hvalid ho, fun rank => score?_iff hvalid ho⟩,
    fun outcome => ⟨?_, select_eq_of_selects hvalid⟩, fun permuted hperm => ?_⟩
  · rintro rfl
    exact selects_select hvalid
  · exact select_eq_of_selects (fun o ho => hvalid o (hperm.mem_iff.mpr ho))
      ((selects_select hvalid).perm hperm)

/-- A conversion ranks behind two variadic parameters, and those are equally wide. -/
theorem select_iff_tied :
    ∃ overloads : List Overload,
      overloads.map (·.signature) = [⟨[.fixed (.only .matrix)]⟩,
        ⟨[.variadic ⟨.any, 0, some 2, 1⟩, .fixed (.only .scalar)]⟩,
        ⟨[.variadic ⟨.only .scalar, 1, some 3, 2⟩]⟩]
      ∧ (∀ o ∈ overloads, o.signature.validate "f" = .ok ())
      ∧ Selects "f" overloads [.ofNat 7] (.error (.ambiguousOverload "f" [.scalar] 2)) := by
  have hvalid : ∀ o ∈ [⟨[.fixed (.only .matrix)]⟩,
      ⟨[.variadic ⟨.any, 0, some 2, 1⟩, .fixed (.only .scalar)]⟩,
      ⟨[.variadic ⟨.only .scalar, 1, some 3, 2⟩]⟩].map
        (Overload.mk · (.ofResult fun _ => .ok .emptyMatrix)),
      o.signature.validate "f" = .ok () := by
    simp only [List.map_cons, List.map_nil, List.forall_mem_cons]
    exact ⟨rfl, rfl, rfl, fun _ ho => absurd ho List.not_mem_nil⟩
  exact ⟨_, rfl, hvalid, ((select_iff hvalid [.ofNat 7]).2.1 _).mp rfl⟩

end Overload

end MatrixScript
