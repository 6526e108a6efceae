import MatrixScript.Proofs.ErrorPlaces
import MatrixScript.Proofs.Runs
import MatrixScript.Proofs.Values.Progressions

/-!
# Ranges of three numbers

Colons group to the right: `a:b:c` is a range of `a` and the range `b:c`. The inner range is made
first, in steps of one, and refused if that takes too many of them, although the outer range would
only use its numbers. If it is not refused, the outer range is the one with these three numbers, or
the error that they give. The range `b:end` is open and so never too long.
-/

namespace MatrixScript

open Evaluation

namespace Setting

variable {s : Setting} {fuel : Nat} {m m₁ m₂ m₃ : Machine} {id left right : NodeId} {node : Node}
  {span : Span} {u v : Value}

section Range

variable (hid : s.forest.get? id = some ⟨.range left right, span⟩)
  (hright : s.forest.get? right = some node)
  (hu : (evaluate fuel s left).run.run m = (.ok u, m₁))

include hid hright hu

theorem evaluate_range (hkind : node.kind ≠ .last)
    (hv : (evaluate fuel s right).run.run m₁ = (.ok v, m₂)) :
    (evaluate (fuel + 1) s id).run.run m
      = ((Value.makeRange u (some v)).mapError (Fault.at span), m₂) := by
  refine run_evaluate_ofResult hid ?_
  change (s.range (evaluate fuel) left right).run.run m = _
  rw [range, run_bind_of_ok hu, run_bind_of_ok (run_kind hright)]
  split
  · contradiction
  · rw [run_bind_of_ok hv]

/-- An error of the right operand has been placed in there. -/
theorem evaluate_range_error (hkind : node.kind ≠ .last) {e : EvalError}
    (he : (evaluate fuel s right).run.run m₁ = (.error (.failed e), m₂)) :
    (evaluate (fuel + 1) s id).run.run m = (.error (.failed e), m₂) := by
  have hplaced : e.span.isSome = true := span_isSome_of_evaluate (congrArg Prod.fst he)
  obtain ⟨inner, hinner⟩ := Option.isSome_iff_exists.mp hplaced
  have hvalue : (s.range (evaluate fuel) left right).run.run m = (.error (.failed e), m₂) := by
    rw [range, run_bind_of_ok hu, run_bind_of_ok (run_kind hright)]
    split
    · contradiction
    · rw [run_bind_of_error he]
  exact (run_evaluate hid).trans (run_locatedAt_of_placed hinner hvalue span)

theorem evaluate_range_last (hkind : node.kind = .last) :
    (evaluate (fuel + 1) s id).run.run m
      = ((Value.makeRange u none).mapError (Fault.at span), m₁) := by
  refine run_evaluate_ofResult hid ?_
  change (s.range (evaluate fuel) left right).run.run m = _
  rw [range, run_bind_of_ok hu, run_bind_of_ok (run_kind hright), hkind]

end Range

/-! ### A range on the right of a range -/

section Chain

variable {x y z inner : NodeId} {innerSpan : Span} {a b : Double}
  (hid : s.forest.get? id = some ⟨.range x inner, span⟩)
  (hinner : s.forest.get? inner = some ⟨.range y z, innerSpan⟩)
  (hz : s.forest.get? z = some node)
  (hx : (evaluate (fuel + 1) s x).run.run m = (.ok u, m₁)) (hu : u.real? = some a)
  (hy : (evaluate fuel s y).run.run m₁ = (.ok v, m₂)) (hv : v.real? = some b)

include hid hinner hz hx hu hy hv

/-- The inner range is checked as one by ones, then the outer one as one of its three numbers. -/
theorem evaluate_chain {w : Value} {c : Double} (hkind : node.kind ≠ .last)
    (hw : (evaluate fuel s z).run.run m₂ = (.ok w, m₃)) (hc : w.real? = some c) :
    (evaluate (fuel + 2) s id).run.run m
      = (if (Progression.byOnes b c).isTooLong then
          .error ((Progression.byOnes b c).excess.at innerSpan)
        else (Value.range <$> Progression.make a b (.at c)).mapError (Fault.at span), m₃) := by
  have hrange := evaluate_range hinner hz hy hkind hw
  rw [Value.makeRange_real? hv hc] at hrange
  by_cases hlong : (Progression.byOnes b c).isTooLong = true
  · rw [if_pos hlong] at hrange ⊢
    exact evaluate_range_error hid hinner hx nofun hrange
  · rw [if_neg hlong] at hrange ⊢
    rw [evaluate_range hid hinner hx nofun hrange, Value.makeRange_range hu]
    rfl

theorem evaluate_chain_last (hkind : node.kind = .last) (hzero : b.isZero = false)
    (hnan : b.isNaN = false) :
    (evaluate (fuel + 2) s id).run.run m = (.ok (.range ⟨a, b, .open⟩), m₂) := by
  have hrange := evaluate_range_last hinner hz hy hkind
  rw [Value.makeRange_none hv, Progression.make_open rfl rfl] at hrange
  rw [evaluate_range hid hinner hx nofun hrange, Value.makeRange_range hu,
    Progression.make_open hzero hnan]
  rfl

end Chain

end Setting

namespace Session

variable {s : Session} {fuel : Nat}

/-- The nodes of `a:b:` and an operand that ends at `stop`. -/
def chained (operand : NodeKind NodeId) (stop : UInt32) : Forest :=
  ⟨#[⟨.name "a", ⟨0, 1⟩⟩, ⟨.name "b", ⟨2, 3⟩⟩, ⟨operand, ⟨4, stop⟩⟩, ⟨.range ⟨1⟩ ⟨2⟩, ⟨2, stop⟩⟩,
    ⟨.range ⟨0⟩ ⟨3⟩, ⟨0, stop⟩⟩]⟩

theorem parse_chain :
    Grammar.standard.parse "a:b:c".toList = .ok ⟨chained (.name "c") 5, [⟨⟨4⟩, false⟩]⟩ := by
  decide +kernel

theorem parse_chain_last :
    Grammar.standard.parse "a:b:end".toList = .ok ⟨chained .last 7, [⟨⟨4⟩, false⟩]⟩ := by
  decide +kernel

/-- For real numbers `a`, `b` and `c`, the text `a:b:c` gives the range of these three numbers, or
the error that they give, unless the range `b:c`, in steps of one, has too many elements: then the
text gives the error of that range, whatever `a` is. The text `a:b:end` always gives the open range
of its two numbers. -/
theorem query_chain (hgrammar : s.grammar = Grammar.standard) (hclock : s.InTime)
    {u v w : Value} (hu : s.get? "a" = some u) (hv : s.get? "b" = some v) (hw : s.get? "c" = some w)
    {a b c : Double} (ha : u.real? = some a) (hb : v.real? = some b) (hc : w.real? = some c)
    (hzero : b.isZero = false) (hnan : b.isNaN = false) (hfuel : 3 ≤ fuel) :
    s.query fuel "a:b:c"
      = (if (Progression.byOnes b c).isTooLong then
          .error (.stopped ((Progression.byOnes b c).excess.at ⟨2, 5⟩))
        else
          match Progression.make a b (.at c) with
          | .ok r => .ok [some (.range r)]
          | .error fault => .error (.stopped (fault.at ⟨0, 5⟩)), s)
    ∧ ∃ r, Progression.make a b .open = .ok r
      ∧ s.query fuel "a:b:end" = (.ok [some (.range r)], s) := by
  obtain ⟨fuel, rfl⟩ := Nat.exists_eq_add_of_le' hfuel
  constructor
  · have hkind : NodeKind.name "c" ≠ (.last : NodeKind NodeId) := nofun
    rw [query_of_parse (hgrammar ▸ parse_chain), execute_single hclock _ fun checks =>
      Setting.evaluate_chain rfl rfl rfl (evaluate_variable hu rfl checks) ha
        (evaluate_variable hv rfl checks) hb hkind (evaluate_variable hw rfl checks) hc]
    by_cases hlong : (Progression.byOnes b c).isTooLong = true
    · rw [if_pos hlong, if_pos hlong]
      rfl
    · rw [if_neg hlong, if_neg hlong]
      cases Progression.make a b (.at c) <;> rfl
  · refine ⟨⟨a, b, .open⟩, Progression.make_open hzero hnan, ?_⟩
    rw [query_of_parse (hgrammar ▸ parse_chain_last), execute_single hclock _ fun checks =>
      Setting.evaluate_chain_last rfl rfl rfl (evaluate_variable hu rfl checks) ha
        (evaluate_variable hv rfl checks) hb rfl hzero hnan]
    rfl

/-- The outer range goes down in steps of one, and the inner range goes up. -/
theorem query_chain_down :
    let s := standard.bind [("a", .ofNat 5), ("b", .real (-Double.one)), ("c", .ofNat 1)]
    s.query 3 "a:b:c" = (.ok [some (.range ⟨.ofNat 5, -Double.one, .at (.ofNat 1)⟩)], s)
      ∧ ∃ r, Progression.make (.ofNat 5) (-Double.one) .open = .ok r
        ∧ s.query 3 "a:b:end" = (.ok [some (.range r)], s) := by
  intro s
  have hchain := query_chain (s := s) (a := .ofNat 5) (b := -Double.one) (c := .ofNat 1) rfl nofun
    rfl rfl rfl rfl rfl rfl (by decide) (by decide) (Nat.le_refl 3)
  have hshort : (Progression.byOnes (-Double.one) (.ofNat 1)).isTooLong = false := by
    decide +kernel
  have hmake : Progression.make (.ofNat 5) (-Double.one) (.at (.ofNat 1))
      = .ok ⟨.ofNat 5, -Double.one, .at (.ofNat 1)⟩ := by decide +kernel
  rw [hshort, hmake] at hchain
  exact hchain

/-- A range of 101 elements is refused if its step and its end are far apart. -/
theorem not_query_chain : ¬∀ a b c : Double, b.isZero = false → b.isNaN = false →
    ∀ r, Progression.make a b (.at c) = .ok r →
      ((standard.bind [("a", .real a), ("b", .real b), ("c", .real c)]).query 3 "a:b:c").1
        = .ok [some (.range r)] := by
  intro h
  have hmake : Progression.make (.ofNat 0) (.ofNat 10000000) (.at (.ofNat 1000000000))
      = .ok ⟨.ofNat 0, .ofNat 10000000, .at (.ofNat 1000000000)⟩ := by decide +kernel
  have hfails : ((standard.bind [("a", .real (.ofNat 0)), ("b", .real (.ofNat 10000000)),
      ("c", .real (.ofNat 1000000000))]).query 3 "a:b:c").1.isOk = false := by decide +kernel
  rw [h _ _ _ (by decide +kernel) (by decide +kernel) _ hmake] at hfails
  cases hfails

end Session

end MatrixScript
