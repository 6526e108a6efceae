import MatrixScript.Proofs.Contracts.Evaluation
import MatrixScript.Session

/-!
# Where errors are placed

An operation fails without a place, and the innermost node that is evaluated gives its own span to
the error, unless the error has one already. In the body of a function these are spans of the text
that the function was written in. An error leaves the call without its span, and the call, a node of
the text that is running, gives it another one. So errors that come from a forest are placed at
nodes of that forest, however deep in calls they arise.
-/

namespace MatrixScript

open Evaluation

namespace Setting

variable {s : Setting} {fuel : Nat} {m : Machine}

/-- The node that is evaluated places an error that has not been placed closer. -/
theorem span_isSome_of_evaluate {id : NodeId} {e : EvalError}
    (h : ((evaluate fuel s id).run.run m).1 = .error (.failed e)) : e.span.isSome = true := by
  cases fuel with
  | zero => cases h
  | succ fuel =>
      unfold evaluate Setting.node at h
      split at h
      · rename_i node _
        change ((s.value (evaluate fuel) fuel node.kind).run.run m).1.mapError _ = _ at h
        generalize ((s.value (evaluate fuel) fuel node.kind).run.run m).1 = r at h
        cases r with
        | ok v => cases h
        | error stop =>
            cases stop with
            | failed e' =>
                cases h
                change (e'.span.or (some node.span)).isSome = true
                rw [Option.isSome_or, Option.isSome_some, Bool.or_true]
            | missingNode id => cases h
            | outOfFuel => cases h
      · cases h

end Setting

namespace Session

end Session

end MatrixScript
