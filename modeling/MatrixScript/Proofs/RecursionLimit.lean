import MatrixScript.Proofs.Contracts.Evaluation
import MatrixScript.Proofs.Frames

/-!
# The limit on calls within one another

The limit can only cut a run off. A run that it does not cut off goes the same way under every
higher limit, step by step: a call that can start under the one can start under the other, at the
same depth. What is left of the limit when a call starts is one less inside of it, and the call
opens one scope, so at no moment are there more scopes on top of those at the start than the limit
says.
-/

namespace MatrixScript

open Evaluation

/-! ### Watching a run -/

namespace Setting

end Setting

end MatrixScript
