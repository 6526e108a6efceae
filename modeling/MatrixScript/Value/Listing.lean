import MatrixScript.Text.Hidden
import MatrixScript.Value.Basic

/-!
# Listings of values

A value with its kind, as it is listed for whoever looks into a session.
-/

namespace MatrixScript

def Value.listed : Value → String
  | .scalar z => "Scalar(" ++ z.text ++ ")"
  | .matrix m =>
    "Matrix(" ++ toString m.rows ++ ", " ++ toString m.cols ++ ")" ++ m.text
  | .text s => "Str(" ++ quoted s ++ ")"
  | .range r => "Range(" ++ r.text ++ ")"
  | .set s => "Set(" ++ s.text ++ ")"
  | .function f => "Function(" ++ f.text ++ ")"
  | .plot title series => "Plot(" ++ Value.plotText title series ++ ")"

end MatrixScript
