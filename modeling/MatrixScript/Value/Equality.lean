import MatrixScript.Value.Basic

/-!
# Equality of values

Values are equal when they show the same thing: numbers are compared as numbers, so a NaN equals
nothing, and a scalar equals the matrix of its one element. Functions are equal when parameters,
body and captured variables are, the body together with its spans. The body of a copy is equal to
that of the function it is a copy of, even where a literal in it is a NaN.
-/

namespace MatrixScript

namespace NodeKind

/-- Equality with literals compared as numbers. -/
def eq : NodeKind NodeId → NodeKind NodeId → Bool
  | real x, real y => x.eq y
  | imaginary x, imaginary y => x.eq y
  | k, l => k == l

end NodeKind

def Node.eq (m n : Node) : Bool := m.kind.eq n.kind && m.span == n.span

def Forest.eq (f g : Forest) : Bool :=
  f.size == g.size && (f.nodes.zip g.nodes).all fun (m, n) => m.eq n

namespace Lambda

/-- Whether two lambdas share one body. -/
def sharesBody (f g : Lambda) : Bool :=
  f.serial.isSome && f.serial == g.serial && f.forest == g.forest

def eq (f g : Lambda) : Bool :=
  f.params == g.params && f.root == g.root && (f.sharesBody g || f.forest.eq g.forest)

end Lambda

mutual

def Value.eq : Value → Value → Bool
  | .scalar z, .scalar w => z.eq w
  | .matrix m, .matrix n => m.eq n
  | .scalar z, .matrix m => m.scalar?.any (·.eq z)
  | .matrix m, .scalar z => m.scalar?.any (·.eq z)
  | .text s, .text t => s == t
  | .range r, .range s => r.eq s
  | .set s, .set t => s.eq t
  | .function f, .function g => f.eq g
  | .plot s xs, .plot t ys => s == t && Series.eqAll xs ys
  | _, _ => false

def Callable.eq : Callable → Callable → Bool
  | .lambda f cs, .lambda g ds => f.eq g && Capture.eqAll cs ds
  | .named s, .named t => s == t
  | _, _ => false

def Series.eq : Series → Series → Bool
  | .points x y, .points z w => x.eq z && y.eq w
  | .curve f a b, .curve g c d => f.eq g && a.eq c && b.eq d
  | _, _ => false

def Series.eqAll : List Series → List Series → Bool
  | [], [] => true
  | x :: xs, y :: ys => x.eq y && Series.eqAll xs ys
  | _, _ => false

def Capture.eqAll : List Capture → List Capture → Bool
  | [], [] => true
  | .mk s v :: cs, .mk t w :: ds => s == t && v.eq w && Capture.eqAll cs ds
  | _, _ => false

end

end MatrixScript
