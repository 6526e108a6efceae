import MatrixScript.Text.Utf8
import MatrixScript.Value.Basic

/-!
# Saving values

A value is saved as bytes: whole numbers and doubles with the least byte first, a text or a list
with its length before it, a choice with its number before what it holds, a structure part by part.
-/

namespace MatrixScript

namespace Saved

/-- The lowest `n` bytes of a number, the least first. -/
def littleEndian : Nat → Nat → List UInt8
  | 0, _ => []
  | n + 1, x => UInt8.ofNat x :: littleEndian n (x / 256)

def word (x : UInt32) : List UInt8 := littleEndian 4 x.toNat

/-- The number of a choice. -/
def tag (n : Nat) : List UInt8 := littleEndian 4 n

def count (n : Nat) : List UInt8 := littleEndian 8 n

def double (x : Double) : List UInt8 := littleEndian 8 x.bits.toNat

def flag (b : Bool) : List UInt8 := [if b then 1 else 0]

def text (s : String) : List UInt8 :=
  let bytes := Utf8.encode s.toList
  count bytes.length ++ bytes

def list {α : Type} (f : α → List UInt8) (xs : List α) : List UInt8 :=
  count xs.length ++ xs.flatMap f

def option {α : Type} (f : α → List UInt8) : Option α → List UInt8
  | none => [0]
  | some x => 1 :: f x

def complex (z : Complex) : List UInt8 := double z.re ++ double z.im

def matrix (m : Matrix) : List UInt8 :=
  count m.rows ++ count m.cols ++ list complex m.data.toList

def bound : Bound → List UInt8
  | .at x => tag 0 ++ double x
  | .open => tag 1

def progression (r : Progression) : List UInt8 := double r.start ++ double r.step ++ bound r.stop

def element : Element → List UInt8
  | .number z => tag 0 ++ complex z
  | .text s => tag 1 ++ text s

def elementSet (s : ElementSet) : List UInt8 :=
  text s.name ++ flag s.ordered ++ list element s.elements

/-! ### Bodies -/

def nodeId (id : NodeId) : List UInt8 := word id.index

def binaryOp (op : BinaryOp) : List UInt8 := tag (BinaryOp.all.idxOf op)

def unaryOp (op : UnaryOp) : List UInt8 := tag (UnaryOp.all.idxOf op)

def nodeKind : NodeKind NodeId → List UInt8
  | .real x => tag 0 ++ double x
  | .imaginary x => tag 1 ++ double x
  | .text s => tag 2 ++ text s
  | .name s => tag 3 ++ text s
  | .last => tag 4
  | .everything => tag 5
  | .unary op a => tag 6 ++ unaryOp op ++ nodeId a
  | .binary op a b => tag 7 ++ binaryOp op ++ nodeId a ++ nodeId b
  | .range a b => tag 8 ++ nodeId a ++ nodeId b
  | .assign a op b => tag 9 ++ nodeId a ++ option binaryOp op ++ nodeId b
  | .call f args => tag 10 ++ nodeId f ++ list nodeId args
  | .matrix rows => tag 11 ++ list (list nodeId) rows
  | .tuple items => tag 12 ++ list nodeId items
  | .lambda params body => tag 13 ++ list text params ++ nodeId body
  | .block statements => tag 14 ++ list (fun (a, muted) => nodeId a ++ flag muted) statements
  | .branch c y n => tag 15 ++ nodeId c ++ nodeId y ++ nodeId n
  | .whileLoop c b => tag 16 ++ nodeId c ++ nodeId b
  | .forLoop i c s b => tag 17 ++ nodeId i ++ nodeId c ++ nodeId s ++ nodeId b

def node (n : Node) : List UInt8 := nodeKind n.kind ++ word n.span.start ++ word n.span.stop

def forest (f : Forest) : List UInt8 := list node f.nodes.toList

def lambda (f : Lambda) : List UInt8 := list text f.params ++ nodeId f.root ++ forest f.forest

/-! ### Values -/

mutual

def value : Value → List UInt8
  | .scalar z => tag 0 ++ complex z
  | .matrix m => tag 1 ++ matrix m
  | .text s => tag 2 ++ text s
  | .range r => tag 3 ++ progression r
  | .set s => tag 4 ++ elementSet s
  | .function f => tag 5 ++ callable f
  | .plot title xs => tag 6 ++ text title ++ count xs.length ++ seriesAll xs

def callable : Callable → List UInt8
  | .lambda f captures => tag 0 ++ lambda f ++ count captures.length ++ captureAll captures
  | .named name => tag 1 ++ text name

def series : Series → List UInt8
  | .points x y => tag 0 ++ matrix x ++ matrix y
  | .curve f a b => tag 1 ++ callable f ++ double a ++ double b

def seriesAll : List Series → List UInt8
  | [] => []
  | x :: xs => series x ++ seriesAll xs

def captureAll : List Capture → List UInt8
  | [] => []
  | .mk name v :: rest => text name ++ value v ++ captureAll rest

end

end Saved

/-- The bytes of a saved value. -/
def Value.toBytes (v : Value) : List UInt8 := Saved.value v

end MatrixScript
