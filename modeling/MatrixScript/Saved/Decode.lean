import MatrixScript.Text.Utf8
import MatrixScript.Value.Basic

/-!
# Reading saved values

Reads what saving writes; bytes behind the value are ignored. Each part is read completely before it
is checked, and the checks are those of the constructors, so what is read is well-formed at every
level. An element that a set already holds is passed over.
-/

namespace MatrixScript

inductive DecodeFault where
  | endOfData
  | endOfText
  | badTag (found choices : Nat)
  | badOption (found : Nat)
  | badFlag (found : Nat)
  | badText (cause : Utf8Fault)
  /-- The parts do not make up a value. -/
  | rejected (cause : Fault)
  /-- The bytes nest more deeply than there are bytes. -/
  | tooDeep

namespace DecodeFault

def message : DecodeFault → String
  | endOfData | tooDeep => "io error: unexpected end of file"
  | endOfText => "io error: "
  | badTag found choices =>
    "invalid value: integer `" ++ toString found ++ "`, expected variant index 0 <= i < "
      ++ toString choices
  | badOption found => "tag for enum is not valid, found " ++ toString found
  | badFlag found =>
    "invalid u8 while decoding bool, expected 0 or 1, found " ++ toString found
  | badText cause => "string is not valid utf8: " ++ cause.message
  | rejected cause => cause.message

end DecodeFault

/-- A reader takes bytes from the front. -/
abbrev Decoder := StateT (List UInt8) (Except DecodeFault)

namespace Decoder

/-- The number in the next `n` bytes, the least byte first. -/
def littleEndian : Nat → Decoder Nat
  | 0 => return 0
  | n + 1 => do
    match ← get with
    | [] => throw .endOfData
    | b :: rest =>
      set rest
      return b.toNat + 256 * (← littleEndian n)

/-- A fixed width is there completely or not at all. -/
def fixed (width : Nat) : Decoder Nat := littleEndian width

def word : Decoder UInt32 := return UInt32.ofNat (← fixed 4)

def count : Decoder Nat := fixed 8

def double : Decoder Double := return ⟨UInt64.ofNat (← fixed 8)⟩

/-- The number of a choice. -/
def tag (choices : Nat) : Decoder Nat := do
  let n ← fixed 4
  if n < choices then return n else throw (.badTag n choices)

def flag : Decoder Bool := do
  match ← fixed 1 with
  | 0 => return false
  | 1 => return true
  | n => throw (.badFlag n)

def text : Decoder String := do
  let n ← count
  let bytes ← get
  if bytes.length < n then throw .endOfText
  else
    set (bytes.drop n)
    match Utf8.decode (bytes.take n) with
    | .ok cs => return String.ofList cs
    | .error cause => throw (.badText cause)

/-- So many times the same. -/
def repeated {α : Type} (d : Decoder α) : Nat → Decoder (List α)
  | 0 => return []
  | n + 1 => do
    let x ← d
    return x :: (← repeated d n)

def list {α : Type} (d : Decoder α) : Decoder (List α) := do repeated d (← count)

def option {α : Type} (d : Decoder α) : Decoder (Option α) := do
  match ← fixed 1 with
  | 0 => return none
  | 1 => return some (← d)
  | n => throw (.badOption n)

/-- Parts that have to pass a check. -/
def checked {α : Type} (r : Result α) : Decoder α :=
  match r with
  | .ok x => return x
  | .error cause => throw (.rejected cause)

def complex : Decoder Complex := do
  let re ← double
  let im ← double
  return ⟨re, im⟩

def matrix : Decoder Matrix := do
  let rows ← count
  let cols ← count
  let data ← list complex
  checked (Matrix.ofData rows cols data.toArray)

def bound : Decoder Bound := do
  match ← tag 2 with
  | 0 => return .at (← double)
  | _ => return .open

def progression : Decoder Progression := do
  let start ← double
  let step ← double
  let stop ← bound
  checked (Progression.make start step stop)

def element : Decoder Element := do
  match ← tag 2 with
  | 0 => return .number (← complex)
  | _ => return .text (← text)

/-- A set of these elements. One that claims to be ordered has to be. -/
def makeSet (name : String) (ordered : Bool) (elements : List Element) : Result ElementSet :=
  let distinct := ((ElementSet.empty name false).insertAll elements).elements
  if ordered && !ElementSet.ascending distinct then
    .error (.argumentValue ("the sorted set " ++ name ++ " holds its elements out of order"))
  else .ok ⟨name, ordered, distinct⟩

def elementSet : Decoder ElementSet := do
  let name ← text
  let ordered ← flag
  let elements ← list element
  checked (makeSet name ordered elements)

/-! ### Bodies -/

def nodeId : Decoder NodeId := return ⟨← word⟩

def binaryOp : Decoder BinaryOp := do
  return BinaryOp.all.getD (← tag BinaryOp.all.length) .add

def unaryOp : Decoder UnaryOp := do
  return UnaryOp.all.getD (← tag UnaryOp.all.length) .neg

def statement : Decoder (NodeId × Bool) := do
  let a ← nodeId
  let muted ← flag
  return (a, muted)

def nodeKind : Decoder (NodeKind NodeId) := do
  match ← tag 18 with
  | 0 => return .real (← double)
  | 1 => return .imaginary (← double)
  | 2 => return .text (← text)
  | 3 => return .name (← text)
  | 4 => return .last
  | 5 => return .everything
  | 6 => do
    let op ← unaryOp
    return .unary op (← nodeId)
  | 7 => do
    let op ← binaryOp
    let a ← nodeId
    return .binary op a (← nodeId)
  | 8 => do
    let a ← nodeId
    return .range a (← nodeId)
  | 9 => do
    let a ← nodeId
    let op ← option binaryOp
    return .assign a op (← nodeId)
  | 10 => do
    let f ← nodeId
    return .call f (← list nodeId)
  | 11 => return .matrix (← list (list nodeId))
  | 12 => return .tuple (← list nodeId)
  | 13 => do
    let params ← list text
    return .lambda params (← nodeId)
  | 14 => return .block (← list statement)
  | 15 => do
    let c ← nodeId
    let y ← nodeId
    return .branch c y (← nodeId)
  | 16 => do
    let c ← nodeId
    return .whileLoop c (← nodeId)
  | _ => do
    let i ← nodeId
    let c ← nodeId
    let s ← nodeId
    return .forLoop i c s (← nodeId)

def node : Decoder Node := do
  let kind ← nodeKind
  let start ← word
  let stop ← word
  return ⟨kind, ⟨start, stop⟩⟩

def forest : Decoder Forest := return ⟨(← list node).toArray⟩

def lambda : Decoder Lambda := do
  let params ← list text
  let root ← nodeId
  return ⟨params, root, ← forest, none⟩

/-- A body is accepted if its root is there and all links lead somewhere. -/
def checkLambda (f : Lambda) : Result Unit :=
  if !f.forest.contains f.root then
    .error <| .serialization <|
      "lambda body " ++ f.root.text ++ " is outside its arena of " ++ toString f.forest.size
        ++ " nodes"
  else
    match f.forest.brokenLink? with
    | some link => .error (.serialization link.message)
    | none => .ok ()

/-! ### Values

Values nest through captured variables and curves. The fuel counts the levels. -/

def capture (value : Decoder Value) : Decoder Capture := do
  let name ← text
  return .mk name (← value)

def callable (value : Decoder Value) : Decoder Callable := do
  match ← tag 2 with
  | 0 => do
    let f ← lambda
    let captures ← list (capture value)
    checked (checkLambda f)
    return .lambda f captures
  | _ => return .named (← text)

def series (value : Decoder Value) : Decoder Series := do
  match ← tag 2 with
  | 0 => do
    let x ← matrix
    return .points x (← matrix)
  | _ => do
    let f ← callable value
    let start ← double
    return .curve f start (← double)

def value : Nat → Decoder Value
  | 0 => throw .tooDeep
  | fuel + 1 => do
    match ← tag 7 with
    | 0 => return .scalar (← complex)
    | 1 => return .matrix (← matrix)
    | 2 => return .text (← text)
    | 3 => return .range (← progression)
    | 4 => return .set (← elementSet)
    | 5 => return .function (← callable (value fuel))
    | _ => do
      let title ← text
      return .plot title (← list (series (value fuel)))

end Decoder

/-- The value that bytes save, if they save one. -/
def Value.ofBytes (bytes : List UInt8) : Result Value :=
  match (Decoder.value (bytes.length + 1)).run bytes with
  | .ok (v, _) => .ok v
  | .error fault => .error (.serialization fault.message)

end MatrixScript
