import MatrixScript.Evaluation.Fault

/-!
# Sets

A set holds numbers and texts, each of them once: the two zeros count as one number and all NaNs as
another. Elements stand in the order of their insertion, or, in an ordered set, in ascending order,
numbers before texts.
-/

namespace MatrixScript

inductive Element where
  | number (z : Complex)
  | text (s : String)
deriving DecidableEq, Inhabited

/-- The double that stands for all that count as one element with it. -/
def Double.representative (x : Double) : Double :=
  if x.isZero then Double.zero else if x.isNaN then Double.nan else x

namespace Element

/-- The number by its representatives. -/
def representative (z : Complex) : Complex := ⟨z.re.representative, z.im.representative⟩

/-- Whether two elements count as one. -/
def same : Element → Element → Bool
  | number z, number w => representative z == representative w
  | text s, text t => s == t
  | _, _ => false

/-- Numbers come before texts. Numbers are compared by real part, then by imaginary part. -/
def compare : Element → Element → Ordering
  | number z, number w => (representative z).totalCompare (representative w)
  | number _, text _ => .lt
  | text _, number _ => .gt
  | text s, text t => compareOfLessAndEq s t

/-- What an element is hashed by: a tag, and the bits of a number's representatives or the text. -/
def key : Element → UInt8 × (UInt64 × UInt64 ⊕ String)
  | number z => (0, .inl ((representative z).re.bits, (representative z).im.bits))
  | text s => (1, .inr s)

def display : Element → String
  | number z => z.text
  | text s => "\"" ++ s ++ "\""

end Element

structure ElementSet where
  name : String
  ordered : Bool
  elements : List Element
deriving DecidableEq, Inhabited

namespace ElementSet

def empty (name : String) (ordered : Bool) : ElementSet := ⟨name, ordered, []⟩

def size (s : ElementSet) : Nat := s.elements.length

def isEmpty (s : ElementSet) : Bool := s.elements.isEmpty

def contains (s : ElementSet) (x : Element) : Bool := s.elements.any x.same

/-- Looks for an element among those of the same hash only. -/
def lookup (hash : UInt8 × (UInt64 × UInt64 ⊕ String) → UInt64) (s : ElementSet) (x : Element) :
    Bool :=
  (s.elements.filter (hash ·.key == hash x.key)).any x.same

/-- Strictly ascending, as the elements of an ordered set are. -/
def ascending : List Element → Bool
  | [] => true
  | [_] => true
  | x :: y :: rest => x.compare y == .lt && ascending (y :: rest)

/-- No two elements count as one, and those of an ordered set ascend. -/
structure WellFormed (s : ElementSet) : Prop where
  distinct : s.elements.Pairwise fun x y => x.same y = false
  sorted : s.ordered = true → s.elements.Pairwise fun x y => x.compare y = .lt

/-- Puts an element before the first one above it. -/
def place (x : Element) : List Element → List Element
  | [] => [x]
  | y :: rest => if x.compare y == .lt then x :: y :: rest else y :: place x rest

/-- Adds an element, and says whether it is new. -/
def insert (s : ElementSet) (x : Element) : Bool × ElementSet :=
  if s.contains x then (false, s)
  else if s.ordered then (true, { s with elements := place x s.elements })
  else (true, { s with elements := s.elements ++ [x] })

def insertAll (s : ElementSet) (xs : List Element) : ElementSet :=
  xs.foldl (fun s x => (s.insert x).2) s

def union (s t : ElementSet) : ElementSet :=
  (empty ("(" ++ s.name ++ "+" ++ t.name ++ ")") s.ordered).insertAll (s.elements ++ t.elements)

def intersect (s t : ElementSet) : ElementSet :=
  (empty ("(" ++ s.name ++ "*" ++ t.name ++ ")") s.ordered).insertAll
    (s.elements.filter t.contains)

def renamed (s : ElementSet) (name : String) : ElementSet := { s with name }

/-- An ordered copy. -/
def sorted (s : ElementSet) : ElementSet := (empty s.name true).insertAll s.elements

/-- Name, order and members are the same. -/
def eq (s t : ElementSet) : Bool :=
  s.name == t.name && s.ordered == t.ordered && s.size == t.size && s.elements.all t.contains

def text (s : ElementSet) : String :=
  s.name ++ ": \x7b" ++ ", ".intercalate (s.elements.map Element.display) ++ "\x7d"

end ElementSet

end MatrixScript
