import MatrixScript.Syntax.Node

/-!
# Forests and trees

Nodes live in one array, and children are named by their position. Whoever builds a forest stores
children before their parents, so links always point backwards; a forest that comes from elsewhere
has to pass `brokenLink?` first. A function keeps a copy of its body alone, made by `extract`.

A tree is what a forest says below one node, with nothing left of how the nodes are stored. Two
readings of a text are the same when their trees agree, with or without the spans.
-/

namespace MatrixScript

structure Forest where
  nodes : Array Node
deriving DecidableEq, Inhabited

/-- A link that names no earlier node: the node that holds it, and what it names. -/
structure BrokenLink where
  parent : Nat
  child : NodeId
deriving DecidableEq

def BrokenLink.message (b : BrokenLink) : String :=
  "node " ++ toString b.parent ++ " links to missing child " ++ b.child.text

/-- The number of the node at a place. Of the numbers with 32 bits the last one also stands for an
absent node, and all nodes behind it get the number before it. -/
def NodeId.ofPlace (n : Nat) : NodeId :=
  ⟨if n ≤ 4294967295 then UInt32.ofNat n else 4294967294⟩

namespace Forest

def empty : Forest := ⟨#[]⟩

def size (f : Forest) : Nat := f.nodes.size

def contains (f : Forest) (id : NodeId) : Bool := id.index.toNat < f.size

def get? (f : Forest) (id : NodeId) : Option Node := f.nodes[id.index.toNat]?

def kind? (f : Forest) (id : NodeId) : Option (NodeKind NodeId) := (f.get? id).map (·.kind)

def nextId (f : Forest) : NodeId := .ofPlace f.size

/-- Stores a node. -/
def push (f : Forest) (node : Node) : NodeId × Forest := (f.nextId, ⟨f.nodes.push node⟩)

/-- Whether a slot of the node at `parent` is filled as it has to be. -/
def slotFits (parent : Nat) (slot : NodeId × Bool) : Bool :=
  if slot.1.isPresent then slot.1.index.toNat < parent else slot.2

def brokenLinkAt? (parent : Nat) (node : Node) : Option BrokenLink :=
  (node.kind.slots.find? (!slotFits parent ·)).map fun slot => ⟨parent, slot.1⟩

/-- The first link that does not point backwards, if there is one. -/
def brokenLink? (f : Forest) : Option BrokenLink :=
  f.nodes.toList.zipIdx.findSome? fun (node, parent) => brokenLinkAt? parent node

/-- Copies the tree below a node, children first. A link that leads nowhere ends the copy. The fuel
has to exceed the node's number. -/
def copyInto (f : Forest) (fuel : Nat) (id : NodeId) : StateT Forest (Except NodeId) NodeId :=
  if id.isPresent then
    match fuel, f.get? id with
    | fuel + 1, some node => do
      let kind ← node.kind.mapM (f.copyInto fuel)
      modifyGet (·.push ⟨kind, node.span⟩)
    | _, _ => throw id
  else return NodeId.absent

/-- The tree below a node as a forest of its own, or the link that leads nowhere. -/
def extract (f : Forest) (root : NodeId) : Except NodeId (NodeId × Forest) :=
  (f.copyInto (root.index.toNat + 1) root).run empty

end Forest

/-! ### Trees -/

inductive Tree where
  | absent
  | node (label : NodeKind Unit) (span : Span) (children : List Tree)
deriving Inhabited

namespace Tree

mutual

def beq : Tree → Tree → Bool
  | absent, absent => true
  | node k s cs, node l t ds => k == l && s == t && beqAll cs ds
  | _, _ => false

def beqAll : List Tree → List Tree → Bool
  | [], [] => true
  | c :: cs, d :: ds => beq c d && beqAll cs ds
  | _, _ => false

end

instance : BEq Tree := ⟨beq⟩

mutual

/-- The tree with all spans forgotten. -/
def bare : Tree → Tree
  | absent => absent
  | node k _ cs => node k Span.none (bareAll cs)

def bareAll : List Tree → List Tree
  | [] => []
  | c :: cs => bare c :: bareAll cs

end

mutual

/-- The number of nodes. -/
def size : Tree → Nat
  | absent => 0
  | node _ _ cs => 1 + sizeAll cs

def sizeAll : List Tree → Nat
  | [] => 0
  | c :: cs => size c + sizeAll cs

end

end Tree

namespace Forest

/-- The tree below a node. The fuel has to exceed the node's number. -/
def unfoldWith (f : Forest) : Nat → NodeId → Tree
  | 0, _ => .absent
  | fuel + 1, id =>
    match f.get? id with
    | none => .absent
    | some node => .node node.kind.label node.span (node.kind.children.map (f.unfoldWith fuel))

def unfold (f : Forest) (root : NodeId) : Tree := f.unfoldWith (root.index.toNat + 1) root

end Forest

end MatrixScript
