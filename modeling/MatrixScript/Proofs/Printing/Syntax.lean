import MatrixScript.Proofs.Reading.Words
import MatrixScript.Proofs.Reading.Trees

/-!
# Printing programs

A program is built from what the reader can give back: names that are not reserved, operators that
are in the table of the grammar, and assignments to what can be assigned to. It is printed with
blanks around the operators that join, and an operand is put in parentheses only where the level of
its outermost operator is lower than the place needs. Every line ends with its own end mark.
-/

namespace MatrixScript

namespace Printing

structure Name where
  chars : List Char
  isName : IsName chars

namespace Name

def tree (x : Name) : Tree := .of (.name (String.ofList x.chars))

end Name

/-- A sign or negation in front of its operand. -/
inductive Sign where
  | neg | plus | not

namespace Sign

def op : Sign → UnaryOp
  | neg => .neg
  | plus => .plus
  | not => .not

def symbol : Sign → Char
  | neg => '-'
  | plus => '+'
  | not => '!'

end Sign

/-- An operator behind its operand. -/
inductive Mark where
  | transpose | factorial

namespace Mark

def op : Mark → UnaryOp
  | transpose => .transpose
  | factorial => .factorial

def symbol : Mark → Char
  | transpose => '\''
  | factorial => '!'

def operator (mark : Mark) : Operator :=
  .trailingUnary [mark.symbol] Precedence.trailing mark.op

end Mark

/-- An operator between two operands. -/
inductive Infix where
  | binary (symbol : List Char) (precedence : UInt8) (assoc : Assoc) (op : BinaryOp)
      (listed : Operator.binary symbol precedence assoc op ∈ Grammar.standard.operators)
  | range

namespace Infix

def operator : Infix → Operator
  | binary symbol precedence assoc op _ => .binary symbol precedence assoc op
  | range => .range

def assoc : Infix → Assoc
  | binary _ _ assoc _ _ => assoc
  | range => .right

def node {α : Type} : Infix → α → α → NodeKind α
  | binary _ _ _ op _ => .binary op
  | range => .range

def symbol (op : Infix) : List Char := op.operator.symbol

def level (op : Infix) : Nat := op.operator.precedence.toNat

/-- The level that an operand on the left needs. -/
def leftNeed (op : Infix) : Nat :=
  match op.assoc with
  | .left => op.level
  | .right => op.level + 1

/-- The level that an operand on the right needs. -/
def rightNeed (op : Infix) : Nat :=
  match op.assoc with
  | .left => op.level + 1
  | .right => op.level

end Infix

/-- A sign of assignment, plain or compound. -/
structure Sets where
  symbol : List Char
  op : Option BinaryOp
  listed : Operator.assignment symbol op ∈ Grammar.standard.operators

mutual

inductive Term where
  | name (x : Name)
  | text (value : String)
  | leading (sign : Sign) (operand : Term)
  | trailing (mark : Mark) (operand : Term)
  | joined (op : Infix) (left right : Term)
  | call (callee : Term) (args : List Term)
  | lambda (params : List Name) (body : Term)
  /-- A lambda whose body is a block. -/
  | procedure (params : List Name) (body : List Line)
  | assign (x : Name) (sets : Sets) (value : Term)
  /-- Assignment to an element of a variable. -/
  | assignAt (x : Name) (args : List Term) (sets : Sets) (value : Term)
  /-- Assignment to several variables. -/
  | assignAll (first : Name) (others : List Name) (value : Term)

inductive Command where
  | term (t : Term)
  | block (body : List Line)
  | branch (cond : Term) (yes : List Line)
  | branchElse (cond : Term) (yes no : List Line)
  | whileLoop (cond : Term) (body : List Line)
  | forLoop (init cond step : Option Term) (body : List Line)

inductive Line where
  | mk (command : Command) (muted : Bool)

end

/-! ### Levels -/

namespace Term

/-- The level at which the outermost operator binds. What has no such operator needs no
parentheses anywhere. -/
def level : Term → Nat
  | name _ | text _ => 255
  | leading .. => Precedence.leading.toNat
  | trailing .. => Precedence.trailing.toNat
  | joined op .. => op.level
  | call .. => Precedence.call.toNat
  | lambda .. | procedure .. => Precedence.lambda.toNat
  | assign .. | assignAt .. | assignAll .. => Precedence.assign.toNat

/-- The level from which on operators behind the term would go into its last operand. -/
def edge : Term → Nat
  | leading .. => Precedence.leading.toNat + 1
  | joined op .. => op.rightNeed
  | lambda .. => Precedence.lambda.toNat
  | assign .. | assignAt .. | assignAll .. => Precedence.assign.toNat
  | _ => 255

end Term

/-! ### Text -/

/-- What stands for a character between quotes. -/
def escape (c : Char) : List Char :=
  if c = '"' then ['\\', '"']
  else if c = '\\' then ['\\', '\\']
  else if c = '\n' then ['\\', 'n']
  else if c = '\t' then ['\\', 't']
  else [c]

/-- Texts with commas between them. -/
def commas : List (List Char) → List Char
  | [] => []
  | [text] => text
  | text :: texts => text ++ ',' :: ' ' :: commas texts

/-- The parameters in front of a lambda. A single one needs no parentheses. -/
def head : List Name → List Char
  | [x] => x.chars
  | params => grouped (commas (params.map (·.chars)))

def braces (text : List Char) : List Char := '\x7b' :: (text ++ ['\x7d'])

/-- An operand in a place that needs a level. -/
def wrap (need level : Nat) (text : List Char) : List Char :=
  if level < need then grouped text else text

mutual

def Term.chars : Term → List Char
  | .name x => x.chars
  | .text value => '"' :: (value.toList.flatMap escape ++ ['"'])
  | .leading sign a => sign.symbol :: wrap (Precedence.leading.toNat + 1) a.level a.chars
  | .trailing mark a => wrap Precedence.trailing.toNat a.level a.chars ++ [mark.symbol]
  | .joined op a b =>
    wrap op.leftNeed a.level a.chars
      ++ ' ' :: (op.symbol ++ ' ' :: wrap op.rightNeed b.level b.chars)
  | .call f args => wrap Precedence.call.toNat f.level f.chars ++ grouped (commas (allChars args))
  | .lambda params body =>
    head params ++ ' ' :: (['=', '>'] ++ ' ' :: wrap Precedence.lambda.toNat body.level body.chars)
  | .procedure params body => head params ++ ' ' :: (['=', '>'] ++ ' ' :: braces (linesChars body))
  | .assign x sets value =>
    x.chars ++ ' ' :: (sets.symbol ++ ' ' :: wrap Precedence.assign.toNat value.level value.chars)
  | .assignAt x args sets value =>
    (x.chars ++ grouped (commas (allChars args)))
      ++ ' ' :: (sets.symbol ++ ' ' :: wrap Precedence.assign.toNat value.level value.chars)
  | .assignAll first others value =>
    ('[' :: (commas ((first :: others).map (·.chars)) ++ [']']))
      ++ ' ' :: (['='] ++ ' ' :: wrap Precedence.assign.toNat value.level value.chars)

def allChars : List Term → List (List Char)
  | [] => []
  | t :: ts => t.chars :: allChars ts

/-- A part of the head of a `for` loop. -/
def partChars : Option Term → List Char
  | none => []
  | some t => t.chars

def Command.chars : Command → List Char
  | .term t => t.chars
  | .block body => braces (linesChars body)
  | .branch cond yes => "if ".toList ++ grouped cond.chars ++ ' ' :: braces (linesChars yes)
  | .branchElse cond yes no =>
    "if ".toList ++ grouped cond.chars ++ ' ' :: braces (linesChars yes)
      ++ " else ".toList ++ braces (linesChars no)
  | .whileLoop cond body => "while ".toList ++ grouped cond.chars ++ ' ' :: braces (linesChars body)
  | .forLoop init cond step body =>
    "for (".toList ++ partChars init ++ "; ".toList ++ partChars cond ++ "; ".toList
      ++ partChars step ++ ") ".toList ++ braces (linesChars body)

/-- Lines, each with the mark at its end. -/
def linesChars : List Line → List Char
  | [] => []
  | .mk command muted :: lines =>
    command.chars ++ (if muted then ';' else '\n') :: linesChars lines

end

/-! ### Trees -/

def names (params : List Name) : List String := params.map fun x => String.ofList x.chars

mutual

def Term.tree : Term → Tree
  | .name x => x.tree
  | .text value => .of (.text value)
  | .leading sign a => .of (.unary sign.op a.tree)
  | .trailing mark a => .of (.unary mark.op a.tree)
  | .joined op a b => .of (op.node a.tree b.tree)
  | .call f args => .of (.call f.tree (trees args))
  | .lambda params body => .of (.lambda (names params) body.tree)
  | .procedure params body => .of (.lambda (names params) (.of (.block (linesTrees body))))
  | .assign x sets value => .of (.assign x.tree sets.op value.tree)
  | .assignAt x args sets value =>
    .of (.assign (.of (.call x.tree (trees args))) sets.op value.tree)
  | .assignAll first others value =>
    .of (.assign (.of (.matrix [(first :: others).map (·.tree)])) none value.tree)

def trees : List Term → List Tree
  | [] => []
  | t :: ts => t.tree :: trees ts

def partTree : Option Term → Tree
  | none => .absent
  | some t => t.tree

def Command.tree : Command → Tree
  | .term t => t.tree
  | .block body => .of (.block (linesTrees body))
  | .branch cond yes => .of (.branch cond.tree (.of (.block (linesTrees yes))) .absent)
  | .branchElse cond yes no =>
    .of (.branch cond.tree (.of (.block (linesTrees yes))) (.of (.block (linesTrees no))))
  | .whileLoop cond body => .of (.whileLoop cond.tree (.of (.block (linesTrees body))))
  | .forLoop init cond step body =>
    .of (.forLoop (partTree init) (partTree cond) (partTree step) (.of (.block (linesTrees body))))

/-- The trees of lines, each with its mark for a muted one. -/
def linesTrees : List Line → List (Tree × Bool)
  | [] => []
  | .mk command muted :: lines => (command.tree, muted) :: linesTrees lines

end

/-- The nodes in the head of a lambda, which are read and not kept. -/
def headNodes {α : Type} : NodeKind α → Nat
  | .lambda [_] _ => 1
  | .lambda params _ => params.length + 1
  | _ => 0

mutual

/-- The number of nodes that reading a tree takes. -/
def nodes : Tree → Nat
  | .absent => 0
  | .node label _ children => headNodes label + nodesAll children + 1

def nodesAll : List Tree → Nat
  | [] => 0
  | t :: ts => nodes t + nodesAll ts

end

end Printing

end MatrixScript
