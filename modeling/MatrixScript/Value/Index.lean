import MatrixScript.Value.Basic

/-!
# Indexing

Indices count from one. A lone index counts the elements row by row; of two the first counts rows
and the second columns. `:` and open ranges go by the extent of what is indexed. Reading outside of
it is an error; writing outside of it makes the target grow, filled up with zeros.
-/

namespace MatrixScript

inductive IndexArg where
  | all
  | value (v : Value)

namespace IndexArg

/-- The position of an index, counted from zero. -/
def position (z : Complex) : Result Nat :=
  if !z.isInteger then
    .error (.argumentValue ("index " ++ z.text ++ " is invalid; indices must be integers"))
  else if z.re.lt Double.one then
    .error (.argumentRange ("index " ++ z.text ++ " is invalid; indices must be positive"))
  else if (Double.ofNat elementLimit).lt z.re then
    .error <| .argumentRange <|
      "index " ++ z.text ++ " exceeds the limit of " ++ toString elementLimit ++ " elements"
  else .ok (z.re.toCount - 1)

/-- The numbers that an index value lists. -/
def numbers (extent : Nat) : Value → Result (Array Complex)
  | .scalar z => .ok #[z]
  | .matrix m => .ok m.data
  | .range r => do
    let resolved ← r.resolve (Double.ofNat extent)
    return (resolved.values?.getD #[]).map Complex.ofReal
  | v => .error (.argumentValue ("indices must be numeric, got a " ++ v.kind.text))

/-- The positions that an index addresses, within the extent or past it. `:` lists its whole extent,
also where there is no room for the list: from `2 ^ 60` positions on none can be held by a machine
that counts its bytes by 64-bit numbers, and listing them stops the program instead. -/
def positions (arg : IndexArg) (extent : Nat) : Result (Array Nat) :=
  match arg with
  | all => .ok (Array.range extent)
  | value v => do (← numbers extent v).mapM position

/-- Refuses positions past the extent. -/
def checkBounds (positions : Array Nat) (extent : Nat) : Result Unit :=
  match positions.find? (extent ≤ ·) with
  | some p => .error (.indexOutOfBounds (toString (p + 1)) extent)
  | none => .ok ()

/-- The positions that an index addresses within the extent. -/
def positionsWithin (arg : IndexArg) (extent : Nat) : Result (Array Nat) := do
  let picked ← arg.positions extent
  checkBounds picked extent
  return picked

end IndexArg

namespace Value

def indexCountFault (count : Nat) : Fault :=
  .argumentRange ("expected one or two indices, got " ++ toString count)

/-- The matrix that is indexed. -/
def indexTarget (v : Value) : Result Matrix :=
  match v.matrix? with
  | some m => .ok m
  | none => .error (.unsupported "()" v.kind none)

/-! ### Reading -/

/-- The elements at some positions; they form a column if they come from one. -/
def pickElements (m : Matrix) (picked : Array Nat) : Matrix :=
  let data := picked.map (m.data.getD · Complex.zero)
  if m.cols = 1 ∧ 1 < m.rows then Matrix.columnVector data else Matrix.rowVector data

def indexMatrix (m : Matrix) : List IndexArg → Result Value
  | [arg] => do
    let picked ← arg.positionsWithin m.count
    return ofMatrix (pickElements m picked)
  | [rowArg, colArg] => do
    let rows ← rowArg.positions m.rows
    let cols ← colArg.positions m.cols
    IndexArg.checkBounds rows m.rows
    IndexArg.checkBounds cols m.cols
    let picked ← Matrix.ofCells rows.size cols.size fun r c =>
      m.cell (rows.getD r 0) (cols.getD c 0)
    return ofMatrix picked
  | args => .error (indexCountFault args.length)

/-- The characters at some positions of a text. -/
def pickChars (s : String) (arg : IndexArg) : Result Value := do
  let chars := s.toList.toArray
  let picked ← arg.positionsWithin chars.size
  return text (String.ofList (picked.toList.map (chars.getD · ' ')))

/-- A text is a row of characters. -/
def indexText (s : String) : List IndexArg → Result Value
  | [arg] => pickChars s arg
  | [row, arg] => do
    let _ ← row.positionsWithin 1
    pickChars s arg
  | args => .error (indexCountFault args.length)

/-- What an index expression reads. -/
def index (target : Value) (args : List IndexArg) : Result Value :=
  match target with
  | text s => indexText s args
  | v => do indexMatrix (← v.indexTarget) args

/-! ### Writing -/

/-- What is written: one number everywhere, or one for each position. -/
inductive Assigned where
  | everywhere (z : Complex)
  | each (data : Array Complex)

def Assigned.get (a : Assigned) (k : Nat) : Complex :=
  match a with
  | .everywhere z => z
  | .each data => data.getD k Complex.zero

/-- The elements of a value that go to `count` positions. -/
def assigned (v : Value) (count : Nat) : Result Assigned :=
  match v.matrix? with
  | none => .error (.argumentValue ("cannot assign a " ++ v.kind.text ++ " into a matrix"))
  | some m =>
    match m.scalar? with
    | some z => .ok (.everywhere z)
    | none =>
      if m.count = count then .ok (.each m.data)
      else
        .error <| .argumentValue <|
          "cannot assign " ++ toString m.count ++ " elements to " ++ toString count ++ " positions"

/-- The extent that holds all positions. -/
def extentOf (positions : Array Nat) : Nat := positions.foldl (fun n p => max n (p + 1)) 0

/-- Makes room for a linear extent. Only a row or a column can grow this way. -/
def growLinear (m : Matrix) (needed : Nat) : Result Matrix :=
  if needed ≤ m.count then .ok m
  else if m.isEmpty || m.rows = 1 then m.resized 1 needed
  else if m.cols = 1 then m.resized needed 1
  else .error (.indexOutOfBounds (toString needed) m.count)

/-- Makes room for rows and columns. -/
def growTo (m : Matrix) (rows cols : Nat) : Result Matrix :=
  if (rows, cols) = m.shape then .ok m else m.resized rows cols

/-- Writes the elements one after another to the cells at their positions. -/
def writeLinear (m : Matrix) (picked : Array Nat) (elements : Assigned) : Matrix :=
  picked.size.fold
    (fun k _ m => m.setCell (picked[k] / m.cols) (picked[k] % m.cols) (elements.get k)) m

/-- Writes the elements row by row to the cells where rows and columns cross. -/
def writeCells (m : Matrix) (rows cols : Array Nat) (elements : Assigned) : Matrix :=
  rows.size.fold
    (fun i _ m =>
      cols.size.fold
        (fun j _ m => m.setCell rows[i] cols[j] (elements.get (i * cols.size + j))) m)
    m

def assignMatrix (m : Matrix) (v : Value) : List IndexArg → Result Value
  | [arg] => do
    let picked ← arg.positions m.count
    let grown ← growLinear m (extentOf picked)
    let elements ← v.assigned picked.size
    return ofMatrix (writeLinear grown picked elements)
  | [rowArg, colArg] => do
    let rows ← rowArg.positions m.rows
    let cols ← colArg.positions m.cols
    let grown ← growTo m (max (extentOf rows) m.rows) (max (extentOf cols) m.cols)
    let elements ← v.assigned (rows.size * cols.size)
    return ofMatrix (writeCells grown rows cols elements)
  | args => .error (indexCountFault args.length)

/-- The target after writing a value to the addressed positions. -/
def assignIndex (target : Value) (args : List IndexArg) (v : Value) : Result Value := do
  assignMatrix (← target.indexTarget) v args

end Value

end MatrixScript
