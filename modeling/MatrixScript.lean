import MatrixScript.Call.Signature
import MatrixScript.Evaluation.Machine
import MatrixScript.Complex
import MatrixScript.Decimal.Basic
import MatrixScript.Decimal.Significant
import MatrixScript.Diagnostic.Basic
import MatrixScript.Double.Basic
import MatrixScript.Double.Functions
import MatrixScript.ElementSet
import MatrixScript.Environment
import MatrixScript.Evaluation.Assigning
import MatrixScript.Evaluation.Calling
import MatrixScript.Evaluation.Evaluator
import MatrixScript.Evaluation.Fault
import MatrixScript.Grammar.Basic
import MatrixScript.Grammar.Error
import MatrixScript.Grammar.Expression
import MatrixScript.Grammar.Forms
import MatrixScript.Grammar.Reading
import MatrixScript.Grammar.Operators
import MatrixScript.Grammar.Sequence
import MatrixScript.Grammar.Standard
import MatrixScript.Library.Basic
import MatrixScript.Library.Standard
import MatrixScript.Library.Matrices
import MatrixScript.Matrix.Basic
import MatrixScript.Matrix.Eigenvalues
import MatrixScript.Matrix.Elimination
import MatrixScript.Progression
import MatrixScript.Saved.Decode
import MatrixScript.Saved.Encode
import MatrixScript.Syntax.Outline
import MatrixScript.Session
import MatrixScript.Source.Cursor
import MatrixScript.Source.Span
import MatrixScript.Syntax.Forest
import MatrixScript.Syntax.Node
import MatrixScript.Text.Alphabetic
import MatrixScript.Text.Ranges
import MatrixScript.Text.Hidden
import MatrixScript.Text.Utf8
import MatrixScript.Value.Basic
import MatrixScript.Value.Equality
import MatrixScript.Value.Index
import MatrixScript.Value.Listing
import MatrixScript.Value.Operators
import MatrixScript.Proofs.Saved.Utf8
import MatrixScript.Proofs.Construction
import MatrixScript.Proofs.Saved.RoundTrip
import MatrixScript.Proofs.Saved.Soundness
import MatrixScript.Proofs.Reading.Expressions
import MatrixScript.Proofs.Reading.Trivia
import MatrixScript.Proofs.Reading.Trees
import MatrixScript.Proofs.Embedded.Lexical
import MatrixScript.Proofs.Embedded.Trivia
import MatrixScript.Proofs.Embedded.Cursors
import MatrixScript.Proofs.Embedded.Steps
import MatrixScript.Proofs.Embedded.Sequences
import MatrixScript.Proofs.Embedded.Operators
import MatrixScript.Proofs.Embedded.Forms
import MatrixScript.Proofs.Embedded.Expressions
import MatrixScript.Proofs.Reading.Runs
import MatrixScript.Proofs.Groups
import MatrixScript.Proofs.Reading.Words
import MatrixScript.Proofs.Printing.Syntax
import MatrixScript.Proofs.Printing.Halting
import MatrixScript.Proofs.Printing.Readable
import MatrixScript.Proofs.Layout.Gathered
import MatrixScript.Proofs.Layout.Steps
import MatrixScript.Proofs.Layout.Forms
import MatrixScript.Proofs.Layout.Expressions
import MatrixScript.Proofs.Layout.Programs
import MatrixScript.Proofs.Comments.Gaps
import MatrixScript.Proofs.Comments.Lexical
import MatrixScript.Proofs.Comments.Steps
import MatrixScript.Proofs.Comments.Forms
import MatrixScript.Proofs.Comments.Expressions
import MatrixScript.Proofs.Comments
import MatrixScript.Proofs.Printing.Operands
import MatrixScript.Proofs.Printing.Operators
import MatrixScript.Proofs.Printing.Targets
import MatrixScript.Proofs.Printing.ControlFlow
import MatrixScript.Proofs.Printing.Programs
import MatrixScript.Proofs.Values.Keeping
import MatrixScript.Proofs.Values.Matrices
import MatrixScript.Proofs.Values.Progressions
import MatrixScript.Proofs.Values.Operations
import MatrixScript.Proofs.Values.Indexing
import MatrixScript.Proofs.Values.Libraries
import MatrixScript.Proofs.Values.Bodies
import MatrixScript.Proofs.Values.Standard
import MatrixScript.Proofs.Values.Sessions
import MatrixScript.Proofs.Reading.Flow
import MatrixScript.Proofs.Numerals
import MatrixScript.Proofs.Numerals.Scanning
import MatrixScript.Proofs.Lines.Lexical
import MatrixScript.Proofs.Lines.Trivia
import MatrixScript.Proofs.Places
import MatrixScript.Proofs.Lines.Places
import MatrixScript.Proofs.Lines.Sequences
import MatrixScript.Proofs.Lines.Forms
import MatrixScript.Proofs.Lines.Expressions
import MatrixScript.Proofs.Lines
import MatrixScript.Proofs.Alike.Outcomes
import MatrixScript.Proofs.Alike.Values
import MatrixScript.Proofs.Alike.Bodies
import MatrixScript.Proofs.Alike.Steps
import MatrixScript.Proofs.Alike.Evaluation
import MatrixScript.Proofs.Alike.Library
import MatrixScript.Proofs.Alike.Standard
import MatrixScript.Proofs.Frames
import MatrixScript.Proofs.Hermetic
import MatrixScript.Proofs.Bare
import MatrixScript.Proofs.Splitting
import MatrixScript.Proofs.Contracts.Steps
import MatrixScript.Proofs.Contracts.Evaluation
import MatrixScript.Proofs.RecursionLimit
import MatrixScript.Proofs.Values.Functions
import MatrixScript.Proofs.Links
import MatrixScript.Proofs.ErrorPlaces
import MatrixScript.Proofs.Extension.Tables
import MatrixScript.Proofs.Extension.Steps
import MatrixScript.Proofs.Extension
import MatrixScript.Proofs.Cells
import MatrixScript.Proofs.Magic.Entries
import MatrixScript.Proofs.Magic.Constructions
import MatrixScript.Proofs.Magic.Squares
import MatrixScript.Proofs.Values.WholeNumbers
import MatrixScript.Proofs.Assignment.Indices
import MatrixScript.Proofs.Assignment.Writes
import MatrixScript.Proofs.Assignment
import MatrixScript.Proofs.Overloads.Slots
import MatrixScript.Proofs.Overloads.Binding
import MatrixScript.Proofs.Overloads
import MatrixScript.Proofs.Ranges
import MatrixScript.Proofs.Lookups
import MatrixScript.Proofs.Interchange
import MatrixScript.Proofs.Limits
import MatrixScript.Proofs.Values.Numbers
import MatrixScript.Proofs.Reading.Refills
import MatrixScript.Proofs.Extraction.Layout
import MatrixScript.Proofs.Extraction
import MatrixScript.Proofs.Sets.Elements
import MatrixScript.Proofs.Sets
import MatrixScript.Proofs.Selections.Refusals
import MatrixScript.Proofs.Selections
import MatrixScript.Proofs.Precedence.Groupings
import MatrixScript.Proofs.Precedence
import MatrixScript.Proofs.Registration
import MatrixScript.Proofs.Blocks
import MatrixScript.Proofs.Blocks.Literals
import MatrixScript.Proofs.Blocks.Scalars
import MatrixScript.Proofs.Blocks.Laws
import MatrixScript.Proofs.Display
import MatrixScript.Proofs.Display.Decimals
import MatrixScript.Proofs.Display.Entries
import MatrixScript.Proofs.Display.Rows
import MatrixScript.Proofs.Columns.Compact
import MatrixScript.Proofs.Columns.Lexical
import MatrixScript.Proofs.Columns.Places
import MatrixScript.Proofs.Columns.Steps
import MatrixScript.Proofs.Columns.Sequences
import MatrixScript.Proofs.Columns.Forms
import MatrixScript.Proofs.Columns.Expressions
import MatrixScript.Proofs.Columns.Literals
import MatrixScript.Proofs.Columns
import MatrixScript.Proofs.Overloads.Apart
import MatrixScript.Proofs.Selections.Extents
import MatrixScript.Proofs.Bindings.Environments
import MatrixScript.Proofs.Bindings
import MatrixScript.Proofs.Alike.Environments
import MatrixScript.Proofs.Alike.Kindred
import MatrixScript.Proofs.Extraction.Counterparts
import MatrixScript.Proofs.Truncation
import MatrixScript.Proofs.Alike.Trees
import MatrixScript.Proofs.Compound.Repeats
import MatrixScript.Proofs.Compound.Runs
import MatrixScript.Proofs.Compound
import MatrixScript.Proofs.Captures
import MatrixScript.Proofs.LineTable
import MatrixScript.Proofs.Carets
import MatrixScript.Proofs.Eigenvalues
import MatrixScript.Proofs.Eigenvalues.Sweeps
import MatrixScript.Proofs.Sorting
import MatrixScript.Proofs.Progress.Trails
import MatrixScript.Proofs.Progress.Steps
import MatrixScript.Proofs.Progress.Forms
import MatrixScript.Proofs.Progress
