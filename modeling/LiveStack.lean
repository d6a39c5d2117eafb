import LiveStack.Main
import LiveStack.Proofs.Run.Execution
import LiveStack.Proofs.Run.Termination
import LiveStack.Proofs.Run.Changes
import LiveStack.Proofs.Run.Hearing
import LiveStack.Proofs.Document.Sketch
import LiveStack.Proofs.Session.History
import LiveStack.Proofs.Code.Brackets
import LiveStack.Proofs.Run.Defining
import LiveStack.Proofs.Run.Prelude
import LiveStack.Proofs.Document.Links
import LiveStack.Proofs.Document.Reach
import LiveStack.Proofs.Document.Arrangement
import LiveStack.Proofs.Document.Surgery
import LiveStack.Proofs.Document.Operations
import LiveStack.Proofs.Document.Removal
import LiveStack.Proofs.Document.Consistency
import LiveStack.Proofs.Document.Strict
import LiveStack.Proofs.Document.Quoting
import LiveStack.Proofs.Editor.Strict
import LiveStack.Proofs.Editor.Moves
import LiveStack.Proofs.Editor.Changes
import LiveStack.Proofs.Editor.Soundness
import LiveStack.Proofs.Editor.Selecting
import LiveStack.Proofs.Editor.Selections
import LiveStack.Proofs.Code.Places
import LiveStack.Proofs.Run.Abreast
import LiveStack.Proofs.Run.Inlining
import LiveStack.Proofs.Code.Lexing
import LiveStack.Proofs.Code.Reading
import LiveStack.Proofs.Document.Outlining
import LiveStack.Proofs.Document.Spelling
import LiveStack.Proofs.Document.Trees
import LiveStack.Proofs.Editor.Replacing
import LiveStack.Proofs.Editor.Spots
import LiveStack.Proofs.Editor.Refinement
import LiveStack.Proofs.Run.Locality
import LiveStack.Proofs.Run.Heredity
import LiveStack.Proofs.Run.EarlyBinding
import LiveStack.Proofs.Run.Contexts
import LiveStack.Proofs.Run.Sight
import LiveStack.Proofs.Run.Resemblance
import LiveStack.Proofs.Code.Pairing
import LiveStack.Proofs.Code.Atoms
import LiveStack.Proofs.Code.Printing
import LiveStack.Proofs.Code.Literals
import LiveStack.Proofs.Run.Legibility
import LiveStack.Proofs.Run.Rereading
import LiveStack.Proofs.Editor.Typing
import LiveStack.Proofs.Session.Standing
import LiveStack.Proofs.Session.Loading
import LiveStack.Proofs.Session.Naming
import LiveStack.Proofs.Run.Limits
import LiveStack.Proofs.Run.Refusals
import LiveStack.Proofs.Run.Panics
import LiveStack.Proofs.Run.Pace
import LiveStack.Proofs.Run.Calling
import LiveStack.Proofs.Document.Positions
import LiveStack.Proofs.Editor.Walking
import LiveStack.Proofs.Editor.Texts
import LiveStack.Proofs.Run.Balance
import LiveStack.Proofs.Run.Scopes
import LiveStack.Proofs.Run.Concatenation
import LiveStack.Proofs.Session.Definitions
import LiveStack.Proofs.Session.Making
import LiveStack.Proofs.Run.Lexicon
import LiveStack.Proofs.Run.Expansion
import LiveStack.Proofs.Run.Unfolding
import LiveStack.Proofs.Run.Shuffling
import LiveStack.Proofs.Run.Combinators
import LiveStack.Proofs.Run.Diagnostics
import LiveStack.Proofs.Session.Diagnostics
import LiveStack.Proofs.Code.Nesting
import LiveStack.Proofs.Code.Segments
import LiveStack.Proofs.Code.Lookahead
import LiveStack.Proofs.Code.Buffering
import LiveStack.Proofs.Editor.Undoing
import LiveStack.Proofs.Editor.Pasting
import LiveStack.Proofs.Editor.Refusing
import LiveStack.Proofs.Context.Items
import LiveStack.Proofs.Context.Names
import LiveStack.Proofs.Run.Outcomes
import LiveStack.Proofs.Run.Arithmetic
import LiveStack.Proofs.Run.Division
import LiveStack.Proofs.Run.Traversal
import LiveStack.Proofs.Run.Equality
import LiveStack.Proofs.Run.Comparing
import LiveStack.Proofs.Code.Strings
import LiveStack.Proofs.Code.Names
import LiveStack.Proofs.Code.Integers
import LiveStack.Proofs.Session.Completing
import LiveStack.Proofs.Document.Benches
import LiveStack.Proofs.Document.Moving
import LiveStack.Proofs.Document.Checking
import LiveStack.Proofs.Document.Exactness
import LiveStack.Proofs.Document.Glyphs
import LiveStack.Proofs.Editor.Rendering
