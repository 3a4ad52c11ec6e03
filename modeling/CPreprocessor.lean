import CPreprocessor.Text.Basic
import CPreprocessor.Text.Utf8
import CPreprocessor.Text.CharClass
import CPreprocessor.Text.Quoted
import CPreprocessor.Text.Cursor
import CPreprocessor.Text.Entries
import CPreprocessor.Source.Span
import CPreprocessor.Source.File
import CPreprocessor.Diagnostic.Basic
import CPreprocessor.Diagnostic.Problem
import CPreprocessor.Lexing.Normalized
import CPreprocessor.Lexing.OffsetMap
import CPreprocessor.Lexing.Lexeme
import CPreprocessor.Lexing.Token
import CPreprocessor.Literal
import CPreprocessor.Conditional.Misuse
import CPreprocessor.Conditional.Stack
import CPreprocessor.Macro.Table
import CPreprocessor.Macro.Call
import CPreprocessor.Macro.Expansion
import CPreprocessor.Files.Path
import CPreprocessor.Files.Tree
import CPreprocessor.Files.Loader
import CPreprocessor.Toml.Value
import CPreprocessor.Toml.String
import CPreprocessor.Toml.Scalar
import CPreprocessor.Toml.Document
import CPreprocessor.Toml.Writer
import CPreprocessor.Config.Basic
import CPreprocessor.Config.Toml
import CPreprocessor.Directive.Line
import CPreprocessor.Directive.Operand
import CPreprocessor.Engine.State
import CPreprocessor.Engine.Effect
import CPreprocessor.Engine.Run
import CPreprocessor.Session
import CPreprocessor.Proofs.Conditional.History
import CPreprocessor.Proofs.Macro.Locality
import CPreprocessor.Proofs.Engine.Lines
import CPreprocessor.Proofs.Engine.Blocks
import CPreprocessor.Proofs.Lexing.ByteSpans
import CPreprocessor.Proofs.Lexing.Coverage
import CPreprocessor.Proofs.Lexing.Unclosed
import CPreprocessor.Proofs.Lexing.Tiling
import CPreprocessor.Proofs.Lexing.TwoPhase
import CPreprocessor.Proofs.Macro.Guard
import CPreprocessor.Proofs.Lexing.CommentBlanks
import CPreprocessor.Proofs.Engine.Steps
import CPreprocessor.Proofs.Engine.Machine
import CPreprocessor.Proofs.Engine.Restoration
import CPreprocessor.Proofs.Engine.Pages
import CPreprocessor.Proofs.Engine.Pasting
import CPreprocessor.Proofs.Macro.Origins
import CPreprocessor.Proofs.Macro.Agreement
import CPreprocessor.Proofs.Engine.Dependencies
import CPreprocessor.Proofs.Engine.Openers
import CPreprocessor.Proofs.Engine.Nesting
import CPreprocessor.Proofs.Engine.Aborts
import CPreprocessor.Proofs.Lexing.Cuts
import CPreprocessor.Proofs.Lexing.Relexing
import CPreprocessor.Proofs.Text.Utf8
import CPreprocessor.Proofs.Lexing.Escapes
import CPreprocessor.Proofs.Lexing.Grammar
import CPreprocessor.Proofs.Lexing.Joining
import CPreprocessor.Proofs.Engine.Defining
import CPreprocessor.Proofs.Engine.Balance
import CPreprocessor.Proofs.Engine.Suppression
import CPreprocessor.Proofs.Engine.Unmentioned
import CPreprocessor.Proofs.Engine.Provenance
import CPreprocessor.Proofs.Macro.Cycles
import CPreprocessor.Proofs.Macro.Calls
import CPreprocessor.Proofs.Engine.Locations
import CPreprocessor.Proofs.Text.Cursor
import CPreprocessor.Proofs.Lexing.InPlace.Scanner
import CPreprocessor.Proofs.Lexing.InPlace.Normalizer
import CPreprocessor.Proofs.Lexing.Partition
import CPreprocessor.Proofs.Macro.Renaming
import CPreprocessor.Proofs.Lexing.OpenComments
import CPreprocessor.Proofs.Literal.InPlace
import CPreprocessor.Proofs.Literal.Endings
import CPreprocessor.Proofs.Directive.Definitions
import CPreprocessor.Proofs.Directive.Includes
import CPreprocessor.Proofs.Source.Positions
import CPreprocessor.Proofs.Lexing.Positions
import CPreprocessor.Proofs.Config.Identifiers
import CPreprocessor.Proofs.Lexing.ByteOrigins
