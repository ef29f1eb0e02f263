import SexprReader.ErrorReport
import SexprReader.Host.Handle
import SexprReader.Host.Recorded
import SexprReader.Logging.Setup
import SexprReader.Reader.Hook
import SexprReader.Reader.Reading
import SexprReader.Reader.Recursive
import SexprReader.Source.Decoding
import SexprReader.Store
import SexprReader.Value.Equality
import SexprReader.Value.Printer
import SexprReader.Value.Tree
import SexprReader.Proofs.Reader.Advance
import SexprReader.Proofs.Reader.Descent
import SexprReader.Proofs.Reader.Course
import SexprReader.Proofs.Reader.Scan
import SexprReader.Proofs.Grammar.Border
import SexprReader.Proofs.Grammar.Completion
import SexprReader.Proofs.Grammar.Forms
import SexprReader.Proofs.Grammar.Unfinished
import SexprReader.Proofs.Store.Denotes
import SexprReader.Proofs.Store.Serves
import SexprReader.Proofs.Store.Settles
import SexprReader.Proofs.Store.Readings
import SexprReader.Proofs.Store.Bodies
import SexprReader.Proofs.Store.Incomplete
import SexprReader.Proofs.Store.Concatenation
import SexprReader.Proofs.Value.Written
import SexprReader.Proofs.Grammar.Names
import SexprReader.Proofs.Grammar.Contents
import SexprReader.Proofs.Grammar.Legible
import SexprReader.Proofs.Store.RoundTrip
import SexprReader.Proofs.Reader.Moments
import SexprReader.Proofs.Store.OpenForms
import SexprReader.Proofs.Store.Comments
import SexprReader.Proofs.Host.CallLog
import SexprReader.Proofs.Host.Ownership
import SexprReader.Proofs.Host.SetOnce
import SexprReader.Proofs.Host.Genericity
import SexprReader.Proofs.Reader.Lexical
import SexprReader.Proofs.Reader.Lookahead
import SexprReader.Proofs.Reader.Positions
import SexprReader.Proofs.Reader.Spelling
import SexprReader.Proofs.Host.Asking
import SexprReader.Proofs.Host.Recording
import SexprReader.Proofs.Host.Ensures
import SexprReader.Proofs.Host.Hooks
import SexprReader.Proofs.Host.Breaking
import SexprReader.Proofs.Store.Sessions
import SexprReader.Proofs.Store.Failures
import SexprReader.Proofs.Store.Separate
import SexprReader.Proofs.Store.Postprocess
import SexprReader.Proofs.Store.Files
import SexprReader.Proofs.Source.Location
import SexprReader.Proofs.Reader.Culprits
import SexprReader.Proofs.Store.Culprits
import SexprReader.Proofs.Reader.Progress
import SexprReader.Proofs.Store.EndOfStream
import SexprReader.Proofs.Store.SymbolTables
import SexprReader.Proofs.Store.Interning
import SexprReader.Proofs.Store.Canonicity
import SexprReader.Proofs.Text.Positional
import SexprReader.Proofs.Text.Literal
import SexprReader.Proofs.Grammar.Quoting
import SexprReader.Proofs.Store.Single
import SexprReader.Proofs.Store.Tokens
import SexprReader.Proofs.Store.Literals
import SexprReader.Proofs.Store.Quotes
import SexprReader.Proofs.Value.Acyclic
import SexprReader.Proofs.Value.Structural
import SexprReader.Proofs.Value.Chains
import SexprReader.Proofs.Value.Listed
import SexprReader.Proofs.Text.BlockComment
import SexprReader.Proofs.Reader.BlockComments
import SexprReader.Proofs.Reader.LineComments
import SexprReader.Proofs.Logging.Handlers
import SexprReader.Proofs.Reader.Reports
import SexprReader.Proofs.Reader.Fillings
import SexprReader.Proofs.Store.Spines
