import Comet.Text.Blank
import Comet.Text.Span
import Comet.Text.Quoted
import Comet.Text.Numeral
import Comet.Text.Column
import Comet.Text.Lines
import Comet.Assoc
import Comet.Tally
import Comet.Charset
import Comet.Word
import Comet.Register
import Comet.Opcode
import Comet.Mnemonic
import Comet.Fault
import Comet.Diagnostic
import Comet.Token
import Comet.Token.Scan
import Comet.Operand
import Comet.Record
import Comet.Record.Encoding
import Comet.Record.Printer
import Comet.Statement.Slot
import Comet.Statement.Line
import Comet.Statement.Constant
import Comet.Statement.Operands
import Comet.Statement
import Comet.LiteralPool
import Comet.Layout
import Comet.LabelTable
import Comet.LabelTable.OfRecords
import Comet.Resolution
import Comet.Image
import Comet.DebugInfo
import Comet.Assembly
import Comet.Listing
import Comet.CommandLine.Arguments
import Comet.CommandLine.Path
import Comet.CommandLine.Files
import Comet.CommandLine.Log
import Comet.CommandLine.Run
import Comet.Main
import Comet.Proofs.Spelling
import Comet.Proofs.Problems
import Comet.Proofs.Contract
import Comet.Proofs.Reading
import Comet.Proofs.Code
import Comet.Proofs.Declarations
import Comet.Proofs.Lookup
import Comet.Proofs.ErrorFree
import Comet.Proofs.Encodable
import Comet.Proofs.Denotation
import Comet.Proofs.ImageLayout
import Comet.Proofs.SymbolResolution
import Comet.Proofs.LiteralPooling
import Comet.Proofs.StatementRecognition
import Comet.Proofs.LineGrammar
import Comet.Proofs.StringConstants
import Comet.Proofs.Validity
import Comet.Proofs.EntryPoint
import Comet.Proofs.ScopeIndependence
import Comet.Proofs.SubroutineTable
import Comet.Proofs.StackPointer
import Comet.Proofs.Rescanning
import Comet.Proofs.RecordText
import Comet.Proofs.Decoding
import Comet.Proofs.Renaming
import Comet.Proofs.NameIndependence
import Comet.Proofs.Trailers
import Comet.Proofs.CommentIndependence
import Comet.Proofs.Safety
import Comet.Proofs.LineOutcomes
import Comet.Proofs.Registration
import Comet.Proofs.AddressRange
import Comet.Proofs.SourceSpans
import Comet.Proofs.DiagnosticSpans
import Comet.Proofs.References
import Comet.Proofs.Patterns
import Comet.Proofs.TokenRules
import Comet.Proofs.LineTokens
import Comet.Proofs.MissingParts
import Comet.Proofs.LineTable
import Comet.Proofs.QuoteRuns
import Comet.Proofs.NumeralValues
import Comet.Proofs.EmittedWords
import Comet.Proofs.NumeralUses
import Comet.Proofs.PhaseInvariants
