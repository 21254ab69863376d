import Ippcode.Text.Line
import Ippcode.Text.Utf8
import Ippcode.Text.Escape
import Ippcode.Numeral.Binary64
import Ippcode.Numeral.Integer
import Ippcode.Numeral.Shortest
import Ippcode.Numeral.DecimalFloat
import Ippcode.Numeral.FloatText
import Ippcode.Numeral.HexFloat
import Ippcode.Constant
import Ippcode.Code.Opcode
import Ippcode.Code.Program
import Ippcode.Listing.Error
import Ippcode.Listing.Printer
import Ippcode.Listing.Reader
import Ippcode.Xml.Character
import Ippcode.Xml.Markup
import Ippcode.Xml.CharacterData
import Ippcode.Xml.Tree
import Ippcode.Xml.Document
import Ippcode.Document.Error
import Ippcode.Document.Reader
import Ippcode.Source
import Ippcode.Machine.Fault
import Ippcode.Operation
import Ippcode.Machine.Environment
import Ippcode.Machine.Action
import Ippcode.Machine.Run
import Ippcode.Statistics
import Ippcode.Command.Directory
import Ippcode.Command.Options
import Ippcode.Command.Session
import Ippcode.Main
import Ippcode.Proofs.Result
import Ippcode.Proofs.Keyed
import Ippcode.Proofs.Tally
import Ippcode.Proofs.Code.Signature
import Ippcode.Proofs.Machine.Effect
import Ippcode.Proofs.Machine.StackForm
import Ippcode.Proofs.Machine.Reach
import Ippcode.Proofs.Machine.Shape
import Ippcode.Proofs.Machine.Outcome
import Ippcode.Proofs.Machine.Fault
import Ippcode.Proofs.Machine.Control
import Ippcode.Proofs.Machine.Call
import Ippcode.Proofs.Machine.Marked
import Ippcode.Proofs.Machine.PlainMemory
import Ippcode.Proofs.Machine.Trace
import Ippcode.Proofs.Machine.Retry
import Ippcode.Proofs.Machine.Place
import Ippcode.Proofs.Machine.Footprint
import Ippcode.Proofs.Machine.Relocation
import Ippcode.Proofs.Machine.Padding
import Ippcode.Proofs.Statistics
import Ippcode.Proofs.Numeral.Bits
import Ippcode.Proofs.Numeral.Nearest
import Ippcode.Proofs.Numeral.Rounding
import Ippcode.Proofs.Numeral.Shortest
import Ippcode.Proofs.Numeral.Fewest
import Ippcode.Proofs.Numeral.Digits
import Ippcode.Proofs.Numeral.DecimalText
import Ippcode.Proofs.Text.Token
import Ippcode.Proofs.Text.Stream
import Ippcode.Proofs.Numeral.Characters
import Ippcode.Proofs.Numeral.Grammar
import Ippcode.Proofs.Numeral.HexFloat
import Ippcode.Proofs.Numeral.Overflow
import Ippcode.Proofs.Numeral.FloatForm
import Ippcode.Proofs.Code.Payload
import Ippcode.Proofs.Listing.Reading
import Ippcode.Proofs.Listing.RoundTrip
import Ippcode.Proofs.Listing.Grammar
import Ippcode.Proofs.Document.Reading
import Ippcode.Proofs.Document.Agreement
import Ippcode.Proofs.Document.Grammar
import Ippcode.Proofs.Xml.Opening
import Ippcode.Proofs.Document.Outline
import Ippcode.Proofs.Document.Comment
import Ippcode.Proofs.Machine.Dialogue
import Ippcode.Proofs.Machine.Preload
import Ippcode.Proofs.Machine.Room
import Ippcode.Proofs.Machine.Reading
import Ippcode.Proofs.Machine.Start
import Ippcode.Proofs.Runnable
import Ippcode.Proofs.Operation
import Ippcode.Proofs.SourceForm
import Ippcode.Proofs.Machine.Correspondence
import Ippcode.Proofs.Machine.Simulation
import Ippcode.Proofs.Machine.Forward
import Ippcode.Proofs.Machine.Depth
import Ippcode.Proofs.Machine.Covered
import Ippcode.Proofs.Machine.RenamedMemory
import Ippcode.Proofs.Machine.Renaming
import Ippcode.Proofs.Command.Options
import Ippcode.Proofs.Command.Reports
import Ippcode.Proofs.Listing.Escaped
import Ippcode.Proofs.Numeral.Order
import Ippcode.Proofs.Comparison
import Ippcode.Proofs.Machine.ReadBack
import Ippcode.Proofs.Numeral.Truncation
import Ippcode.Proofs.Numeral.Product
import Ippcode.Proofs.Numeral.Checked
import Ippcode.Proofs.Conversion
import Ippcode.Proofs.Machine.Opposite
import Ippcode.Proofs.Arithmetic
import Ippcode.Proofs.CharacterSequence
import Ippcode.Proofs.Numeral.IntegerForm
import Ippcode.Proofs.Machine.Dump
import Ippcode.Proofs.Command.Arguments
import Ippcode.Proofs.Listing.Error
import Ippcode.Proofs.Frequency
import Ippcode.Proofs.ByteOrderMark
import Ippcode.Proofs.Text.Escape
import Ippcode.Proofs.Text.Exhaustion
import Ippcode.Proofs.Numeral.Product
