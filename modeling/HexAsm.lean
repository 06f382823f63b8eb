import HexAsm.Assembly.Line
import HexAsm.Assembly.Statement
import HexAsm.Command.Arguments
import HexAsm.Command.FileTree
import HexAsm.Command.Run
import HexAsm.Decimal.Shortest
import HexAsm.Decimal.Spelling
import HexAsm.Json.Numeral
import HexAsm.Json.Scan
import HexAsm.Json.Value
import HexAsm.Machine.Encoding
import HexAsm.Machine.Fault
import HexAsm.Machine.Instruction
import HexAsm.Machine.Layout
import HexAsm.Machine.Register
import HexAsm.Machine.Word
import HexAsm.Main
import HexAsm.Program.Image
import HexAsm.Program.Log
import HexAsm.Program.Pass
import HexAsm.Proofs.Accounting
import HexAsm.Proofs.AllOrNothing
import HexAsm.Proofs.Canonical
import HexAsm.Proofs.CommandLine
import HexAsm.Proofs.Concatenation
import HexAsm.Proofs.Fields
import HexAsm.Proofs.FirstFailure
import HexAsm.Proofs.Grammar
import HexAsm.Proofs.ImageLayout
import HexAsm.Proofs.Inverse
import HexAsm.Proofs.JsonReport
import HexAsm.Proofs.Legality
import HexAsm.Proofs.Lemmas.Arguments
import HexAsm.Proofs.Lemmas.Blank
import HexAsm.Proofs.Lemmas.Canonical
import HexAsm.Proofs.Lemmas.Encoding
import HexAsm.Proofs.Lemmas.Hex
import HexAsm.Proofs.Lemmas.Image
import HexAsm.Proofs.Lemmas.JsonText
import HexAsm.Proofs.Lemmas.JsonValue
import HexAsm.Proofs.Lemmas.Layout
import HexAsm.Proofs.Lemmas.Legal
import HexAsm.Proofs.Lemmas.Lexemes
import HexAsm.Proofs.Lemmas.Lines
import HexAsm.Proofs.Lemmas.Listing
import HexAsm.Proofs.Lemmas.Pass
import HexAsm.Proofs.Lemmas.Reading
import HexAsm.Proofs.Lemmas.Run
import HexAsm.Proofs.Lemmas.Silent
import HexAsm.Proofs.Lemmas.Statement
import HexAsm.Proofs.Lemmas.Tidy
import HexAsm.Proofs.Lemmas.Tokens
import HexAsm.Proofs.Lemmas.Written
import HexAsm.Proofs.LetterCase
import HexAsm.Proofs.LineEnds
import HexAsm.Proofs.NormalForm
import HexAsm.Proofs.Numerals
import HexAsm.Proofs.Precedence
import HexAsm.Proofs.ReadParts
import HexAsm.Proofs.RoundTrip
import HexAsm.Proofs.SettingsText
import HexAsm.Proofs.Spacing
import HexAsm.Settings.Basic
import HexAsm.Settings.Fault
import HexAsm.Settings.Reader
import HexAsm.Text.Blank
import HexAsm.Text.Hex
import HexAsm.Text.Lines
import HexAsm.Text.Quoted
import HexAsm.Text.Unprintable
