import PhpScript.Logging
import PhpScript.Main
import PhpScript.Proofs.Parse.Yield
import PhpScript.Proofs.Parse.Soundness
import PhpScript.Proofs.Script.Outcome
import PhpScript.Proofs.Parse.Occurrence
import PhpScript.Proofs.Script.Grouping
import PhpScript.Proofs.Script.LineStart
import PhpScript.Proofs.Token.Lexing
import PhpScript.Proofs.Node.Bare
import PhpScript.Proofs.Parse.Reading
import PhpScript.Proofs.Parse.Written
import PhpScript.Proofs.Parse.Climbing
import PhpScript.Proofs.Parse.RoundTrip
import PhpScript.Proofs.Script.Depth
import PhpScript.Proofs.Node.Dialect
import PhpScript.Proofs.Token.Scanning
import PhpScript.Proofs.Token.Tiling
import PhpScript.Proofs.Token.Spacing
import PhpScript.Proofs.Token.LongestMatch
import PhpScript.Proofs.Parse.Agreement
import PhpScript.Proofs.Parse.Placeless
import PhpScript.Proofs.Convert.Spacing
import PhpScript.Proofs.Text.Lines
import PhpScript.Proofs.Convert.Location
import PhpScript.Proofs.Script.Bare
import PhpScript.Proofs.Script.Domain
import PhpScript.Proofs.Parse.Sorting
import PhpScript.Proofs.Json.Nesting
import PhpScript.Proofs.Convert.Dumps
import PhpScript.Proofs.Parse.Extent
import PhpScript.Proofs.Parse.Nesting
import PhpScript.Proofs.Parse.Precedence
import PhpScript.Proofs.Parse.Balance
import PhpScript.Proofs.Command.Delivery
import PhpScript.Proofs.Literal.Quoting
import PhpScript.Proofs.Literal.Interpolation
import PhpScript.Proofs.Node.Meaning
import PhpScript.Proofs.Parse.Terminator
import PhpScript.Proofs.Parse.Construction
import PhpScript.Proofs.Script.Enclosure
import PhpScript.Proofs.Script.Elements
import PhpScript.Proofs.Parse.Links
import PhpScript.Proofs.Text.Partition
import PhpScript.Proofs.Report.Underline
import PhpScript.Proofs.Literal.Numeral
import PhpScript.Proofs.Parse.Blame
import PhpScript.Proofs.Parse.Numbers
import PhpScript.Proofs.Parse.Order
import PhpScript.Proofs.Parse.Arrangement
import PhpScript.Proofs.Script.FirstError
import PhpScript.Proofs.Literal.Characters
import PhpScript.Proofs.Node.TreeReader
import PhpScript.Proofs.Parse.Termination
