import Diagram.Main
import Diagram.Metrics
import Diagram.Text.Margin
import Diagram.Proofs.Parser.Displaced
import Diagram.Proofs.Program.Inverse
import Diagram.Proofs.Build.Diagnosed
import Diagram.Proofs.Document.Grouped
import Diagram.Proofs.Document.Assembled
import Diagram.Proofs.Build.Routes
import Diagram.Proofs.Typing.Timed
import Diagram.Proofs.Typing.Spelling
import Diagram.Proofs.Value.Integer
import Diagram.Proofs.CommandLine.Batch
import Diagram.Proofs.Document.Stepped
import Diagram.Proofs.Document.Filled
import Diagram.Proofs.Decimal.Spelled
import Diagram.Proofs.Typing.Homogeneous
import Diagram.Proofs.Typing.Referred
import Diagram.Proofs.Typing.Visited
import Diagram.Proofs.Document.Balanced
import Diagram.Proofs.Parser.Spans
import Diagram.Proofs.Program.Progress
