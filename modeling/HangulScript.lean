import HangulScript.Main
import HangulScript.Options.Reader
import HangulScript.Proofs.Checking.Batch
import HangulScript.Proofs.Conversion.Append
import HangulScript.Proofs.Conversion.FixedPoint
import HangulScript.Proofs.Conversion.Idempotence
import HangulScript.Proofs.Conversion.Lines
import HangulScript.Proofs.Conversion.SameCode
import HangulScript.Proofs.Diagnostic.Append
import HangulScript.Proofs.Diagnostic.Rendering
import HangulScript.Proofs.Diagnostic.Reports
import HangulScript.Proofs.Lexical.Literal
import HangulScript.Proofs.Methods.Header
import HangulScript.Proofs.Methods.Left
import HangulScript.Proofs.Methods.Offsets
import HangulScript.Proofs.Options.Reading
import HangulScript.Proofs.Path.Generated
import HangulScript.Proofs.Scan.Lookup
import HangulScript.Proofs.Scan.Order
