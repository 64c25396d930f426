import ToolScript.Proofs.Grammar.OutlineSoundness
import ToolScript.Report
import ToolScript.Script.Printer
import ToolScript.Session
import ToolScript.Proofs.Grammar.Recognition
import ToolScript.Proofs.Cutting
import ToolScript.Proofs.Isolation
import ToolScript.Proofs.Nesting
import ToolScript.Proofs.Printing.WellFormed
import ToolScript.Proofs.Printing.Expression
import ToolScript.Proofs.Printing.Boundaries
import ToolScript.Proofs.Printing.RoundTrip
import ToolScript.Proofs.Waiting.Suspension
import ToolScript.Proofs.Printing.Acceptance
import ToolScript.Proofs.Printing.Reexecution
import ToolScript.Proofs.Locating.Caret
import ToolScript.Proofs.Lossless
import ToolScript.Proofs.Layout
import ToolScript.Proofs.Raising
import ToolScript.Proofs.Order
import ToolScript.Proofs.Mention
import ToolScript.Proofs.Attempts
import ToolScript.Proofs.Guarding
import ToolScript.Proofs.Printing.Literal
import ToolScript.Proofs.SourceOrder
import ToolScript.Proofs.Leaving
import ToolScript.Proofs.Looping
import ToolScript.Proofs.Equality
import ToolScript.Proofs.Filling
import ToolScript.Proofs.Joining
import ToolScript.Proofs.Grammar.Decision
import ToolScript.Proofs.Converting
import ToolScript.Proofs.Framing
import ToolScript.Proofs.Quoting
import ToolScript.Proofs.Walking.Progress
