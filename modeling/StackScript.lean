import StackScript.Machine
import StackScript.Main
import StackScript.Proofs.Contract
import StackScript.Proofs.Session
import StackScript.Value.Reader
import StackScript.Proofs.Path
import StackScript.Proofs.Scope
import StackScript.Proofs.WellFormed
import StackScript.Proofs.History
import StackScript.Proofs.Capture
import StackScript.Proofs.Reading
import StackScript.Proofs.Discipline
import StackScript.Proofs.Unrolling
import StackScript.Proofs.Captured
import StackScript.Proofs.Shortening
import StackScript.Proofs.Thresholds
import StackScript.Proofs.Locality
import StackScript.Proofs.Operands
import StackScript.Proofs.Course
import StackScript.Proofs.Language
import StackScript.Proofs.Braces
import StackScript.Proofs.Formula
import StackScript.Proofs.Lines
import StackScript.Proofs.Report
import StackScript.Proofs.Nesting
import StackScript.Proofs.Placement
import StackScript.Proofs.Continuation
import StackScript.Proofs.NetEffect
import StackScript.Proofs.Demand
import StackScript.Proofs.Literal
import StackScript.Proofs.Replay
import StackScript.Proofs.Rendering
import StackScript.Proofs.Grammar
