import OnePass.Analysis.Definition
import OnePass.Code.Binary
import OnePass.Text.Blank

/-!
# Compiling

From a source text to a program, or to a report that shows the line at fault.
-/

namespace OnePass

/-- How compiling fails. -/
inductive CompileError where
  | report (r : Report)
  | breach (b : Breach)
  deriving DecidableEq, Repr

/-- A failure as an error, a diagnostic with the source line it points into. -/
def Failure.error (source : Bytes) : Failure → CompileError
  | .diagnostic d => .report (d.report (Text.line source d.pos.line))
  | .breach b => .breach b

/-- Compiles a source text. -/
def compile (source : Bytes) : Except CompileError Program :=
  (analyze (Lexer.ofSource source)).mapError (·.error source)

end OnePass
