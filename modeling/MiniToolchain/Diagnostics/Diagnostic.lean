import MiniToolchain.Common.Types

/-!
# Diagnostics

What the stages of the front end and the linker report.  The engine keeps what is reported in order.
A message has a character for each of its bytes.

## Main definitions

* `Severity`, `ErrorCode`, `Diagnostic`, `DiagnosticEngine`.
* `DiagnosticEngine.error`, `DiagnosticEngine.errorCount`.
-/

namespace MiniTool
namespace Diag

inductive Severity
  | note | warning | error | fatal
  deriving DecidableEq, Repr

/-- Stable classification of every failure the toolchain can report. -/
inductive ErrorCode
  | none
  | lexicalError | parseError | invalidRegister | invalidOpcode | invalidOperand | integerOverflow
  | invalidDirective
  | undefinedSymbol | duplicateSymbol | relocationOverflow | invalidRelocation
  | invalidSectionReference | symbolVisibilityConflict
  | invalidObject | invalidExecutable | unsupportedVersion | truncatedFile
  | invalidMemoryAccess | illegalInstruction | divisionByZero | stackOverflow | stackUnderflow
  | permissionViolation | syscallError
  | ioError | internalError
  deriving DecidableEq, Repr

/-- A secondary message attached to a primary one. -/
structure Note where
  location : SourceLocation
  message : String
  deriving DecidableEq, Repr

structure Diagnostic where
  severity : Severity := .error
  code : ErrorCode := .none
  location : SourceLocation := {}
  message : String
  notes : List Note := []
  deriving DecidableEq, Repr

/-- Everything reported so far, in order. -/
structure DiagnosticEngine where
  diagnostics : List Diagnostic := []
  deriving DecidableEq, Repr

namespace DiagnosticEngine

def report (engine : DiagnosticEngine) (diagnostic : Diagnostic) : DiagnosticEngine :=
  { diagnostics := engine.diagnostics ++ [diagnostic] }

/-- How many errors have been reported. -/
def errorCount (engine : DiagnosticEngine) : ℕ :=
  engine.diagnostics.countP fun d => d.severity = .error ∨ d.severity = .fatal

end DiagnosticEngine

/-- An error with a single message. -/
def error (code : ErrorCode) (location : SourceLocation) (message : String) : Diagnostic :=
  { severity := .error, code, location, message }

end Diag
end MiniTool
