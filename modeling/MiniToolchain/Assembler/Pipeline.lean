import MiniToolchain.Assembler.Assembler
import MiniToolchain.Ir.Lower
import MiniToolchain.Lexer.Lexer
import MiniToolchain.Optimizer.Passes
import MiniToolchain.Parser.Parser

/-!
# The front end

The stages of one file in their order: lex, parse, analyse, lower, optimise, assemble.

## Main definitions

* `SourceManager`, `AssembleOptions`, `AssembleResult`, `assembleSource`.
-/

namespace MiniTool

open Diag

structure SourceFile where
  name : Str
  text : Str
  deriving DecidableEq, Repr

/-- The registered files; the handle of a file is its index. -/
abbrev SourceManager := List SourceFile

structure AssembleOptions where
  optLevel : Optimizer.OptLevel := .O0
  /-- Keep the line table the debugger uses. -/
  emitDebugInfo : Bool := true

structure AssembleResult where
  object : Object.ObjectFile
  stats : Optimizer.OptStats
  module : Ir.Module

inductive PipelineError
  | message (text : String)
  /-- `std::out_of_range`, from lowering. -/
  | outOfRange
  /-- `std::length_error`, from the assembler. -/
  | lengthError
  /-- `std::bad_alloc`, from the assembler. -/
  | badAlloc
  deriving DecidableEq, Repr

/-- The line table and the names it refers to, left out. -/
def withoutDebugInfo (object : Object.ObjectFile) : Object.ObjectFile :=
  { object with debugInfo := [], sourceFiles := [] }

/-- The stages after lowering; `memory` is what the allocator gives the assembler. -/
def assembleModule (oob : ℕ → Bool) (memory : ℕ) (module : Ir.Module)
    (diagnostics : DiagnosticEngine) (options : AssembleOptions) :
    Except PipelineError AssembleResult × DiagnosticEngine :=
  let (module, stats) := Optimizer.run oob options.optLevel module
  match Assembler.assemble memory module diagnostics with
  | .error .lengthError => (.error .lengthError, diagnostics)
  | .error .badAlloc => (.error .badAlloc, diagnostics)
  | .error (.failed message diagnostics) => (.error (.message message), diagnostics)
  | .ok (object, diagnostics) =>
    let object := if options.emitDebugInfo then object else withoutDebugInfo object
    (.ok { object, stats, module }, diagnostics)

/-- The stages after parsing. -/
def assembleProgram (oob : ℕ → Bool) (memory : ℕ) (program : Ast.Program) (sourceName : Str)
    (diagnostics : DiagnosticEngine) (options : AssembleOptions) :
    Except PipelineError AssembleResult × DiagnosticEngine :=
  match Sema.analyze diagnostics program with
  | (false, diagnostics) => (.error (.message "semantic analysis failed"), diagnostics)
  | (true, diagnostics) =>
    match Ir.lower program sourceName diagnostics with
    | .error .outOfRange => (.error .outOfRange, diagnostics)
    | .error (.failed message diagnostics) => (.error (.message message), diagnostics)
    | .ok (module, diagnostics) => assembleModule oob memory module diagnostics options

/-- Runs the whole front end for one file; `none` if the parser runs out of fuel. -/
def assembleSource (oob : ℕ → Bool) (memory : ℕ) (sources : SourceManager) (file : FileId)
    (diagnostics : DiagnosticEngine) (options : AssembleOptions) :
    Option (Except PipelineError AssembleResult × DiagnosticEngine) :=
  match sources[file.toNat]? with
  | none => some (.error (.message "no such source file"), diagnostics)
  | some source =>
    let parser : Parser := { tokens := Lexer.lexAll source.text file, diagnostics }
    match parser.parse with
    | none => none
    | some (.error message, parser) => some (.error (.message message), parser.diagnostics)
    | some (.ok program, parser) =>
      some (assembleProgram oob memory program source.name parser.diagnostics options)

end MiniTool
