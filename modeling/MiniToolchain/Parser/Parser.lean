import MiniToolchain.Ast.Ast
import MiniToolchain.Diagnostics.Diagnostic
import MiniToolchain.Isa.Registers
import MiniToolchain.Lexer.Token

/-!
# The parser

Recursive descent over the tokens of one file, with up to three tokens of look-ahead.  The buffer
and the lexer together are the list of the tokens not consumed yet.  Malformed tokens are reported
when they are first looked at, and dropped.

## Main definitions

* `Parser`, `peek`, `advance`, `accept`, `expect`.
* `parseOperand`, `parseOperands`, `parseInstruction`, `parseDirective`, `parseLine`, `parse`.

The loops have fuel, and `none` is the answer of one that ran out of it.
-/

namespace MiniTool

open Diag Lexer

/-- The tokens not consumed yet, what was reported, and whether anything was. -/
structure Parser where
  tokens : List Token
  diagnostics : DiagnosticEngine := {}
  failed : Bool := false
  deriving DecidableEq, Repr

namespace Parser

open Ast

/-! ### Directive spellings -/

structure DirectiveSpelling where
  name : String
  type : DirectiveType
  /-- Not empty for the section shorthands. -/
  implicitSection : String
  deriving DecidableEq, Repr

def kDirectives : List DirectiveSpelling :=
  [⟨"section", .section_, ""⟩,
   ⟨"text", .section_, ".text"⟩,
   ⟨"data", .section_, ".data"⟩,
   ⟨"rodata", .section_, ".rodata"⟩,
   ⟨"bss", .section_, ".bss"⟩,
   ⟨"global", .global, ""⟩,
   ⟨"globl", .global, ""⟩,
   ⟨"extern", .external, ""⟩,
   ⟨"weak", .weak, ""⟩,
   ⟨"byte", .byte, ""⟩,
   ⟨"word", .word, ""⟩,
   ⟨"dword", .dword, ""⟩,
   ⟨"qword", .qword, ""⟩,
   ⟨"asciz", .asciz, ""⟩,
   ⟨"align", .align, ""⟩,
   ⟨"space", .space, ""⟩]

def findDirective (name : Str) : Option DirectiveSpelling :=
  kDirectives.find? fun entry => str entry.name = name

/-! ### Tokens -/

/-- Splits the malformed tokens off before the first `n` others. -/
def settleTokens : List Token → ℕ → List Token × List Token
  | tokens, 0 => (tokens, [])
  | [], _ + 1 => ([], [])
  | token :: rest, n + 1 =>
    if token.type = .error then
      let (tokens, errors) := settleTokens rest (n + 1)
      (tokens, token :: errors)
    else
      let (tokens, errors) := settleTokens rest n
      (token :: tokens, errors)

/-- Reports malformed tokens. -/
def reportErrors (p : Parser) (errors : List Token) : Parser where
  tokens := p.tokens
  diagnostics := errors.foldl (fun diagnostics token => diagnostics.report
    (Diag.error .lexicalError token.location token.strValue.text)) p.diagnostics
  failed := p.failed || !errors.isEmpty

/-- What the lexer returns past the end of the file. -/
def endOfFile : Token := { type := .eof }

def peek (p : Parser) (ahead : ℕ) : Token × Parser :=
  let (tokens, errors) := settleTokens p.tokens (ahead + 1)
  (tokens.getD ahead endOfFile, { p with tokens }.reportErrors errors)

def advance (p : Parser) : Token × Parser :=
  let (token, p) := p.peek 0
  (token, { p with tokens := p.tokens.drop 1 })

/-- `match`. -/
def accept (p : Parser) (type : TokenType) : Bool × Parser :=
  let (token, p) := p.peek 0
  if token.type = type then (true, p.advance.2) else (false, p)

def error (p : Parser) (token : Token) (code : ErrorCode) (message : String) : Parser :=
  { p with diagnostics := p.diagnostics.report (Diag.error code token.location message)
           failed := true }

def expect (p : Parser) (type : TokenType) (what : String) : Option Token × Parser :=
  let (token, p) := p.peek 0
  if token.type = type then
    let (token, p) := p.advance
    (some token, p)
  else
    let found := tokenTypeName token.type
    (none, p.error token .parseError s!"expected {what}, found {found}")

/-- The token ends a statement. -/
def endsStatement (token : Token) : Bool := token.type = .newline || token.type = .eof

/-- Drops the tokens up to the end of the line, and splits off the malformed ones. -/
def skipTokens : List Token → List Token × List Token
  | [] => ([], [])
  | token :: rest =>
    if token.type = .error then
      let (tokens, errors) := skipTokens rest
      (tokens, token :: errors)
    else if endsStatement token then (token :: rest, [])
    else skipTokens rest

def skipToEndOfLine (p : Parser) : Parser :=
  let (tokens, errors) := skipTokens p.tokens
  (({ p with tokens }.reportErrors errors).accept .newline).2

/-! ### Operands -/

/-- From the start of one location to the end of another. -/
def spanTo (first last : SourceLocation) : SourceLocation :=
  { first with length := (last.column + last.length) - first.column }

/-- Two adjacent locations. -/
def joined (first second : SourceLocation) : SourceLocation :=
  { first with length := first.length + second.length }

/-- The value of an integer after `+` or `-`; it is negated through `u64`. -/
def signed (negate : Bool) (value : Int64) : Int64 :=
  if negate then (~~~value.toUInt64 + 1).toInt64 else value

def parseSymbolExpression (p : Parser) (name : Str) (location : SourceLocation) :
    Option Operand × Parser :=
  let operand : Operand := { type := .symbol, symbol := name, location }
  let (token, p) := p.peek 0
  if token.type = .plus ∨ token.type = .minus then
    let negate := token.type = .minus
    match p.advance.2.expect .integer "an integer addend" with
    | (none, p) => (none, p)
    | (some addend, p) =>
      (some { operand with
        immediate := signed negate addend.intValue
        location := spanTo location addend.location }, p)
  else (some operand, p)

/-- The `]` of a memory operand. -/
def closeMemory (p : Parser) (operand : Operand) : Option Operand × Parser :=
  match p.expect .rBracket "']' to close the memory operand" with
  | (none, p) => (none, p)
  | (some close, p) =>
    (some { operand with location := spanTo operand.location close.location }, p)

def parseMemoryOperand (p : Parser) : Option Operand × Parser :=
  let (opening, p) := p.advance
  match p.expect .register "a base register inside '[...]'" with
  | (none, p) => (none, p)
  | (some base, p) =>
    let operand : Operand :=
      { type := .memory, location := opening.location,
        reg := (Isa.parseRegister base.text).getD .R0 }
    let (token, p) := p.peek 0
    if token.type = .plus ∨ token.type = .minus then
      let negate := token.type = .minus
      match p.advance.2.expect .integer "an integer displacement" with
      | (none, p) => (none, p)
      | (some displacement, p) =>
        p.closeMemory { operand with immediate := signed negate displacement.intValue }
    else if token.type = .integer then
      -- a common slip, named rather than reported as a missing bracket
      (none, p.error token .invalidOperand "expected '+' or '-' before the displacement")
    else p.closeMemory operand

def parseOperand (p : Parser) : Option Operand × Parser :=
  let (token, p) := p.peek 0
  match token.type with
  | .register =>
    let (reg, p) := p.advance
    (some { type := .register, reg := (Isa.parseRegister reg.text).getD .R0,
            location := token.location }, p)
  | .integer | .character =>
    let (value, p) := p.advance
    (some { type := .immediate, immediate := value.intValue, location := token.location }, p)
  | .string =>
    let (value, p) := p.advance
    (some { type := .string, text := value.strValue, location := token.location }, p)
  | .hash =>
    match p.advance.2.expect .integer "an integer after '#'" with
    | (none, p) => (none, p)
    | (some value, p) =>
      (some { type := .immediate, immediate := value.intValue, location := token.location }, p)
  | .identifier =>
    let (name, p) := p.advance
    p.parseSymbolExpression name.text name.location
  | .dot =>
    -- the name of a section, or of a local label
    let (dot, p) := p.advance
    match p.expect .identifier "a name after '.'" with
    | (none, p) => (none, p)
    | (some name, p) =>
      p.parseSymbolExpression (str "." ++ name.text) (joined dot.location name.location)
  | .lBracket => p.parseMemoryOperand
  | type =>
    let found := tokenTypeName type
    (none, p.error token .invalidOperand s!"expected an operand, found {found}")

/-- The operand list of an instruction or a directive; a trailing comma is a mistake. -/
def parseOperands : ℕ → Parser → List Operand → Option (Option (List Operand) × Parser)
  | 0, _, _ => none
  | fuel + 1, p, operands =>
    let (token, p) := p.peek 0
    if endsStatement token then some (some operands, p)
    else
      match p.parseOperand with
      | (none, p) => some (none, p)
      | (some operand, p) =>
        match p.accept .comma with
        | (false, p) => some (some (operands ++ [operand]), p)
        | (true, p) =>
          let (token, p) := p.peek 0
          if endsStatement token then
            some (none, p.error token .invalidOperand "expected an operand after ','")
          else parseOperands fuel p (operands ++ [operand])

/-! ### Statements -/

def parseInstruction (p : Parser) : Option (Option InstructionNode × Parser) :=
  let (mnemonic, p) := p.advance
  match parseOperands (p.tokens.length + 1) p [] with
  | none => none
  | some (none, p) => some (none, p)
  | some (some operands, p) =>
    some (some { mnemonic := mnemonic.text, operands, location := mnemonic.location }, p)

def parseDirective (p : Parser) : Option (Option DirectiveNode × Parser) :=
  let (dot, p) := p.advance
  match p.expect .identifier "a directive name" with
  | (none, p) => some (none, p)
  | (some name, p) =>
    match findDirective name.text with
    | none =>
      let spelled := name.text.text
      some (none, p.error name .invalidDirective s!"unknown directive '.{spelled}'")
    | some spelling =>
      let location := joined dot.location name.location
      if spelling.implicitSection ≠ "" then
        some (some { type := spelling.type, location,
                     operands := [{ type := .symbol, symbol := str spelling.implicitSection,
                                    location }] }, p)
      else
        match parseOperands (p.tokens.length + 1) p [] with
        | none => none
        | some (none, p) => some (none, p)
        | some (some operands, p) => some (some { type := spelling.type, operands, location }, p)

/-- The labels in front of a statement. -/
def parseLabels : ℕ → Parser → List Statement → Option (List Statement × Parser)
  | 0, _, _ => none
  | fuel + 1, p, out =>
    let (first, p) := p.peek 0
    if first.type = .identifier then
      let (second, p) := p.peek 1
      if second.type = .colon then
        let (name, p) := p.advance
        parseLabels fuel p.advance.2
          (out ++ [.label { name := name.text, location := name.location }])
      else some (out, p)
    else if first.type = .dot then
      let (second, p) := p.peek 1
      if second.type = .identifier then
        let (third, p) := p.peek 2
        if third.type = .colon then
          let (dot, p) := p.advance
          let (name, p) := p.advance
          parseLabels fuel p.advance.2 (out ++ [.label
            { name := str "." ++ name.text, isLocal := true,
              location := joined dot.location name.location }])
        else some (out, p)
      else some (out, p)
    else some (out, p)

/-- The end of a statement. -/
def finishLine (p : Parser) (out : List Statement) : Bool × List Statement × Parser :=
  let (token, p) := p.peek 0
  if endsStatement token then (true, out, (p.accept .newline).2)
  else
    let found := tokenTypeName token.type
    (false, out, p.error token .parseError s!"unexpected {found} after end of statement")

/-- Parses one line; `false` if it is malformed. -/
def parseLine (p : Parser) (out : List Statement) : Option (Bool × List Statement × Parser) :=
  match parseLabels (p.tokens.length + 1) p out with
  | none => none
  | some (out, p) =>
    let (token, p) := p.peek 0
    if endsStatement token then some (true, out, (p.accept .newline).2)
    else if token.type = .dot then
      match p.parseDirective with
      | none => none
      | some (none, p) => some (false, out, p)
      | some (some directive, p) => some (p.finishLine (out ++ [.directive directive]))
    else if token.type = .identifier then
      match p.parseInstruction with
      | none => none
      | some (none, p) => some (false, out, p)
      | some (some instruction, p) => some (p.finishLine (out ++ [.instruction instruction]))
    else
      let found := tokenTypeName token.type
      some (false, out, p.error token .parseError
        s!"expected a label, instruction or directive, found {found}")

def parseLines : ℕ → Parser → List Statement → Option (List Statement × Parser)
  | 0, _, _ => none
  | fuel + 1, p, out =>
    let (token, p) := p.peek 0
    if token.type = .eof then some (out, p)
    else
      match p.accept .newline with
      | (true, p) => parseLines fuel p out
      | (false, p) =>
        match p.parseLine out with
        | none => none
        | some (true, out, p) => parseLines fuel p out
        | some (false, out, p) => parseLines fuel p.skipToEndOfLine out

/-- Parses the whole file. -/
def parse (p : Parser) : Option (Except String Program × Parser) :=
  match parseLines (p.tokens.length + 1) p [] with
  | none => none
  | some (statements, p) =>
    let errors := p.diagnostics.errorCount
    if p.failed || 0 < errors then some (.error s!"{errors} parse error(s)", p)
    else some (.ok { statements }, p)

end Parser
end MiniTool
