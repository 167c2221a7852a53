import MiniToolchain.Parser.Parser

/-!
# The grammar

What the manual says a source file is, as derivations that also name what is derived:

    line        := { label } [ instruction | directive ] NEWLINE
    label       := IDENT ':' | '.' IDENT ':'
    instruction := IDENT [ operand { ',' operand } ]
    directive   := '.' IDENT [ operand { ',' operand } ]
    operand     := register | '#' INTEGER | expr | memory | STRING
    memory      := '[' register [ ('+' | '-') INTEGER ] ']'
    expr        := INTEGER | CHAR | symbol [ ('+' | '-') INTEGER ]
    symbol      := IDENT | '.' IDENT

The name of a directive is one of the spellings, the section shorthands take no operands, and the
end of the file may end the last line.

## Main definitions

* `DerivesSymbol`, `DerivesOffset`, `DerivesOperand`, `DerivesArguments` — the parts of a statement.
* `DerivesStatement`, `DerivesLabel`, `DerivesLine`, `DerivesProgram`.
-/

namespace MiniTool
namespace Parser

open Ast Lexer

inductive DerivesSymbol : List Token → Str → SourceLocation → Prop
  | plain {name : Token} (hname : name.type = .identifier) :
      DerivesSymbol [name] name.text name.location
  | dotted {dot name : Token} (hdot : dot.type = .dot) (hname : name.type = .identifier) :
      DerivesSymbol [dot, name] (str "." ++ name.text) (joined dot.location name.location)

/-- `('+' | '-') INTEGER`, its value, and where it ends. -/
inductive DerivesOffset : List Token → Int64 → SourceLocation → Prop
  | plus {sign value : Token} (hsign : sign.type = .plus) (hvalue : value.type = .integer) :
      DerivesOffset [sign, value] value.intValue value.location
  | minus {sign value : Token} (hsign : sign.type = .minus) (hvalue : value.type = .integer) :
      DerivesOffset [sign, value] (-value.intValue) value.location

/-- The register a token names. -/
def registerOf (token : Token) : Isa.Reg := (Isa.parseRegister token.text).getD .R0

inductive DerivesOperand : List Token → Operand → Prop
  | register {token : Token} (h : token.type = .register) : DerivesOperand [token]
      { type := .register, reg := registerOf token, location := token.location }
  | hash {hash value : Token} (hhash : hash.type = .hash) (hvalue : value.type = .integer) :
      DerivesOperand [hash, value]
        { type := .immediate, immediate := value.intValue, location := hash.location }
  | constant {token : Token} (h : token.type = .integer ∨ token.type = .character) :
      DerivesOperand [token]
        { type := .immediate, immediate := token.intValue, location := token.location }
  | symbol {tokens : List Token} {name : Str} {location : SourceLocation}
      (h : DerivesSymbol tokens name location) :
      DerivesOperand tokens { type := .symbol, symbol := name, location }
  | symbolOffset {tokens offset : List Token} {name : Str} {location last : SourceLocation}
      {value : Int64} (h : DerivesSymbol tokens name location)
      (hoffset : DerivesOffset offset value last) :
      DerivesOperand (tokens ++ offset)
        { type := .symbol, symbol := name, immediate := value, location := spanTo location last }
  | memory {opening base closing : Token} (hopening : opening.type = .lBracket)
      (hbase : base.type = .register) (hclosing : closing.type = .rBracket) :
      DerivesOperand [opening, base, closing]
        { type := .memory, reg := registerOf base,
          location := spanTo opening.location closing.location }
  | memoryOffset {opening base closing : Token} {offset : List Token} {value : Int64}
      {last : SourceLocation} (hopening : opening.type = .lBracket)
      (hbase : base.type = .register) (hoffset : DerivesOffset offset value last)
      (hclosing : closing.type = .rBracket) :
      DerivesOperand (opening :: base :: (offset ++ [closing]))
        { type := .memory, reg := registerOf base, immediate := value,
          location := spanTo opening.location closing.location }
  | string {token : Token} (h : token.type = .string) : DerivesOperand [token]
      { type := .string, text := token.strValue, location := token.location }

/-- `operand { ',' operand }`. -/
inductive DerivesOperands : List Token → List Operand → Prop
  | one {tokens : List Token} {operand : Operand} (h : DerivesOperand tokens operand) :
      DerivesOperands tokens [operand]
  | cons {tokens rest : List Token} {comma : Token} {operand : Operand} {operands : List Operand}
      (h : DerivesOperand tokens operand) (hcomma : comma.type = .comma)
      (hrest : DerivesOperands rest operands) :
      DerivesOperands (tokens ++ comma :: rest) (operand :: operands)

/-- `[ operand { ',' operand } ]`. -/
inductive DerivesArguments : List Token → List Operand → Prop
  | none : DerivesArguments [] []
  | some {tokens : List Token} {operands : List Operand} (h : DerivesOperands tokens operands) :
      DerivesArguments tokens operands

inductive DerivesStatement : List Token → Statement → Prop
  | instruction {name : Token} {tokens : List Token} {operands : List Operand}
      (hname : name.type = .identifier) (harguments : DerivesArguments tokens operands) :
      DerivesStatement (name :: tokens)
        (.instruction { mnemonic := name.text, operands, location := name.location })
  | directive {dot name : Token} {tokens : List Token} {operands : List Operand}
      {spelling : DirectiveSpelling} (hdot : dot.type = .dot) (hname : name.type = .identifier)
      (hspelling : findDirective name.text = some spelling)
      (hplain : spelling.implicitSection = "") (harguments : DerivesArguments tokens operands) :
      DerivesStatement (dot :: name :: tokens)
        (.directive { type := spelling.type, operands,
                      location := joined dot.location name.location })
  | shorthand {dot name : Token} {spelling : DirectiveSpelling} (hdot : dot.type = .dot)
      (hname : name.type = .identifier) (hspelling : findDirective name.text = some spelling)
      (hsection : spelling.implicitSection ≠ "") :
      DerivesStatement [dot, name]
        (.directive
          { type := spelling.type
            operands := [{ type := .symbol, symbol := str spelling.implicitSection,
                           location := joined dot.location name.location }]
            location := joined dot.location name.location })

inductive DerivesLabel : List Token → LabelNode → Prop
  | plain {name colon : Token} (hname : name.type = .identifier) (hcolon : colon.type = .colon) :
      DerivesLabel [name, colon] { name := name.text, location := name.location }
  | dotted {dot name colon : Token} (hdot : dot.type = .dot) (hname : name.type = .identifier)
      (hcolon : colon.type = .colon) :
      DerivesLabel [dot, name, colon]
        { name := str "." ++ name.text, isLocal := true,
          location := joined dot.location name.location }

/-- A line, without what ends it. -/
inductive DerivesLine : List Token → List Statement → Prop
  | empty : DerivesLine [] []
  | statement {tokens : List Token} {statement : Statement}
      (h : DerivesStatement tokens statement) : DerivesLine tokens [statement]
  | label {tokens rest : List Token} {node : LabelNode} {statements : List Statement}
      (h : DerivesLabel tokens node) (hrest : DerivesLine rest statements) :
      DerivesLine (tokens ++ rest) (.label node :: statements)

/-- Lines that end in NEWLINE, and a last one that ends with the file. -/
inductive DerivesProgram : List Token → List Statement → Prop
  | last {tokens : List Token} {statements : List Statement} (h : DerivesLine tokens statements) :
      DerivesProgram tokens statements
  | line {tokens rest : List Token} {newline : Token} {statements later : List Statement}
      (h : DerivesLine tokens statements) (hnewline : newline.type = .newline)
      (hrest : DerivesProgram rest later) :
      DerivesProgram (tokens ++ newline :: rest) (statements ++ later)

end Parser
end MiniTool
