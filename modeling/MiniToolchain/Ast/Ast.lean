import MiniToolchain.Isa.Opcode

/-!
# The parse tree

One assembly file as a flat sequence of statements in source order.  The tree records what was
written; `Sema` decides what of it is accepted.

## Main definitions

* `Operand`, `InstructionNode`, `LabelNode`, `DirectiveNode`, `Statement`, `Program`.
-/

namespace MiniTool
namespace Ast

inductive OperandType
  | register | immediate | symbol | memory | string
  deriving DecidableEq, Repr

def operandTypeName : OperandType → String
  | .register => "register"
  | .immediate => "immediate"
  | .symbol => "symbol"
  | .memory => "memory operand"
  | .string => "string"

structure Operand where
  type : OperandType := .immediate
  /-- Register operands, and the base register of a memory operand. -/
  reg : Isa.Reg := .R0
  /-- Immediate value, memory displacement, or the addend of a symbol reference. -/
  immediate : Int64 := 0
  symbol : Str := []
  /-- Decoded bytes of a string. -/
  text : Str := []
  location : SourceLocation := {}
  deriving DecidableEq, Repr

structure InstructionNode where
  /-- Spelled as written; the lookup ignores case. -/
  mnemonic : Str
  operands : List Operand := []
  location : SourceLocation := {}
  deriving DecidableEq, Repr

structure LabelNode where
  name : Str
  isLocal : Bool := false
  location : SourceLocation := {}
  deriving DecidableEq, Repr

inductive DirectiveType
  | section_ | global | external | weak | byte | word | dword | qword | asciz | align | space
  deriving DecidableEq, Repr

def directiveName : DirectiveType → String
  | .section_ => ".section"
  | .global => ".global"
  | .external => ".extern"
  | .weak => ".weak"
  | .byte => ".byte"
  | .word => ".word"
  | .dword => ".dword"
  | .qword => ".qword"
  | .asciz => ".asciz"
  | .align => ".align"
  | .space => ".space"

/-- Bytes emitted by one operand of a data directive, 0 for another directive. -/
def dataDirectiveWidth : DirectiveType → UInt32
  | .byte => 1
  | .word => 2
  | .dword => 4
  | .qword => 8
  | _ => 0

structure DirectiveNode where
  type : DirectiveType := .section_
  operands : List Operand := []
  location : SourceLocation := {}
  deriving DecidableEq, Repr

inductive Statement
  | instruction (node : InstructionNode)
  | label (node : LabelNode)
  | directive (node : DirectiveNode)
  deriving DecidableEq, Repr

structure Program where
  statements : List Statement := []
  deriving DecidableEq, Repr

end Ast
end MiniTool
