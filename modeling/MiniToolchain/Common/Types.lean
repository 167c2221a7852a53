import Mathlib.Data.Int.Notation
import Mathlib.Data.List.Basic
import Mathlib.Data.List.GetD
import Mathlib.Tactic.Linarith
import Mathlib.Tactic.Ring
import Mathlib.Tactic.SplitIfs

/-!
# Byte strings and source locations

A `std::string` is a sequence of bytes, whatever its encoding, so names are lists of bytes here.
Messages are only ever shown, and are Lean strings with a character for each byte.

## Main definitions

* `Str`, `str` — byte strings and their literals.
* `Str.text`, `Str.ofText` — how a message shows a byte string, and the bytes of a message.
* `SourceLocation` — a span of source text.
-/

namespace MiniTool

/-- A `std::string`: its bytes. -/
abbrev Str := List UInt8

instance lawfulBEq_str : LawfulBEq Str := inferInstance

/-- The bytes of a string literal. -/
def str (literal : String) : Str := literal.toUTF8.data.toList

/-- How a message shows a byte string. -/
def Str.text (s : Str) : String := String.ofList (s.map fun b => Char.ofNat b.toNat)

/-- The bytes that a message shows. -/
def Str.ofText (text : String) : Str := text.toList.map fun c => UInt8.ofNat c.toNat

/-- `std::string::starts_with`. -/
def Str.startsWith (s p : Str) : Bool := p.isPrefixOf s

/-- Handle for a registered source file. -/
abbrev FileId := UInt32

/-- The file of a location that did not come from source text. -/
def kInvalidFileId : FileId := 0xFFFFFFFF

/-- A span of source text: 1-based line and column, and a length in bytes. -/
structure SourceLocation where
  file : FileId := kInvalidFileId
  line : UInt32 := 0
  column : UInt32 := 0
  length : UInt32 := 0
  deriving DecidableEq, Repr, Inhabited

end MiniTool
