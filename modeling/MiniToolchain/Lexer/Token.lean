import MiniToolchain.Common.Types

/-!
# Tokens

## Main definitions

* `TokenType`, `tokenTypeName`, `Token`.
-/

namespace MiniTool
namespace Lexer

inductive TokenType
  | identifier
  | register
  | integer
  | string
  | character
  | colon
  | comma
  | plus
  | minus
  | dot
  | hash
  | lBracket
  | rBracket
  | newline
  | eof
  /-- A malformed token. -/
  | error
  deriving DecidableEq, Repr

def tokenTypeName : TokenType → String
  | .identifier => "identifier"
  | .register => "register"
  | .integer => "integer"
  | .string => "string"
  | .character => "character"
  | .colon => "':'"
  | .comma => "','"
  | .plus => "'+'"
  | .minus => "'-'"
  | .dot => "'.'"
  | .hash => "'#'"
  | .lBracket => "'['"
  | .rBracket => "']'"
  | .newline => "end of line"
  | .eof => "end of file"
  | .error => "invalid token"

structure Token where
  type : TokenType := .eof
  text : Str := []
  location : SourceLocation := {}
  /-- The value of an integer or a character. -/
  intValue : Int64 := 0
  /-- The decoded bytes of a string, or the message of a malformed token. -/
  strValue : Str := []
  deriving DecidableEq, Repr

end Lexer
end MiniTool
