import Lintel.Syntax.Kind
import Lintel.Text.Basic

namespace Lintel

structure Token where
  kind : Kind
  text : Text
  deriving DecidableEq, Inhabited

inductive LexFault where
  | openComment
  | openLiteral
  | openString
  | strayCharacter (c : Char)
  deriving DecidableEq

def LexFault.message : LexFault → String
  | openComment => "Unterminated block comment"
  | openLiteral => "Unterminated literal"
  | openString => "Unterminated string literal"
  | strayCharacter c => s!"Unexpected character '{c}'"

structure Lexeme extends Token where
  fault : Option LexFault := none
  deriving DecidableEq, Inhabited

namespace Token

def textOf (ts : List Token) : Text :=
  ts.flatMap (·.text)

def located (start : Nat) : List Token → List (Nat × Token)
  | [] => []
  | t :: ts => (start, t) :: located (start + t.text.size) ts

def isTrivia (t : Token) : Bool :=
  t.kind.isTrivia

end Token

end Lintel
