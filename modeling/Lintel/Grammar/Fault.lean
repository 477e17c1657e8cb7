import Lintel.Syntax.Lexer

namespace Lintel

inductive GrammarFault where
  | missing (kind : Kind)
  | missingWord (word : String) (other : Option String)
  | missingType
  | missingStatement
  | missingExpression
  | missingAccessor
  | noMember
  | noExpression
  | strayCloser
  | stray (kind : Kind)
  deriving DecidableEq

inductive ParseFault where
  | lexer (fault : LexFault)
  | grammar (fault : GrammarFault)
  deriving DecidableEq

namespace GrammarFault

def message : GrammarFault → String
  | missing k =>
    match k.spelling? with
    | some s => s!"expected '{s}'"
    | none => s!"expected {k.name}"
  | missingWord w none => s!"expected '{w}'"
  | missingWord w (some o) => s!"expected '{w}' or '{o}'"
  | missingType => "expected a type"
  | missingStatement => "expected a statement"
  | missingExpression => "expected an expression"
  | missingAccessor => "expected an accessor"
  | noMember => "expected a member declaration"
  | noExpression => "expected an expression"
  | strayCloser => "unexpected closing delimiter"
  | stray k => s!"unexpected {k.name}"

def isUnexpected : GrammarFault → Bool
  | noMember | noExpression | strayCloser | stray _ => true
  | _ => false

end GrammarFault

namespace ParseFault

def message : ParseFault → String
  | lexer f => f.message
  | grammar f => f.message

def category : ParseFault → String
  | lexer _ => "Lexer"
  | grammar f => if f.isUnexpected then "Unexpected" else "Expected"

end ParseFault

end Lintel
