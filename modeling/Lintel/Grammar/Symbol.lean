import Lintel.Grammar.Lookahead

namespace Lintel.Grammar

inductive Symbol where
  | compilationUnit | usingDirective | namespaceDecl | member | attributes | parameterList
  | bracketedParameterList | typeParameterList | constraints | accessorList | variableDeclaration
  | block | statement | embedded
  | expression | assignment | conditional | coalesce
  | binary (level : Nat)
  | unary | suffixed | primary | pattern | creation | initializer | argumentList
  | bracketedArgumentList | lambda | query | queryBody
  /-- A type; inside an expression a question mark or a star may be an operator. -/
  | type (inExpression : Bool)
  | plainType | typeArgumentList | arrayRanks
  deriving DecidableEq

abbrev Rule := Action Symbol

instance : Append Rule := ⟨.seq⟩

namespace Rule

open Lintel.Grammar.Action Lintel.Grammar.Cond

def sees (ks : List Kind) : Cond :=
  .ahead 0 ks.contains

def seesAt (n : Nat) (ks : List Kind) : Cond :=
  .ahead n ks.contains

def never : Cond :=
  .ahead 0 (fun _ => false)

def when (c : Cond) (a : Rule) : Rule :=
  .branch c a .skip

def except (c : Cond) (a : Rule) : Rule :=
  .branch c .skip a

def choose (cases : List (Cond × Rule)) (otherwise : Rule) : Rule :=
  cases.foldr (fun p rest => .branch p.1 p.2 rest) otherwise

def eat (k : Kind) : Rule :=
  when (sees [k]) .take

def expect (k : Kind) : Rule :=
  .branch (sees [k]) .take (.complain (.missing k))

def expectWord (w : String) (k : Kind) : Rule :=
  .branch (.word w) (.takeAs k) (.complain (.missingWord w none))

def node (k : Kind) (a : Rule) : Rule :=
  .scope (.wrap k a)

def before (ks : List Kind) : Cond :=
  .and (.not .done) (.not (sees ks))

def sepByComma (a : Rule) : Rule :=
  a ++ .loop (sees [.comma]) (.take ++ a)

def many (stop : List Kind) (a : Rule) : Rule :=
  .loop (before stop) (.progress a)

def list (stop : List Kind) (a : Rule) : Rule :=
  .commas true (before stop) a

def expression : Rule := .call .expression

def declaredType : Rule := .call (.type false)

def equalsValue (value : Rule) : Rule :=
  when (sees [.eq]) (node .equalsValueClause (.take ++ value))

def parenthesized : Rule :=
  expect .lParen ++ expression ++ expect .rParen

end Rule

end Lintel.Grammar
