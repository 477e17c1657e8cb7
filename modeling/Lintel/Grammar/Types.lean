import Lintel.Grammar.Symbol

namespace Lintel.Grammar.Rule

open Lintel.Grammar.Action Lintel.Grammar.Cond

def rankFollows : Cond :=
  .and (sees [.lBracket]) (seesAt 1 [.rBracket, .comma])

def arrayRanks : Rule :=
  .loop rankFollows
    (node .arrayRank (.take ++ .loop (sees [.comma]) .take ++ expect .rBracket))

def typeArgumentList : Rule :=
  node .typeArgumentList
    (expect .lt ++ .commas false (before [.gt]) (except (sees [.comma]) declaredType) ++ expect .gt)

def typeSegment : Rule :=
  .branch (.look View.argumentsFollow)
    (node .genericType (.take ++ .call .typeArgumentList))
    (node .nameType .take)

def plainType : Rule :=
  .scope (choose
    [(.ahead 0 Kind.isPredefinedType, node .predefinedType .take),
      (sees [.ident],
        typeSegment ++
          .loop (.and (sees [.dot, .colonColon]) (seesAt 1 [.ident]))
            (.wrap .qualifiedType (.take ++ typeSegment)))]
    (.complain .missingType))

/-- A question mark makes a type nullable; in an expression only before what ends one. -/
def nullableFollows (inExpression : Bool) : Cond :=
  if inExpression then
    .and (sees [.question])
      (seesAt 1 [.rParen, .semicolon, .comma, .rBracket, .rBrace, .eof])
  else sees [.question]

def pointerFollows (inExpression : Bool) : Cond :=
  if inExpression then never else sees [.star]

def type (inExpression : Bool) : Rule :=
  .scope (.branch (.ahead 0 (fun k => k == .ident || k.isPredefinedType))
    (.call .plainType ++
      .loop (.or (nullableFollows inExpression) (.or (pointerFollows inExpression) rankFollows))
        (choose
          [(nullableFollows inExpression, .wrap .nullableType .take),
            (pointerFollows inExpression, .wrap .pointerType .take)]
          (.wrap .arrayType (.call .arrayRanks))))
    (.call .plainType))

end Lintel.Grammar.Rule
