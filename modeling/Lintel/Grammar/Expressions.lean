import Lintel.Grammar.Types

namespace Lintel.Grammar.Rule

open Lintel.Grammar.Action Lintel.Grammar.Cond

def expressionRule : Rule :=
  .branch .done (.complain .missingExpression) (.call .assignment)

def isAssignmentSign (k : Kind) : Bool :=
  k matches .eq | .plusEq | .minusEq | .starEq | .slashEq | .percentEq | .ampEq | .pipeEq | .caretEq
    | .shlEq | .questionQuestionEq

def shiftAssign : Cond :=
  .look View.startsShiftAssign

def initializerFollows : Rule :=
  when (sees [.lBrace]) (.call .initializer)

def assignment : Rule :=
  choose
    [(.look View.startsLambda, .call .lambda),
      (.look View.startsQuery, .call .query)]
    (.scope (.call .conditional ++
      when (.or (.ahead 0 isAssignmentSign) shiftAssign)
        (.wrap .assignmentExpr
          (when shiftAssign .take ++ .take ++
            .branch (sees [.lBrace]) (.call .initializer) (.call .assignment)))))

def conditional : Rule :=
  .scope (.call .coalesce ++
    when (sees [.question])
      (.wrap .conditionalExpr (.take ++ expression ++ expect .colon ++ expression)))

def coalesce : Rule :=
  .scope (.call (.binary 1) ++
    when (sees [.questionQuestion]) (.wrap .coalesceExpr (.take ++ .call .coalesce)))

def binaryLevel (level : Nat) : Cond × Rule :=
  (.look (fun v => v.precedence? == some level),
    .wrap .binaryExpr
      (when (.look View.startsShiftRight) .take ++ .take ++ .call (.binary (level + 1))))

def binary (level : Nat) : Rule :=
  .scope (.call .unary ++
    .loop (.look (fun v => v.precedence?.any (level ≤ ·)))
      (choose
        (([(sees [.isKw], .wrap .isExpr (.take ++ .call .pattern)),
          (sees [.asKw], .wrap .asExpr (.take ++ .call (.type true)))] : List (Cond × Rule)) ++
          [1, 2, 3, 4, 5, 6, 7, 8, 9, 10].map binaryLevel)
        .skip))

def pattern : Rule :=
  when (.word "not") .take ++
    choose
      [(sees [.lParen], node .parenPattern (.take ++ .call .pattern ++ expect .rParen)),
        (.ahead 0 (fun k => k.isLiteral || k == .minus), .call .unary)]
      (.call (.type true) ++
        when (.and (sees [.ident]) (.not (.or (.word "and") (.word "or")))) .take)

def awaits : Cond :=
  .and (.word "await") (.ahead 1 View.kindStartsOperand)

def unary : Rule :=
  choose
    [(sees [.bang, .tilde, .minus, .plus, .plusPlus, .minusMinus, .amp, .star, .caret],
        node .prefixUnaryExpr (.take ++ .call .unary)),
      (awaits, node .awaitExpr (.takeAs .awaitKw ++ .call .unary)),
      (.and (sees [.lParen]) (.look View.startsCast),
        node .castExpr (.take ++ declaredType ++ expect .rParen ++ .call .unary))]
    (.call .suffixed)

def simpleName : Rule :=
  .branch (.and (sees [.ident]) (.look View.startsGenericName))
    (node .genericNameExpr (.take ++ .call .typeArgumentList))
    (node .nameExpr (expect .ident))

/-- A mark that silences a null warning, before a member access or the end of an operand. -/
def nullForgiving : Cond :=
  .and (sees [.bang]) (seesAt 1 [.dot, .rParen, .semicolon, .comma, .lBracket])

def suffixed : Rule :=
  .scope (.call .primary ++
    .loop
      (.or (sees [.dot, .colonColon, .questionDot, .arrow, .lParen, .lBracket, .plusPlus, .minusMinus])
        nullForgiving)
      (choose
        [(sees [.dot, .colonColon, .arrow], .wrap .memberAccessExpr (.take ++ simpleName)),
          (sees [.questionDot], .wrap .conditionalAccessExpr (.take ++ simpleName)),
          (sees [.lParen], .wrap .invocationExpr (.call .argumentList)),
          (sees [.lBracket], .wrap .elementAccessExpr (.call .bracketedArgumentList))]
        (.wrap .postfixUnaryExpr .take)))

def closers : List Kind :=
  [.rParen, .rBracket, .rBrace, .semicolon, .comma, .colon]

def typeInParens : Rule :=
  expect .lParen ++ declaredType ++ expect .rParen

def primary : Rule :=
  choose
    [(.ahead 0 Kind.isLiteral, node .literalExpr .take),
      (.and (.word "nameof") (seesAt 1 [.lParen]),
        node .nameofExpr (.takeAs .nameofKw ++ .call .argumentList)),
      (sees [.ident], simpleName),
      (sees [.thisKw], node .thisExpr .take),
      (sees [.baseKw], node .baseExpr .take),
      (.ahead 0 Kind.isPredefinedType, node .predefinedTypeExpr .take),
      (sees [.lParen], node .parenExpr (.take ++ expression ++ expect .rParen)),
      (sees [.newKw], .call .creation),
      (sees [.typeofKw], node .typeofExpr (.take ++ typeInParens)),
      (sees [.sizeofKw], node .sizeofExpr (.take ++ typeInParens)),
      (.and (sees [.defaultKw]) (seesAt 1 [.lParen]),
        node .defaultExpr (.take ++ .take ++ declaredType ++ expect .rParen)),
      (sees [.defaultKw], node .defaultLiteralExpr .take),
      (sees [.checkedKw, .uncheckedKw], node .checkedExpr (.take ++ parenthesized)),
      (sees [.stackallocKw],
        node .stackallocExpr
          (.take ++ except (sees [.lBracket]) (.call .plainType) ++ .call .bracketedArgumentList ++
            initializerFollows)),
      (sees [.lBrace], .call .initializer)]
    (node .error
      (.complain .noExpression ++ except (.or (sees closers) .done) .take))

def creation : Rule :=
  choose
    [(seesAt 1 [.lBracket],
        node .implicitArrayCreationExpr
          (.take ++ .take ++ .loop (sees [.comma]) .take ++ expect .rBracket ++ .call .initializer)),
      (seesAt 1 [.lParen],
        node .implicitObjectCreationExpr (.take ++ .call .argumentList ++ initializerFollows)),
      (seesAt 1 [.lBrace], node .objectCreationExpr (.take ++ .call .initializer))]
    (.scope (.take ++ .call .plainType ++
      .branch (sees [.lBracket])
        (.wrap .arrayCreationExpr
          (except (seesAt 1 [.rBracket, .comma]) (.call .bracketedArgumentList) ++
            .call .arrayRanks ++ initializerFollows))
        (.wrap .objectCreationExpr
          (when (sees [.lParen]) (.call .argumentList) ++ initializerFollows))))

def initializer : Rule :=
  node .initializerExpr
    (expect .lBrace ++
      list [.rBrace] (.branch (sees [.lBrace]) (.call .initializer) expression) ++
      expect .rBrace)

def argument : Rule :=
  node .argument
    (when (.and (sees [.ident]) (seesAt 1 [.colon])) (.take ++ .take) ++
      .branch (sees [.refKw, .outKw, .inKw])
        (.take ++
          .branch (.look View.startsArgumentDeclaration) (declaredType ++ .take) expression)
        expression)

def argumentList : Rule :=
  node .argumentList (expect .lParen ++ list [.rParen] argument ++ expect .rParen)

def bracketedArgumentList : Rule :=
  node .bracketedArgumentList (expect .lBracket ++ list [.rBracket] argument ++ expect .rBracket)

def parameterModifiers : Rule :=
  .loop (sees [.refKw, .outKw, .inKw, .paramsKw, .thisKw, .readonlyKw]) .take

def lambdaParameters : Rule :=
  node .parameterList
    (.take ++
      list [.rParen]
        (node .parameter
          (parameterModifiers ++ when (.look View.startsTypedParameter) declaredType ++
            expect .ident)) ++
      expect .rParen)

def lambdaBody : Rule :=
  expect .fatArrow ++ .branch (sees [.lBrace]) (.call .block) expression

def asyncLambda : Cond :=
  .and (.word "async") (seesAt 1 [.ident, .lParen])

def lambda : Rule :=
  .scope (when asyncLambda (.takeAs .asyncKw) ++
    .branch (sees [.lParen])
      (.wrap .parenLambdaExpr (lambdaParameters ++ lambdaBody))
      (.wrap .simpleLambdaExpr (node .parameter (expect .ident) ++ lambdaBody)))

def rangeVariable : Rule :=
  except (seesAt 1 [.inKw]) declaredType ++ expect .ident ++ expect .inKw ++ expression

def fromClause : Rule :=
  node .fromClause (.takeAs .fromKw ++ rangeVariable)

def joinClause : Rule :=
  node .joinClause
    (.takeAs .joinKw ++ rangeVariable ++ expectWord "on" .onKw ++ expression ++
      expectWord "equals" .equalsKw ++ expression ++
      when (.word "into") (.takeAs .intoKw ++ expect .ident))

def orderByClause : Rule :=
  node .orderByClause
    (.takeAs .orderbyKw ++
      sepByComma (node .ordering
        (expression ++
          choose
            [(.word "ascending", .takeAs .ascendingKw), (.word "descending", .takeAs .descendingKw)]
            .skip)))

def query : Rule :=
  node .queryExpr (.inQuery (fromClause ++ .call .queryBody))

def queryClauses : List (Cond × Rule) :=
  [(.word "from", fromClause),
    (.word "where", node .whereClause (.takeAs .whereKw ++ expression)),
    (.word "let", node .letClause (.takeAs .letKw ++ expect .ident ++ expect .eq ++ expression)),
    (.word "join", joinClause),
    (.word "orderby", orderByClause)]

def queryContinuation : Rule :=
  when (.word "into")
    (node .queryContinuation (.takeAs .intoKw ++ expect .ident ++ .call .queryBody))

def queryBody : Rule :=
  .loop (queryClauses.foldr (fun p c => .or p.1 c) never)
      (choose queryClauses .skip) ++
    choose
      [(.word "select",
          node .selectClause (.takeAs .selectKw ++ expression) ++ queryContinuation),
        (.word "group",
          node .groupClause
              (.takeAs .groupKw ++ expression ++ expectWord "by" .byKw ++ expression) ++
            queryContinuation)]
      (.complain (.missingWord "select" (some "group")))

end Lintel.Grammar.Rule
