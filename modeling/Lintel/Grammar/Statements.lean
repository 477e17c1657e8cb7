import Lintel.Grammar.Expressions

namespace Lintel.Grammar.Rule

open Lintel.Grammar.Action Lintel.Grammar.Cond

def variableDeclaration : Rule := .call .variableDeclaration

def block : Rule :=
  node .block (expect .lBrace ++ many [.rBrace] (.call .statement) ++ expect .rBrace)

def embedded : Rule :=
  .branch .done (.complain .missingStatement) (.call .statement)

def body : Rule := .call .embedded

def semicolon : Rule := expect .semicolon

def localDeclaration : Cond :=
  .look View.startsLocalDeclaration

def expressions : Rule :=
  sepByComma expression

def ifStatement : Rule :=
  node .ifStmt
    (.take ++ parenthesized ++ body ++
      when (sees [.elseKw]) (node .elseClause (.take ++ body)))

def forStatement : Rule :=
  node .forStmt
    (.take ++ expect .lParen ++
      except (sees [.semicolon]) (.branch localDeclaration variableDeclaration expressions) ++
      semicolon ++ except (sees [.semicolon]) expression ++ semicolon ++
      except (sees [.rParen]) expressions ++ expect .rParen ++ body)

def foreachStatement : Rule :=
  node .foreachStmt
    (.take ++ expect .lParen ++ declaredType ++ expect .ident ++ expect .inKw ++ expression ++
      expect .rParen ++ body)

def jumpWithValue (k : Kind) : Rule :=
  node k (.take ++ except (.or (sees [.semicolon]) .done) expression ++ semicolon)

def jump (k : Kind) : Rule :=
  node k (.take ++ semicolon)

def yieldStatement : Rule :=
  .branch (seesAt 1 [.returnKw])
    (node .yieldReturnStmt (.takeAs .yieldKw ++ .take ++ expression ++ semicolon))
    (node .yieldBreakStmt (.takeAs .yieldKw ++ .take ++ semicolon))

def usingStatement : Rule :=
  .branch (seesAt 1 [.lParen])
    (node .usingStmt
      (.take ++ .take ++ .branch localDeclaration variableDeclaration expression ++
        expect .rParen ++ body))
    (node .localDeclStmt (.take ++ variableDeclaration ++ semicolon))

def switchLabel : Cond :=
  .or (sees [.caseKw]) (.and (sees [.defaultKw]) (seesAt 1 [.colon]))

def switchSection : Rule :=
  node .switchSection
    (.loop switchLabel
        (.branch (sees [.caseKw])
          (node .caseLabel (.take ++ expression ++ expect .colon))
          (node .defaultLabel (.take ++ expect .colon))) ++
      .loop (.and (before [.rBrace]) (.not switchLabel)) (.progress (.call .statement)))

def switchStatement : Rule :=
  node .switchStmt
    (.take ++ parenthesized ++ expect .lBrace ++ many [.rBrace] switchSection ++ expect .rBrace)

def gotoStatement : Rule :=
  choose
    [(seesAt 1 [.caseKw], node .gotoCaseStmt (.take ++ .take ++ expression ++ semicolon)),
      (seesAt 1 [.defaultKw], node .gotoDefaultStmt (.take ++ .take ++ semicolon))]
    (node .gotoStmt (.take ++ expect .ident ++ semicolon))

def catchClause : Rule :=
  node .catchClause
    (.take ++
      when (sees [.lParen])
        (node .catchDecl (.take ++ declaredType ++ eat .ident ++ expect .rParen)) ++
      when (.word "when") (.take ++ parenthesized) ++ .call .block)

def tryStatement : Rule :=
  node .tryStmt
    (.take ++ .call .block ++ .loop (sees [.catchKw]) catchClause ++
      when (sees [.finallyKw]) (node .finallyClause (.take ++ .call .block)))

def statement : Rule :=
  choose
    [(sees [.lBrace], .call .block),
      (sees [.semicolon], node .emptyStmt .take),
      (sees [.ifKw], ifStatement),
      (sees [.whileKw], node .whileStmt (.take ++ parenthesized ++ body)),
      (sees [.doKw],
        node .doStmt (.take ++ body ++ expect .whileKw ++ parenthesized ++ semicolon)),
      (sees [.forKw], forStatement),
      (sees [.foreachKw], foreachStatement),
      (sees [.returnKw], jumpWithValue .returnStmt),
      (sees [.throwKw], jumpWithValue .throwStmt),
      (sees [.breakKw], jump .breakStmt),
      (sees [.continueKw], jump .continueStmt),
      (sees [.usingKw], usingStatement),
      (sees [.lockKw], node .lockStmt (.take ++ parenthesized ++ body)),
      (sees [.fixedKw],
        node .fixedStmt
          (.take ++ expect .lParen ++ variableDeclaration ++ expect .rParen ++ body)),
      (sees [.switchKw], switchStatement),
      (sees [.gotoKw], gotoStatement),
      (sees [.tryKw], tryStatement),
      (.and (sees [.checkedKw, .uncheckedKw]) (seesAt 1 [.lBrace]),
        node .checkedStmt (.take ++ .call .block)),
      (sees [.constKw], node .localDeclStmt (.take ++ variableDeclaration ++ semicolon)),
      (.and (.word "yield") (seesAt 1 [.returnKw, .breakKw]), yieldStatement),
      (sees [.rBrace, .rParen, .rBracket], node .error (.complain .strayCloser ++ .take)),
      (.look View.startsLocalFunction, .call .member),
      (localDeclaration, node .localDeclStmt (variableDeclaration ++ semicolon))]
    (node .exprStmt (expression ++ semicolon))

end Lintel.Grammar.Rule
