import Lintel.Grammar.Statements

namespace Lintel.Grammar

namespace Rule

open Lintel.Grammar.Action Lintel.Grammar.Cond

def usingDirective : Rule :=
  node .usingDirective
    (.take ++ eat .staticKw ++
      when (.and (sees [.ident]) (seesAt 1 [.eq])) (.take ++ .take) ++ declaredType ++ semicolon)

def namespaceMember : Rule :=
  choose
    [(sees [.usingKw], .call .usingDirective), (sees [.namespaceKw], .call .namespaceDecl)]
    (.call .member)

def namespaceDecl : Rule :=
  .scope (.take ++ declaredType ++
    .branch (sees [.semicolon])
      (.wrap .fileScopedNamespaceDecl (.take ++ many [] namespaceMember))
      (.wrap .namespaceDecl
        (expect .lBrace ++ many [.rBrace] namespaceMember ++ expect .rBrace)))

def attributes : Rule :=
  .loop (sees [.lBracket])
    (node .attributeList
      (.take ++
        when (.and (seesAt 1 [.colon]) (sees [.ident, .returnKw])) (.take ++ .take) ++
        list [.rBracket]
          (node .attr (declaredType ++ when (sees [.lParen]) (.call .argumentList))) ++
        expect .rBracket))

def isPlainModifier (k : Kind) : Bool :=
  k.isModifier && k != .asyncKw && k != .partialKw

def asyncModifier : Cond :=
  .and (.word "async") (.ahead 1 (fun k => k == .ident || k.isPredefinedType))

def partialModifier : Cond :=
  .and (.word "partial") (seesAt 1 [.classKw, .structKw, .interfaceKw, .voidKw])

def modifiers : Rule :=
  .loop (.or (.ahead 0 isPlainModifier) (.or asyncModifier partialModifier))
    (choose [(asyncModifier, .takeAs .asyncKw), (partialModifier, .takeAs .partialKw)] .take)

def baseList : Rule :=
  when (sees [.colon]) (node .baseList (.take ++ sepByComma declaredType))

def typeParametersFollow : Rule :=
  when (sees [.lt]) (.call .typeParameterList)

def typeDecl (k : Kind) : Rule :=
  .wrap k
    (.take ++ expect .ident ++ typeParametersFollow ++ baseList ++ .call .constraints ++
      expect .lBrace ++ many [.rBrace] (.call .member) ++ expect .rBrace ++ eat .semicolon)

def enumDecl : Rule :=
  .wrap .enumDecl
    (.take ++ expect .ident ++ baseList ++ expect .lBrace ++
      list [.rBrace]
        (node .enumMember (.call .attributes ++ expect .ident ++ equalsValue expression)) ++
      expect .rBrace ++ eat .semicolon)

def delegateDecl : Rule :=
  .wrap .delegateDecl
    (.take ++ declaredType ++ expect .ident ++ typeParametersFollow ++ .call .parameterList ++
      .call .constraints ++ semicolon)

def memberName : Rule :=
  .branch (sees [.thisKw]) .take
    (expect .ident ++
      .loop (.and (sees [.dot]) (seesAt 1 [.ident, .thisKw])) (.take ++ .take))

def arrowClause : Rule :=
  node .arrowExprClause (.take ++ expression)

def bodyOrSemicolon : Rule :=
  choose [(sees [.lBrace], .call .block), (sees [.fatArrow], arrowClause ++ semicolon)] semicolon

def initialValue : Rule :=
  .branch (sees [.lBrace]) (.call .initializer) expression

def eventDecl : Rule :=
  .branch (.look View.startsAccessorEvent)
    (.wrap .eventDecl (.take ++ declaredType ++ memberName ++ .call .accessorList))
    (.wrap .eventFieldDecl (.take ++ variableDeclaration ++ semicolon))

def destructorDecl : Rule :=
  .wrap .destructorDecl (.take ++ expect .ident ++ .call .parameterList ++ bodyOrSemicolon)

def constructorDecl : Rule :=
  .wrap .constructorDecl
    (.take ++ .call .parameterList ++
      when (sees [.colon])
        (node .constructorInitializer
          (.take ++
            .branch (sees [.baseKw, .thisKw]) .take
              (.complain (.missingWord "base" (some "this"))) ++
            .call .argumentList)) ++
      bodyOrSemicolon)

def methodRest : Rule :=
  .call .parameterList ++ .call .constraints ++ bodyOrSemicolon

def propertyBody : Rule :=
  .branch (sees [.fatArrow]) (arrowClause ++ semicolon)
    (.call .accessorList ++
      when (sees [.eq]) (node .equalsValueClause (.take ++ initialValue) ++ semicolon))

def isTyped (m : TypedMember) : Cond :=
  .look (fun v => v.typedMember == m)

def typedMember : Rule :=
  choose
    [(isTyped .indexer,
        .wrap .indexerDecl
          (declaredType ++ .take ++ .call .bracketedParameterList ++ propertyBody)),
      (isTyped .operator,
        .wrap .methodDecl
          (declaredType ++ .take ++ except (sees [.lParen]) .take ++ eat .gt ++ methodRest)),
      (isTyped .method,
        .wrap .methodDecl (declaredType ++ memberName ++ typeParametersFollow ++ methodRest)),
      (isTyped .property, .wrap .propertyDecl (declaredType ++ memberName ++ propertyBody)),
      (isTyped .explicitIndexer,
        .wrap .indexerDecl
          (declaredType ++ memberName ++ .call .bracketedParameterList ++ propertyBody))]
    (.wrap .fieldDecl (variableDeclaration ++ semicolon))

def member : Rule :=
  .scope (.call .attributes ++ modifiers ++
    choose
      [(sees [.classKw], typeDecl .classDecl),
        (sees [.structKw], typeDecl .structDecl),
        (sees [.interfaceKw], typeDecl .interfaceDecl),
        (sees [.enumKw], enumDecl),
        (sees [.delegateKw], delegateDecl),
        (sees [.eventKw], eventDecl),
        (sees [.tilde], destructorDecl),
        (sees [.implicitKw, .explicitKw],
          .wrap .methodDecl (.take ++ expect .operatorKw ++ declaredType ++ methodRest)),
        (.and (sees [.ident]) (seesAt 1 [.lParen]), constructorDecl),
        (.ahead 0 (fun k => k == .ident || k.isPredefinedType), typedMember)]
      (.wrap .error (.complain .noMember ++ except (sees [.rBrace]) .take)))

def accessorWords : List (Cond × Rule) :=
  [("get", Kind.getKw), ("set", .setKw), ("init", .initKw), ("add", .addKw), ("remove", .removeKw)].map
    fun w => (.word w.1, .takeAs w.2 ++ bodyOrSemicolon)

def accessorList : Rule :=
  node .accessorList
    (expect .lBrace ++
      many [.rBrace]
        (node .accessor
          (.call .attributes ++
            .loop (sees [.privateKw, .protectedKw, .internalKw, .readonlyKw]) .take ++
            choose accessorWords (.complain .missingAccessor ++ .take))) ++
      expect .rBrace)

def parameter : Rule :=
  node .parameter
    (.call .attributes ++ parameterModifiers ++ declaredType ++ expect .ident ++
      equalsValue expression)

def parameterList : Rule :=
  node .parameterList (expect .lParen ++ list [.rParen] parameter ++ expect .rParen)

def bracketedParameterList : Rule :=
  node .bracketedParameterList (expect .lBracket ++ list [.rBracket] parameter ++ expect .rBracket)

def typeParameterList : Rule :=
  node .typeParameterList
    (.take ++
      list [.gt]
        (node .typeParameter
          (.call .attributes ++ when (sees [.inKw, .outKw]) .take ++ expect .ident)) ++
      expect .gt)

def requirement : Rule :=
  choose
    [(sees [.classKw, .structKw], .take ++ eat .question),
      (sees [.newKw], .take ++ expect .lParen ++ expect .rParen)]
    declaredType

def constraints : Rule :=
  .loop (.and (.word "where") (seesAt 1 [.ident]))
    (node .constraintClause
      (.takeAs .whereKw ++ .take ++ expect .colon ++ sepByComma requirement))

/-- The bracket after a name gives the size of a buffer. -/
def declarator : Rule :=
  node .variableDeclarator
    (expect .ident ++
      when (sees [.lBracket])
        (node .bracketedArgumentList (.take ++ expression ++ expect .rBracket)) ++
      equalsValue initialValue)

def variableDeclarationRule : Rule :=
  node .variableDecl (declaredType ++ sepByComma declarator)

def compilationUnit : Rule :=
  many []
    (choose
      [(.and (sees [.usingKw]) (.not (.look View.startsUsingStatement)), .call .usingDirective),
        (sees [.namespaceKw], .call .namespaceDecl),
        (.look View.startsMember, .call .member)]
      (.call .statement))

end Rule

def rule : Symbol → Rule
  | .compilationUnit => Rule.compilationUnit
  | .usingDirective => Rule.usingDirective
  | .namespaceDecl => Rule.namespaceDecl
  | .member => Rule.member
  | .attributes => Rule.attributes
  | .parameterList => Rule.parameterList
  | .bracketedParameterList => Rule.bracketedParameterList
  | .typeParameterList => Rule.typeParameterList
  | .constraints => Rule.constraints
  | .accessorList => Rule.accessorList
  | .variableDeclaration => Rule.variableDeclarationRule
  | .block => Rule.block
  | .statement => Rule.statement
  | .embedded => Rule.embedded
  | .expression => Rule.expressionRule
  | .assignment => Rule.assignment
  | .conditional => Rule.conditional
  | .coalesce => Rule.coalesce
  | .binary level => Rule.binary level
  | .unary => Rule.unary
  | .suffixed => Rule.suffixed
  | .primary => Rule.primary
  | .pattern => Rule.pattern
  | .creation => Rule.creation
  | .initializer => Rule.initializer
  | .argumentList => Rule.argumentList
  | .bracketedArgumentList => Rule.bracketedArgumentList
  | .lambda => Rule.lambda
  | .query => Rule.query
  | .queryBody => Rule.queryBody
  | .type inExpression => Rule.type inExpression
  | .plainType => Rule.plainType
  | .typeArgumentList => Rule.typeArgumentList
  | .arrayRanks => Rule.arrayRanks

end Lintel.Grammar
