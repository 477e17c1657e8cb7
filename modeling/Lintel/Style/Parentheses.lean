import Lintel.Rule
import Lintel.Syntax.Search
import Lintel.Syntax.Trivia

namespace Lintel.Parentheses

def id : String := "SA1119"

def markId : String := "SA1119_p"

def groupsOperators : Kind → Bool
  | .binaryExpr | .assignmentExpr | .prefixUnaryExpr | .postfixUnaryExpr | .castExpr | .conditionalExpr
  | .isExpr | .asExpr | .simpleLambdaExpr | .parenLambdaExpr | .arrayCreationExpr
  | .implicitArrayCreationExpr | .stackallocExpr | .coalesceExpr | .queryExpr | .awaitExpr => true
  | _ => false

def isFirstChild (z : Zipper) : Bool :=
  match z.above with
  | f :: _ => f.left.all (!·.isNode)
  | [] => false

def isLastChild (z : Zipper) : Bool :=
  match z.above with
  | f :: _ => f.right.all (!·.isNode)
  | [] => false

def isReceiver (z parent : Zipper) : Bool :=
  parent.kind matches .memberAccessExpr | .conditionalAccessExpr | .elementAccessExpr &&
    isFirstChild z

def isStandaloneReceiver (inner : Zipper) : Bool :=
  match inner.kind with
  | .literalExpr =>
    !inner.firstToken?.any (fun t => t.kind matches .intLiteral | .realLiteral)
  | .defaultLiteralExpr | .implicitObjectCreationExpr | .initializerExpr => false
  | _ => true

def outermost (z : Zipper) : Zipper :=
  ((z.ancestors.takeWhile (·.kind == .parenExpr)).getLast?).getD z

/-- Operators need no parentheses where nothing else binds. -/
def isUnneededGroup (z : Zipper) : Bool :=
  let outer := outermost z
  match outer.up? with
  | none => false
  | some context =>
    match context.kind with
    | .checkedExpr => true
    | .assignmentExpr => isLastChild outer
    | k => !k.isExpression

def isUnnecessary (z inner : Zipper) : Bool :=
  match z.up? with
  | none => false
  | some parent =>
    if parent.kind == .parenExpr && z.ancestors.any (·.kind == .constructorInitializer) then false
    else if groupsOperators inner.kind then isUnneededGroup z
    else if isReceiver z parent then
      inner.kind != .conditionalAccessExpr &&
        (parent.kind != .memberAccessExpr || isStandaloneReceiver inner)
    else true

def check (z : Zipper) : Verdict :=
  if z.isToken || z.kind != .parenExpr then .notApplicable
  else
    match z.openParen?, z.closeParen?, z.innerExpression? with
    | some l, some r, some inner =>
      if !inner.kind.isExpression then .notApplicable
      else if isUnnecessary z inner then
        .violations [
          { rule := id, span := z.span, secondary := [l.span, r.span] },
          { rule := markId, span := l.span, auxiliary := true },
          { rule := markId, span := r.span, auxiliary := true }]
      else .clean
    | _, _, _ => .notApplicable

def isPadding (z : Zipper) : Bool :=
  z.kind matches .whitespace | .newline

/-- Blanks and line ends just inside the parentheses. Those that end a comment line are kept. -/
def padding (l r : Zipper) : List Zipper :=
  let after := l.followingWhile isPadding
  let before := r.precedingWhile isPadding
  let endsComment := (before.getLast?.bind (·.prevToken?)).any fun z =>
    z.kind matches .lineComment | .docComment | .directive
  if endsComment then after else after ++ before.reverse

def fix (root : Tree) (f : Finding) : Except FixRefusal Edit :=
  let node := if root.size < f.span.stop then none else Zipper.nodeAt? root f.span .parenExpr
  match node with
  | none => .error (.notApplicable id "parenthesized expression not found")
  | some z =>
    match z.openParen?, z.closeParen? with
    | some l, some r =>
      .ok ((((padding l r).foldl Edit.removeToken { finding := f }).removeDelimiter l).removeDelimiter r)
    | _, _ => .error (.notApplicable id "unbalanced parentheses")

def rule : Rule :=
  { id
    name := "StatementMustNotUseUnnecessaryParenthesis"
    message := "Statement must not use unnecessary parentheses"
    kinds := [.parenExpr]
    check := fun _ z => .ok (check z)
    fix? := some fix }

end Lintel.Parentheses
