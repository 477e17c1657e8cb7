import Lintel.Rule
import Lintel.Syntax.Search
import Lintel.Syntax.Trivia

namespace Lintel.KeywordSpacing

def id : String := "SA1000"

def kinds : List Kind := [
  .awaitKw, .caseKw, .catchKw, .checkedKw, .defaultKw, .fixedKw, .forKw, .foreachKw, .fromKw, .groupKw,
  .ifKw, .inKw, .intoKw, .joinKw, .letKw, .lockKw, .nameofKw, .newKw, .orderbyKw, .returnKw, .selectKw,
  .sizeofKw, .stackallocKw, .switchKw, .throwKw, .typeofKw, .uncheckedKw, .usingKw, .whereKw, .whileKw,
  .yieldKw]

inductive Spacing where
  | required | disallowed
  deriving DecidableEq

def spacing? (keyword : Kind) (parent next : Option Kind) : Option Spacing :=
  match keyword with
  | .checkedKw | .uncheckedKw => some (if parent == some .checkedStmt then .required else .disallowed)
  | .defaultKw => if parent == some .defaultExpr then some .disallowed else none
  | .nameofKw | .sizeofKw | .typeofKw => some .disallowed
  | .returnKw | .throwKw => some (if next == some .semicolon then .disallowed else .required)
  | .newKw =>
    if next == some .lBracket then none
    else some (if next == some .lParen then .disallowed else .required)
  | .stackallocKw => if next == some .lBracket then none else some .required
  | _ => some .required

def expected? (keyword : Zipper) : Option Spacing :=
  spacing? keyword.kind (keyword.up?.map (·.kind)) (keyword.nextSignificant?.map (·.kind))

def gap (keyword : Zipper) : List Zipper :=
  keyword.followingWhile (·.isTrivia)

/-- The blanks and line ends of a gap; a line end counts as a space. -/
def spaces (gap : List Zipper) : List Zipper :=
  gap.filter (fun z => z.kind matches .whitespace | .newline)

def endsLine (z : Zipper) : Bool :=
  z.kind matches .lineComment | .docComment

def spanOf? (zs : List Zipper) : Option Span := do
  return (← zs.head?).span.cover (← zs.getLast?).span

def finding (keyword : Zipper) (span : Span) (negation : String) : Finding :=
  { rule := id, span, args := [keyword.text, negation.toList, "followed".toList]
    secondary := [keyword.span] }

def check (keyword : Zipper) : Verdict :=
  if keyword.isNode || keyword.nextToken?.isNone then .notApplicable
  else
    match expected? keyword, spanOf? (spaces (gap keyword)) with
    | none, _ => .notApplicable
    | some .required, none => .violations [finding keyword ⟨keyword.span.stop, 0⟩ ""]
    | some .disallowed, some span => .violations [finding keyword span " not"]
    | _, _ => .clean

def keywordOf? (root : Tree) (span : Span) : Option Zipper :=
  let token :=
    if span.isEmpty then (Zipper.tokenLeftOf root span.start).filter (fun z => z.span.stop == span.start)
    else (Zipper.tokenRightOf root span.start).bind (·.prevSignificant?)
  token.filter (·.kind.isKeyword)

def refuse (reason : String) : Except FixRefusal Edit :=
  .error (.notApplicable id reason)

def fix (root : Tree) (f : Finding) : Except FixRefusal Edit :=
  let edit : Edit := { finding := f }
  if root.size < f.span.start then
    .error (.abort (.crash (some s!"Bad offset: range 0..{root.size} offset {f.span.start}")))
  else
    match keywordOf? root f.span with
    | none => refuse "keyword not found"
    | some keyword =>
      let gap := gap keyword
      if f.span.isEmpty then
        if (spaces gap).isEmpty then .ok (edit.insertAfter keyword [.token .whitespace [' ']])
        else refuse "spacing changed since the check"
      else if spanOf? (spaces gap) != some f.span then refuse "spacing changed since the check"
      else if gap.any endsLine then
        refuse "a line comment follows the keyword"
      else if gap.any (fun z => z.kind == .directive) then
        refuse "a preprocessor directive must stay on its own line"
      else .ok ((spaces gap).foldl Edit.removeToken edit)

def rule : Rule :=
  { id
    name := "KeywordsMustBeSpacedCorrectly"
    message := "The keyword '\x7b0\x7d' must\x7b1\x7d be \x7b2\x7d by a space"
    kinds
    check := fun _ z => .ok (check z)
    fix? := some fix }

end Lintel.KeywordSpacing
