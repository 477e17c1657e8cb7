import Lintel.Syntax.Zipper
import Lintel.Text.Lines

/-!
The trivia that belongs to a token. A token owns the trivia after it up to the end of its line, and the
rest of the trivia before it.
-/

namespace Lintel

inductive TriviaKind where
  | whitespace | singleLineComment | multiLineComment | endOfLine | other
  deriving DecidableEq

namespace TriviaKind

def ofKind? : Kind → Option TriviaKind
  | .whitespace => some whitespace
  | .newline => some endOfLine
  | .lineComment | .docComment => some singleLineComment
  | .blockComment => some multiLineComment
  | .directive => some other
  | _ => none

def isComment : TriviaKind → Bool
  | singleLineComment | multiLineComment => true
  | _ => false

def name : TriviaKind → String
  | whitespace => "Whitespace"
  | singleLineComment => "SingleLineComment"
  | multiLineComment => "MultiLineComment"
  | endOfLine => "EndOfLine"
  | other => "Other"

end TriviaKind

namespace Zipper

def triviaBefore (z : Zipper) : List Zipper × Bool :=
  ((z.precedingWhile (·.isTrivia)).reverse, (walkTo? prevToken? (!·.isTrivia) z.reach z).isSome)

def dropLine : List Zipper → List Zipper
  | [] => []
  | z :: zs => if z.kind == .newline then zs else dropLine zs

def takeLine : List Zipper → List Zipper
  | [] => []
  | z :: zs => if z.kind == .newline then [z] else z :: takeLine zs

def leading (z : Zipper) : List Zipper :=
  let (run, owned) := z.triviaBefore
  if owned then dropLine run else run

def trailing (z : Zipper) : List Zipper :=
  takeLine (z.followingWhile (·.isTrivia))

def nextSignificant? (z : Zipper) : Option Zipper :=
  walkTo? nextToken? (!·.isTrivia) z.reach z

def prevSignificant? (z : Zipper) : Option Zipper :=
  walkTo? prevToken? (!·.isTrivia) z.reach z

def fullSpan (z : Zipper) : Span :=
  .between ((z.leading.head?).elim z.start (·.start))
    ((z.trailing.getLast?).elim z.span.stop (·.span.stop))

def firstSignificant? (z : Zipper) : Option Zipper :=
  z.tokens.find? (!·.isTrivia)

/-- The last significant token of a node, as far as stepping back from its last token finds it. -/
def lastSignificant? (z : Zipper) : Option Zipper := do
  let last ← z.lastToken?
  if last.isTrivia then
    let t ← last.prevSignificant?
    if z.span.contains t.span then some t else none
  else some last

end Zipper

namespace Documentation

/-- The lines of a delimited comment without the stars they start with; the first line keeps its. -/
def withoutStars : List Text → List Text
  | [] => []
  | first :: rest =>
    first :: rest.map fun line =>
      match line.trimStart with
      | '*' :: t => t
      | _ => line

/-- The text inside a delimited documentation comment; one with nothing inside is plain. -/
def delimitedBody? (t : Text) : Option Text := do
  let body ← Text.strip? ['/', '*', '*'] t
  match body with
  | '/' :: _ => none
  | _ =>
    let body := if ['*', '/'].isSuffixOf body then body.take (body.length - 2) else body
    return Text.joinLines (withoutStars (Text.lines body))

def dropStrokes : Text → Text
  | '/' :: '/' :: '/' :: t => dropStrokes t
  | t => t

def body? (z : Zipper) : Option Text :=
  match z.kind with
  | .docComment => some (dropStrokes z.text)
  | .blockComment => delimitedBody? z.text
  | _ => none

def isDocumentation (z : Zipper) : Bool :=
  (body? z).isSome

def textOf? (token : Zipper) : Option Text :=
  match token.leading.filterMap body? with
  | [] => none
  | parts => some (Text.joinLines parts)

end Documentation

end Lintel
