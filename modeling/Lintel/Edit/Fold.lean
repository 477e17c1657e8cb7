import Lintel.Edit.Resolve

namespace Lintel

namespace Zipper

def splice? (z : Zipper) (ts : List Tree) : Option Tree :=
  match z.above with
  | [] => none
  | f :: fs => some (plug (f.fillMany ts) fs)

def insertAfter? (z : Zipper) (ts : List Tree) : Option Tree :=
  z.splice? (z.focus :: ts)

def spliceChildren (z : Zipper) (first stop : Nat) (ts : List Tree) : Tree :=
  z.replace (.node z.kind (z.focus.children.take first ++ ts ++ z.focus.children.drop stop))

end Zipper

/-- Whether two texts side by side are read as the two tokens they are. -/
def staysApart (left right : Text) : Bool :=
  let lexemes := lex (left ++ right)
  lexemes.all (·.fault.isNone) && lexemes.map (·.text) == [left, right]

namespace Zipper

def removalJoins (z : Zipper) : Bool :=
  match z.prevToken?, z.nextToken? with
  | some l, some r => !l.isTrivia && !r.isTrivia && !staysApart l.text r.text
  | _, _ => false

def removeToken? (z : Zipper) (unwrap : Bool) : Option (Tree × Text) :=
  let left : List Tree := if z.removalJoins then [.token .whitespace [' ']] else []
  match z.above with
  | [] => none
  | f :: fs =>
    let remaining := f.left.reverse ++ left ++ f.right
    let dissolves := unwrap && remaining.all (fun t => t.isNode || t.isTrivia)
    let tree :=
      match fs with
      | g :: gs =>
        if dissolves then plug (g.fillMany remaining) gs
        else plug (.node f.kind remaining) fs
      | [] => .node f.kind remaining
    some (tree, Tree.textAll left)

end Zipper

def Part.fold (p : Part) (target : Target) : Option (Tree × Text) :=
  match p.change, target with
  | .replaceNode _ t, .node z => some (z.replace t, t.text)
  | .replaceTokens ts, .node z | .replaceTokens ts, .token z =>
    (z.splice? ts).map (fun t => (t, Tree.textAll ts))
  | .replaceTokens ts, .children z first stop =>
    some (z.spliceChildren first stop ts, Tree.textAll ts)
  | .removeToken _ unwrap, .token z => z.removeToken? unwrap
  | .insertAfter _ ts, .after z => (z.insertAfter? ts).map (fun t => (t, Tree.textAll ts))
  | _, _ => none

end Lintel
