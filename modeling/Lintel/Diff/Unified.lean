import Lintel.Diff.Compact
import Lintel.Diff.Script

namespace Lintel.Diff

def context : Nat := 3

def shortenFirst : List Operation → List Operation
  | [] => []
  | o :: os =>
    if o.tag == .equal then
      let cut := o.newLength - context
      ((o.moveDown cut).resize (· - cut)) :: os
    else o :: os

def shortenLast : List Operation → List Operation
  | [] => []
  | [o] => if o.tag == .equal then [o.resize (min context)] else [o]
  | o :: os => o :: shortenLast os

def group : List Operation → List Operation → List (List Operation)
  | pending, [] =>
    match pending with
    | [] => []
    | [o] => if o.tag == .equal then [] else [[o]]
    | _ => [pending.reverse]
  | pending, o :: os =>
    if o.tag == .equal && o.newLength > 2 * context then
      let cut := o.newLength - context
      (o.resize (fun _ => context) :: pending).reverse ::
        group [(o.moveDown cut).resize (· - cut)] os
    else group (o :: pending) os

def changes (old new : List Text) (o : Operation) : List (Char × Text) :=
  let was := stretch old o.oldStart o.oldLength
  let is := stretch new o.newStart o.newLength
  match o.tag with
  | .equal => was.map (fun l => (' ', l))
  | .delete => was.map (fun l => ('-', l))
  | .insert => is.map (fun l => ('+', l))
  | .replace => was.map (fun l => ('-', l)) ++ is.map (fun l => ('+', l))

def renderLine (l : Char × Text) : Text :=
  l.1 :: (if l.2.getLast? == some '\n' then l.2 else l.2 ++ ['\n'])

def renderGroup (old new : List Text) (os : List Operation) : Text :=
  match os with
  | [] => []
  | first :: _ =>
    let oldLength := os.foldr (·.oldLength + ·) 0
    let newLength := os.foldr (·.newLength + ·) 0
    s!"@@ -{first.oldStart + 1},{oldLength} +{first.newStart + 1},{newLength} @@\n".toList ++
      (os.flatMap (changes old new)).flatMap renderLine

def operations (old new : List Text) : List Operation :=
  compact old new (script (old.length + new.length + 1) 0 0 old new)

def unified (a b : Text) (label : String) : Text :=
  if a == b then []
  else
    let old := a.linesWithEnds
    let new := b.linesWithEnds
    let groups := group [] (shortenLast (shortenFirst (operations old new)))
    s!"--- {label}\n+++ {label} (fixed)\n".toList ++ groups.flatMap (renderGroup old new)

end Lintel.Diff
