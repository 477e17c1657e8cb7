import Lintel.Edit.Basic
import Lintel.Syntax.Search

namespace Lintel

inductive Target where
  | node (z : Zipper)
  | token (z : Zipper)
  | children (parent : Zipper) (first stop : Nat)
  | after (z : Zipper)

inductive Unresolved where
  | pastEnd | noNode | emptyRange | splitsToken | notSiblings | noToken | noAnchor
  deriving DecidableEq

namespace Unresolved

def message : Unresolved → String
  | pastEnd => "range is past the end of the tree"
  | noNode => "no node of the expected kind spans the range"
  | emptyRange => "empty replacement range"
  | splitsToken => "range splits a token"
  | notSiblings => "range does not cover whole siblings"
  | noToken => "no token of the expected kind spans the range"
  | noAnchor => "anchor token not found"

end Unresolved

namespace Part

def lastIndex? (p : Zipper → Bool) (zs : List Zipper) : Option Nat :=
  ((zs.zipIdx.filter (fun x => p x.1)).getLast?).map (·.2)

def resolveNode (root : Tree) (span : Span) (kind : Kind) : Except Unresolved Target :=
  match Zipper.nodeAt? root span kind with
  | some n => .ok (.node n)
  | none => .error .noNode

def resolveTokens (root : Tree) (span : Span) : Except Unresolved Target :=
  if span.isEmpty then .error .emptyRange
  else
    let z := Zipper.covering root span
    if z.isToken then
      if z.span == span then .ok (.token z) else .error .splitsToken
    else if z.span == span && !z.above.isEmpty then .ok (.node z)
    else
      match lastIndex? (fun c => c.start == span.start) z.children,
        lastIndex? (fun c => c.span.stop == span.stop) z.children with
      | some first, some last =>
        if first ≤ last then .ok (.children z first (last + 1)) else .error .notSiblings
      | _, _ => .error .notSiblings

def resolveToken (root : Tree) (span : Span) (kind : Kind) : Except Unresolved Target :=
  let z := Zipper.covering root span
  if z.isToken && z.kind == kind && z.span == span then .ok (.token z) else .error .noToken

def resolveAnchor (root : Tree) (offset : Nat) (kind : Kind) : Except Unresolved Target :=
  match Zipper.tokenLeftOf root offset with
  | some z => if z.kind == kind && z.span.stop == offset then .ok (.after z) else .error .noAnchor
  | none => .error .noAnchor

def resolve (root : Tree) (p : Part) (shift : Nat) : Except Unresolved Target :=
  let span := p.span.shift shift
  if root.size < span.stop then .error .pastEnd
  else
    match p.change with
    | .replaceNode kind _ => resolveNode root span kind
    | .replaceTokens _ => resolveTokens root span
    | .removeToken kind _ => resolveToken root span kind
    | .insertAfter anchor _ => resolveAnchor root span.start anchor

end Part

end Lintel
