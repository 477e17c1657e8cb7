import Lintel.Syntax.Zipper

namespace Lintel

namespace Zipper

mutual

def coverOf (s : Span) (above : List Frame) (start : Nat) : Tree → Zipper
  | .token k t => ⟨.token k t, above⟩
  | .node k cs => (coverAll s k above [] start cs).getD ⟨.node k cs, above⟩

def coverAll (s : Span) (kind : Kind) (above : List Frame) (left : List Tree) (start : Nat) :
    List Tree → Option Zipper
  | [] => none
  | c :: cs =>
    let stop := start + c.size
    let here :=
      if (⟨start, c.size⟩ : Span).contains s then
        some (coverOf s (⟨kind, left, cs⟩ :: above) start c)
      else none
    match cs with
    | [] => here
    | d :: _ =>
      if stop ≤ s.start then
        if stop < s.stop || stop + d.size ≤ s.start then
          coverAll s kind above (c :: left) stop cs
        else here
      else here

end

def covering (root : Tree) (s : Span) : Zipper :=
  coverOf s [] 0 root

mutual

/-- The first token whose span has a property. The property is one that an element has only if it holds
a token that has it. -/
def seekIn (p : Span → Bool) (above : List Frame) (start : Nat) : Tree → Option Zipper
  | .token k t => if p ⟨start, t.size⟩ then some ⟨.token k t, above⟩ else none
  | .node k cs => seekAll p k above [] start cs

def seekAll (p : Span → Bool) (kind : Kind) (above : List Frame) (left : List Tree) (start : Nat) :
    List Tree → Option Zipper
  | [] => none
  | c :: cs =>
    if p ⟨start, c.size⟩ then seekIn p (⟨kind, left, cs⟩ :: above) start c
    else seekAll p kind above (c :: left) (start + c.size) cs

end

/-- The token that ends at an offset or goes on over it, and the one that starts there or began
before; empty tokens are passed over. -/
def tokensAt (root : Tree) (offset : Nat) : Option Zipper × Option Zipper :=
  (seekIn (fun s => s.start < offset && offset ≤ s.stop) [] 0 root,
    seekIn (fun s => s.start ≤ offset && offset < s.stop) [] 0 root)

def tokenLeftOf (root : Tree) (offset : Nat) : Option Zipper :=
  let (l, r) := tokensAt root offset
  l.or r

def tokenRightOf (root : Tree) (offset : Nat) : Option Zipper :=
  let (l, r) := tokensAt root offset
  r.or l

def nodeAt? (root : Tree) (s : Span) (kind : Kind) : Option Zipper :=
  let z := covering root s
  let nodes := if z.isToken then z.parents else z.ancestors
  (nodes.takeWhile (fun n => n.span == s)).find? (fun n => n.kind == kind)

def findNode (root : Tree) (kind : Kind) (s : Span) : Option Zipper :=
  (ofRoot root).preorder.find? (fun z => z.isNode && z.kind == kind && z.span == s)

end Zipper

end Lintel
