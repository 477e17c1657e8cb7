import Lintel.Syntax.Tree

namespace Lintel

/-- One step from a node to one of its children: what stands to its left, nearest first, and to its
right. -/
structure Frame where
  kind : Kind
  left : List Tree
  right : List Tree

structure Zipper where
  focus : Tree
  above : List Frame

namespace Frame

def fill (f : Frame) (t : Tree) : Tree :=
  .node f.kind (f.left.reverse ++ t :: f.right)

def fillMany (f : Frame) (ts : List Tree) : Tree :=
  .node f.kind (f.left.reverse ++ ts ++ f.right)

end Frame

namespace Zipper

def ofRoot (t : Tree) : Zipper :=
  ⟨t, []⟩

def kind (z : Zipper) : Kind :=
  z.focus.kind

def text (z : Zipper) : Text :=
  z.focus.text

def start (z : Zipper) : Nat :=
  z.above.foldr (fun f n => Tree.sizeAll f.left + n) 0

def span (z : Zipper) : Span :=
  ⟨z.start, z.focus.size⟩

def isToken (z : Zipper) : Bool :=
  z.focus.isToken

def isNode (z : Zipper) : Bool :=
  z.focus.isNode

def isTrivia (z : Zipper) : Bool :=
  z.focus.isTrivia

def up? (z : Zipper) : Option Zipper :=
  match z.above with
  | [] => none
  | f :: fs => some ⟨f.fill z.focus, fs⟩

def plug (t : Tree) : List Frame → Tree
  | [] => t
  | f :: fs => plug (f.fill t) fs

def root (z : Zipper) : Tree :=
  plug z.focus z.above

def parentsOf (t : Tree) : List Frame → List Zipper
  | [] => []
  | f :: fs => ⟨f.fill t, fs⟩ :: parentsOf (f.fill t) fs

def parents (z : Zipper) : List Zipper :=
  parentsOf z.focus z.above

def ancestors (z : Zipper) : List Zipper :=
  z :: z.parents

def siblings (kind : Kind) (above : List Frame) (left : List Tree) : List Tree → List Zipper
  | [] => []
  | c :: cs => ⟨c, ⟨kind, left, cs⟩ :: above⟩ :: siblings kind above (c :: left) cs

def children (z : Zipper) : List Zipper :=
  match z.focus with
  | .token _ _ => []
  | .node k cs => siblings k z.above [] cs

mutual

def preorderOf (above : List Frame) : Tree → List Zipper
  | .token k t => [⟨.token k t, above⟩]
  | .node k cs => ⟨.node k cs, above⟩ :: preorderAll k above [] cs

def preorderAll (kind : Kind) (above : List Frame) (left : List Tree) : List Tree → List Zipper
  | [] => []
  | c :: cs => preorderOf (⟨kind, left, cs⟩ :: above) c ++ preorderAll kind above (c :: left) cs

end

def preorder (z : Zipper) : List Zipper :=
  preorderOf z.above z.focus

def tokens (z : Zipper) : List Zipper :=
  z.preorder.filter (·.isToken)

mutual

/-- The first token, looking only at first children. -/
def firstTokenOf (above : List Frame) : Tree → Option Zipper
  | .token k t => some ⟨.token k t, above⟩
  | .node k cs => firstTokenAll k above cs

def firstTokenAll (kind : Kind) (above : List Frame) : List Tree → Option Zipper
  | [] => none
  | c :: cs => firstTokenOf (⟨kind, [], cs⟩ :: above) c

end

mutual

def lastTokenOf (above : List Frame) : Tree → Option Zipper
  | .token k t => some ⟨.token k t, above⟩
  | .node k cs => lastTokenAll k above [] cs

def lastTokenAll (kind : Kind) (above : List Frame) (left : List Tree) : List Tree → Option Zipper
  | [] => none
  | c :: cs =>
    match cs with
    | [] => lastTokenOf (⟨kind, left, []⟩ :: above) c
    | _ :: _ => lastTokenAll kind above (c :: left) cs

end

def firstToken? (z : Zipper) : Option Zipper :=
  firstTokenOf z.above z.focus

def lastToken? (z : Zipper) : Option Zipper :=
  lastTokenOf z.above z.focus

def nextFrom (t : Tree) : List Frame → Option Zipper
  | [] => none
  | f :: fs =>
    match f.right with
    | [] => nextFrom (f.fill t) fs
    | r :: rs => some ⟨r, ⟨f.kind, t :: f.left, rs⟩ :: fs⟩

def prevFrom (t : Tree) : List Frame → Option Zipper
  | [] => none
  | f :: fs =>
    match f.left with
    | [] => prevFrom (f.fill t) fs
    | l :: ls => some ⟨l, ⟨f.kind, ls, t :: f.right⟩ :: fs⟩

/-- The first token of the element right after; none if that element starts with an empty node. -/
def nextToken? (z : Zipper) : Option Zipper :=
  (nextFrom z.focus z.above).bind firstToken?

def prevToken? (z : Zipper) : Option Zipper :=
  (prevFrom z.focus z.above).bind lastToken?

def walk (step : Zipper → Option Zipper) : Nat → Zipper → List Zipper
  | 0, _ => []
  | n + 1, z =>
    match step z with
    | none => []
    | some y => y :: walk step n y

def walkWhile (step : Zipper → Option Zipper) (p : Zipper → Bool) : Nat → Zipper → List Zipper
  | 0, _ => []
  | n + 1, z =>
    match step z with
    | none => []
    | some y => if p y then y :: walkWhile step p n y else []

def walkTo? (step : Zipper → Option Zipper) (p : Zipper → Bool) : Nat → Zipper → Option Zipper
  | 0, _ => none
  | n + 1, z =>
    match step z with
    | none => none
    | some y => if p y then some y else walkTo? step p n y

theorem walkWhile_eq (step : Zipper → Option Zipper) (p : Zipper → Bool) (n : Nat) (z : Zipper) :
    walkWhile step p n z = (walk step n z).takeWhile p := by
  induction n generalizing z with
  | zero => rfl
  | succ n ih =>
    rw [walkWhile, walk]
    cases step z with
    | none => rfl
    | some y => cases h : p y <;> simp [h, ih]

theorem walkTo?_eq (step : Zipper → Option Zipper) (p : Zipper → Bool) (n : Nat) (z : Zipper) :
    walkTo? step p n z = (walk step n z).find? p := by
  induction n generalizing z with
  | zero => rfl
  | succ n ih =>
    rw [walkTo?, walk]
    cases step z with
    | none => rfl
    | some y => cases h : p y <;> simp [h, ih]

def reach (z : Zipper) : Nat :=
  z.root.tokens.length

def following (z : Zipper) : List Zipper :=
  walk nextToken? z.reach z

def preceding (z : Zipper) : List Zipper :=
  walk prevToken? z.reach z

def followingWhile (z : Zipper) (p : Zipper → Bool) : List Zipper :=
  walkWhile nextToken? p z.reach z

def precedingWhile (z : Zipper) (p : Zipper → Bool) : List Zipper :=
  walkWhile prevToken? p z.reach z

theorem followingWhile_eq (z : Zipper) (p : Zipper → Bool) :
    z.followingWhile p = z.following.takeWhile p :=
  walkWhile_eq nextToken? p z.reach z

theorem precedingWhile_eq (z : Zipper) (p : Zipper → Bool) :
    z.precedingWhile p = z.preceding.takeWhile p :=
  walkWhile_eq prevToken? p z.reach z

def replace (z : Zipper) (t : Tree) : Tree :=
  plug t z.above

def textBefore : List Frame → Text
  | [] => []
  | f :: fs => textBefore fs ++ Tree.textAll f.left.reverse

def textAfter : List Frame → Text
  | [] => []
  | f :: fs => Tree.textAll f.right ++ textAfter fs

theorem text_plug (t : Tree) (fs : List Frame) :
    (plug t fs).text = textBefore fs ++ t.text ++ textAfter fs := by
  induction fs generalizing t with
  | nil => simp [plug, textBefore, textAfter]
  | cons f fs ih => simp [plug, textBefore, textAfter, ih, Frame.fill, Tree.text, Tree.textAll]

theorem text_root (z : Zipper) : z.root.text = textBefore z.above ++ z.focus.text ++ textAfter z.above :=
  text_plug z.focus z.above

theorem text_replace (z : Zipper) (t : Tree) :
    (z.replace t).text = textBefore z.above ++ t.text ++ textAfter z.above :=
  text_plug t z.above

end Zipper

end Lintel
