import Lintel.Pattern.CharSet
import Lintel.Text.Basic

namespace Lintel

structure Spot where
  before : Option Char
  rest : Text
  deriving DecidableEq

inductive Anchor where
  | textStart | textEnd | lineStart | lineEnd | wordEdge | noWordEdge
  deriving DecidableEq

namespace Anchor

def holds (s : Spot) : Anchor → Bool
  | textStart => s.before.isNone
  | textEnd => s.rest.isEmpty
  | lineStart => s.before.isNone || s.before == some '\n'
  | lineEnd => s.rest.isEmpty || s.rest.head? == some '\n'
  | wordEdge => s.before.any Letters.isWord != s.rest.head?.any Letters.isWord
  | noWordEdge => s.before.any Letters.isWord == s.rest.head?.any Letters.isWord

end Anchor

inductive Pattern where
  | empty
  | one (set : CharSet)
  | anchor (a : Anchor)
  | seq (p q : Pattern)
  | alt (p q : Pattern)
  | star (p : Pattern)
  deriving DecidableEq

namespace Spot

def distinct (ss : List Spot) : List Spot :=
  ss.eraseDups

def closure (step : Spot → List Spot) : Nat → List Spot → List Spot
  | 0, ss => ss
  | n + 1, ss => distinct (ss ++ closure step n (distinct (ss.flatMap step)))

def allFrom (before : Option Char) : Text → List Spot
  | [] => [⟨before, []⟩]
  | c :: cs => ⟨before, c :: cs⟩ :: allFrom (some c) cs

end Spot

namespace Pattern

def times (p : Pattern) : Nat → Pattern
  | 0 => empty
  | n + 1 => seq p (p.times n)

def upTo (p : Pattern) : Nat → Pattern
  | 0 => empty
  | n + 1 => alt empty (seq p (p.upTo n))

def ends : Pattern → Spot → List Spot
  | empty, s => [s]
  | one set, s =>
    match s.rest with
    | c :: cs => if set.mem c then [⟨some c, cs⟩] else []
    | [] => []
  | anchor a, s => if a.holds s then [s] else []
  | seq p q, s => Spot.distinct ((p.ends s).flatMap q.ends)
  | alt p q, s => Spot.distinct (p.ends s ++ q.ends s)
  | star p, s => Spot.closure p.ends (s.rest.length + 1) [s]

def occursIn (p : Pattern) (t : Text) : Bool :=
  (Spot.allFrom none t).any (fun s => !(p.ends s).isEmpty)

end Pattern

end Lintel
