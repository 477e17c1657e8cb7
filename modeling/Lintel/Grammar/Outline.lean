import Lintel.Syntax.Tree

/-!
Outlines: trees over the significant tokens alone, with marks where trivia may stand. The outline of a
text does not depend on its trivia; weaving the trivia back in gives the lossless tree.
-/

namespace Lintel

inductive Outline where
  | token (t : Token)
  | gap
  | node (kind : Kind) (children : List Outline)
  deriving Inhabited

namespace Outline

mutual

def bare : Outline → List Tree
  | .token t => [.leaf t]
  | .gap => []
  | .node k cs => [.node k (bareAll cs)]

def bareAll : List Outline → List Tree
  | [] => []
  | c :: cs => bare c ++ bareAll cs

end

mutual

def tokens : Outline → List Token
  | .token t => [t]
  | .gap => []
  | .node _ cs => tokensAll cs

def tokensAll : List Outline → List Token
  | [] => []
  | c :: cs => tokens c ++ tokensAll cs

end

theorem tokensAll_append (cs ds : List Outline) : tokensAll (cs ++ ds) = tokensAll cs ++ tokensAll ds := by
  induction cs with
  | nil => rfl
  | cons c cs ih => simp [tokensAll, ih]

abbrev Gaps := List (List Token)

mutual

/-- Weaves trivia into an outline: the trivia before a token goes to the first gap since the token
before, or else right before the token. -/
def weave : Outline → Gaps → List Tree × Gaps
  | .token t, [] => ([.leaf t], [])
  | .token t, g :: gaps => (g.map .leaf ++ [.leaf t], gaps)
  | .gap, [] => ([], [])
  | .gap, g :: gaps => (g.map .leaf, [] :: gaps)
  | .node k cs, gaps =>
    let (ts, gaps) := weaveAll cs gaps
    ([.node k ts], gaps)

def weaveAll : List Outline → Gaps → List Tree × Gaps
  | [], gaps => ([], gaps)
  | c :: cs, gaps =>
    let (ts, gaps) := weave c gaps
    let (us, gaps) := weaveAll cs gaps
    (ts ++ us, gaps)

end

end Outline

end Lintel
