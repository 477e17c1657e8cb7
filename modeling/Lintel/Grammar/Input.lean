import Lintel.Syntax.Token

/-!
What the grammar sees of a text: its significant tokens. The trivia between them is kept aside; of it
the grammar learns only whether a closing angle touches the angle after it.
-/

namespace Lintel

structure Item extends Token where
  /-- A closing angle, and right after it one more or one with an equals sign. -/
  joined : Bool := false
  deriving DecidableEq, Inhabited

structure Group where
  before : List Token
  token : Token
  deriving DecidableEq

namespace Group

def split : List Token → List Group × List Token
  | [] => ([], [])
  | t :: ts =>
    let (groups, trailing) := split ts
    if t.isTrivia then
      match groups with
      | [] => ([], t :: trailing)
      | g :: gs => ({ g with before := t :: g.before } :: gs, trailing)
    else (⟨[], t⟩ :: groups, trailing)

def joins (t : Token) (next : Option Group) : Bool :=
  t.kind == .gt &&
    next.any (fun g => g.before.isEmpty && (g.token.kind == .gt || g.token.kind == .gtEq))

def items : List Group → List Item
  | [] => []
  | g :: gs => { g.token with joined := joins g.token gs.head? } :: items gs

def flatten (groups : List Group) : List Token :=
  groups.flatMap (fun g => g.before ++ [g.token])

theorem flatten_split (ts : List Token) : flatten (split ts).1 ++ (split ts).2 = ts := by
  induction ts with
  | nil => rfl
  | cons t ts ih =>
    simp only [split]
    split
    · split
      · rename_i h
        rw [h] at ih
        simpa [flatten] using ih
      · rename_i g gs h
        rw [h] at ih
        simpa [flatten] using ih
    · simpa [flatten] using ih

end Group

end Lintel
