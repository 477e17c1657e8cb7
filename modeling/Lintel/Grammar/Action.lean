import Lintel.Grammar.Fault
import Lintel.Grammar.Input
import Lintel.Grammar.Outline

/-!
A small language of parsing actions, and how they run. An action takes tokens from the input, records
faults and builds outlines; it never fails and never goes back.
-/

namespace Lintel.Grammar

structure View where
  rest : List Item
  queries : Nat := 0

namespace View

def kindAt (v : View) (n : Nat) : Kind :=
  (v.rest[n]?).elim .eof (·.kind)

def textAt (v : View) (n : Nat) : Text :=
  (v.rest[n]?).elim [] (·.text)

def isName (v : View) (n : Nat) (word : String) : Bool :=
  v.kindAt n == .ident && v.textAt n == word.toList

end View

inductive Cond where
  | ahead (n : Nat) (p : Kind → Bool)
  | word (w : String)
  | done
  | look (f : View → Bool)
  | not (c : Cond)
  | and (c d : Cond)
  | or (c d : Cond)

namespace Cond

def holds : Cond → View → Bool
  | ahead n p, v => p (v.kindAt n)
  | word w, v => v.isName 0 w
  | done, v => v.rest.isEmpty
  | look f, v => f v
  | not c, v => !c.holds v
  | and c d, v => c.holds v && d.holds v
  | or c d, v => c.holds v || d.holds v

end Cond

inductive Action (σ : Type) where
  | skip
  | take
  | takeAs (kind : Kind)
  | complain (fault : GrammarFault)
  | seq (a b : Action σ)
  /-- Runs an action with nothing built yet, after a gap. -/
  | scope (a : Action σ)
  | wrap (kind : Kind) (a : Action σ)
  | branch (c : Cond) (a b : Action σ)
  | loop (c : Cond) (a : Action σ)
  /-- Repeats an action with commas between; a strict loop sets aside an item that stops it at once. -/
  | commas (strict : Bool) (c : Cond) (a : Action σ)
  /-- Runs an action, and sets an item aside if it took none. -/
  | progress (a : Action σ)
  | inQuery (a : Action σ)
  | call (name : σ)

structure Complaint where
  fault : GrammarFault
  index : Nat
  deriving DecidableEq

/-- The state of a run. What was built in the scope and the complaints have the latest first. -/
structure State extends View where
  taken : Nat := 0
  built : List Outline := []
  complaints : List Complaint := []

namespace State

def take (s : State) : State :=
  match s.rest with
  | [] => s
  | i :: rest => { s with rest, taken := s.taken + 1, built := .token i.toToken :: s.built }

def takeAs (kind : Kind) (s : State) : State :=
  match s.rest with
  | [] => s
  | i :: rest => { s with rest, taken := s.taken + 1, built := .token ⟨kind, i.text⟩ :: s.built }

def complain (fault : GrammarFault) (s : State) : State :=
  { s with complaints := ⟨fault, s.taken⟩ :: s.complaints }

def enclose (f : State → State) (s : State) : State :=
  let t := f { s with built := [] }
  { t with built := t.built ++ .gap :: s.built }

def wrap (kind : Kind) (s : State) : State :=
  { s with built := [.node kind s.built.reverse] }

def setAside (before : Nat) (s : State) : State :=
  if s.taken == before && !s.rest.isEmpty then
    s.enclose fun t => ((t.complain (.stray (t.kindAt 0))).take).wrap .error
  else s

def repeatWhile (c : Cond) (f : State → State) : Nat → State → State
  | 0, s => s
  | n + 1, s => if c.holds s.toView then repeatWhile c f n (f s) else s

def repeatCommas (strict : Bool) (c : Cond) (f : State → State) : Nat → State → State
  | 0, s => s
  | n + 1, s =>
    if c.holds s.toView then
      let t := f s
      if t.kindAt 0 == .comma then repeatCommas strict c f n t.take
      else if strict then t.setAside s.taken else t
    else s

end State

namespace Action

variable {σ : Type}

def run (call : σ → State → State) : Action σ → State → State
  | skip, s => s
  | take, s => s.take
  | takeAs k, s => s.takeAs k
  | complain f, s => s.complain f
  | seq a b, s => b.run call (a.run call s)
  | scope a, s => s.enclose (a.run call)
  | wrap k a, s => (a.run call s).wrap k
  | branch c a b, s => if c.holds s.toView then a.run call s else b.run call s
  | loop c a, s => State.repeatWhile c (a.run call) s.rest.length s
  | commas strict c a, s => State.repeatCommas strict c (a.run call) s.rest.length s
  | progress a, s => (a.run call s).setAside s.taken
  | inQuery a, s => { a.run call { s with queries := s.queries + 1 } with queries := s.queries }
  | .call g, s => call g s

def runNamed (rule : σ → Action σ) : Nat → σ → State → State
  | 0, _, s => s
  | n + 1, g, s => (rule g).run (runNamed rule n) s

end Action

end Lintel.Grammar
