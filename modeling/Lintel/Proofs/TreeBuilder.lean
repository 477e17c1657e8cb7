import Lintel.Syntax.Parse

/-!
Making the tree of a text in one pass. A builder is told where nodes start and finish and refuses what makes
no sense; an assembly runs the grammar and hands every token to a builder as soon as its place is clear.
-/

namespace Lintel

structure Builder where
  opened : List (Kind × Nat) := []
  made : List Tree := []

namespace Builder

def token (b : Builder) (t : Token) : Builder :=
  { b with made := .leaf t :: b.made }

def tokens (b : Builder) (ts : List Token) : Builder :=
  ts.foldl token b

def checkpoint (b : Builder) : Nat :=
  b.made.length

/-- A checkpoint is stale when elements before it went into a node, or a node was opened after it. -/
def isValid (b : Builder) (place : Nat) : Bool :=
  place ≤ b.made.length && b.opened.head?.all (fun o => o.2 ≤ place)

def startAt? (b : Builder) (place : Nat) (k : Kind) : Option Builder :=
  if b.isValid place then some { b with opened := (k, place) :: b.opened } else none

def finishNode? (b : Builder) : Option Builder :=
  match b.opened with
  | [] => none
  | (k, place) :: opened =>
    let inside := b.made.length - place
    some { opened, made := .node k (b.made.take inside).reverse :: b.made.drop inside }

def finish? (b : Builder) : Option Tree :=
  match b.opened, b.made with
  | [], [.node k cs] => some (.node k cs)
  | _, _ => none

end Builder

namespace Grammar

/-- A run of the grammar that builds a tree. It has two places in the text: the next item that the grammar
sees, and the next token, trivia included, that the builder gets. -/
structure Assembly extends View where
  taken : Nat := 0
  pending : List Token
  builder : Builder

namespace Assembly

def flush (a : Assembly) : Assembly :=
  match a.rest with
  | [] => a
  | _ :: _ =>
    { a with
      pending := a.pending.dropWhile (·.isTrivia)
      builder := a.builder.tokens (a.pending.takeWhile (·.isTrivia)) }

def take (a : Assembly) (shown : Item → Token) : Assembly :=
  match a.rest with
  | [] => a
  | i :: rest =>
    { a.flush with
      rest
      taken := a.taken + 1
      pending := a.flush.pending.tail
      builder := a.flush.builder.token (shown i) }

def within (k : Kind) (place : Nat) (f : Assembly → Option Assembly) (a : Assembly) : Option Assembly := do
  let opened ← a.builder.startAt? place k
  let a ← f { a with builder := opened }
  let builder ← a.builder.finishNode?
  return { a with builder }

def setAside (before : Nat) (a : Assembly) : Option Assembly :=
  if a.taken == before && !a.rest.isEmpty then
    a.flush.within .error a.flush.builder.checkpoint fun a => some (a.take (·.toToken))
  else some a

def repeatWhile (c : Cond) (f : Assembly → Option Assembly) : Nat → Assembly → Option Assembly
  | 0, a => some a
  | n + 1, a => if c.holds a.toView then (f a).bind (repeatWhile c f n) else some a

def repeatCommas (strict : Bool) (c : Cond) (f : Assembly → Option Assembly) :
    Nat → Assembly → Option Assembly
  | 0, a => some a
  | n + 1, a =>
    if c.holds a.toView then
      (f a).bind fun b =>
        if b.kindAt 0 == .comma then repeatCommas strict c f n (b.take (·.toToken))
        else if strict then b.setAside a.taken else some b
    else some a

end Assembly

namespace Action

variable {σ : Type}

def assemble (call : σ → Nat → Assembly → Option Assembly) :
    Action σ → Nat → Assembly → Option Assembly
  | skip, _, a => some a
  | take, _, a => some (a.take (·.toToken))
  | takeAs k, _, a => some (a.take (fun i => ⟨k, i.text⟩))
  | complain _, _, a => some a
  | seq x y, place, a => (x.assemble call place a).bind (y.assemble call place)
  | scope x, _, a => x.assemble call a.flush.builder.checkpoint a.flush
  | wrap k x, place, a => a.within k place (x.assemble call place)
  | branch c x y, place, a =>
    if c.holds a.toView then x.assemble call place a else y.assemble call place a
  | loop c x, place, a => Assembly.repeatWhile c (x.assemble call place) a.rest.length a
  | commas strict c x, place, a =>
    Assembly.repeatCommas strict c (x.assemble call place) a.rest.length a
  | progress x, place, a => (x.assemble call place a).bind (·.setAside a.taken)
  | inQuery x, place, a =>
    (x.assemble call place { a with queries := a.queries + 1 }).map
      fun b => { b with queries := a.queries }
  | .call g, place, a => call g place a

def assembleNamed (rule : σ → Action σ) : Nat → σ → Nat → Assembly → Option Assembly
  | 0, _, _, a => some a
  | n + 1, g, place, a => (rule g).assemble (assembleNamed rule n) place a

end Action

def assembled? (tokens : List Token) : Option Tree := do
  let items := Group.items (Group.split tokens).1
  let builder ← Builder.startAt? {} 0 .compilationUnit
  let a ← Action.assembleNamed rule (depth items) .compilationUnit 0
    { rest := items, pending := tokens, builder }
  let builder ← (a.builder.tokens a.pending).finishNode?
  builder.finish?

end Grammar

end Lintel
