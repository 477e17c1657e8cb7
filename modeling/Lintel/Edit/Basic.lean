import Lintel.Source
import Lintel.Syntax.Zipper
import Lintel.Edit.OffsetMap

namespace Lintel

inductive Change where
  | replaceNode (kind : Kind) (replacement : Tree)
  | replaceTokens (replacement : List Tree)
  /-- Removes the token of a kind that has the span. A space is left where its neighbours would grow
  together. With `unwrap`, a node that has no significant token of its own left dissolves. -/
  | removeToken (kind : Kind) (unwrap : Bool)
  | insertAfter (anchor : Kind) (elements : List Tree)

namespace Change

def isInsertion : Change → Bool
  | insertAfter _ _ => true
  | _ => false

end Change

structure Part where
  span : Span
  change : Change
  insertion_empty : change.isInsertion = true → span.length = 0

/-- A fix for a finding: parts that are made together or not at all. -/
structure Edit where
  finding : Finding
  parts : List Part := []

namespace Edit

def rule (e : Edit) : String :=
  e.finding.rule

def add (e : Edit) (p : Part) : Edit :=
  { e with parts := e.parts ++ [p] }

def replaceNode (e : Edit) (node : Zipper) (replacement : Tree) : Edit :=
  e.add ⟨node.span, .replaceNode node.kind replacement, nofun⟩

def replaceTokens (e : Edit) (span : Span) (replacement : List Tree) : Edit :=
  e.add ⟨span, .replaceTokens replacement, nofun⟩

def removeToken (e : Edit) (token : Zipper) : Edit :=
  e.add ⟨token.span, .removeToken token.kind false, nofun⟩

def removeDelimiter (e : Edit) (token : Zipper) : Edit :=
  e.add ⟨token.span, .removeToken token.kind true, nofun⟩

def insertAfter (e : Edit) (anchor : Zipper) (elements : List Tree) : Edit :=
  e.add ⟨⟨anchor.span.stop, 0⟩, .insertAfter anchor.kind elements, fun _ => rfl⟩

def cover? (e : Edit) : Option Span :=
  match e.parts with
  | [] => none
  | p :: ps => some (ps.foldl (fun s q => s.cover q.span) p.span)

def conflicts (e f : Edit) : Bool :=
  e.parts.any (fun p => f.parts.any (fun q => p.span.conflicts q.span))

end Edit

structure Applied where
  rule : String
  span : Span
  replacement : Text
  deriving DecidableEq

structure Revision where
  source : Source
  applied : List Finding := []
  edits : List Applied := []
  leftovers : List Leftover := []
  needsRetry : Bool := false
  offsets : OffsetMap := {}

namespace Revision

def isChanged (r : Revision) : Bool :=
  !r.edits.isEmpty

def leave (r : Revision) (f : Finding) (reason : LeftReason) : Revision :=
  { r with leftovers := r.leftovers ++ [⟨f, reason⟩] }

def conflictCount (r : Revision) : Nat :=
  (r.leftovers.filter (fun l => l.reason matches .conflict _)).length

end Revision

end Lintel
