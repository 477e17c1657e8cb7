import Lintel.Grammar.Declarations

namespace Lintel

structure LocatedFault where
  fault : ParseFault
  span : Span
  deriving DecidableEq

structure Parsed where
  tree : Tree
  faults : List LocatedFault

namespace Grammar

/-- A bound on the depth of calls; every second level of calls takes an item. -/
@[irreducible] def depth (items : List Item) : Nat :=
  64 * (items.length + 1)

def outline (items : List Item) : List Outline × List Complaint :=
  let s := Action.runNamed rule (depth items) .compilationUnit { rest := items }
  (s.built.reverse, s.complaints.reverse)

end Grammar

namespace Parse

def spans (tokens : List Token) : List Span × Nat :=
  let located := Token.located 0 tokens
  (located.filterMap (fun p => if p.2.isTrivia then none else some ⟨p.1, p.2.text.size⟩),
    (Token.textOf tokens).size)

def lexFaults (lexemes : List Lexeme) : List LocatedFault :=
  go 0 lexemes
where
  go (start : Nat) : List Lexeme → List LocatedFault
    | [] => []
    | l :: ls =>
      let rest := go (start + l.text.size) ls
      match l.fault with
      | none => rest
      | some f => ⟨.lexer f, ⟨start, l.text.size⟩⟩ :: rest

def locate (tokens : List Token) (complaints : List Grammar.Complaint) : List LocatedFault :=
  let (spans, stop) := spans tokens
  complaints.map fun c => ⟨.grammar c.fault, (spans[c.index]?).getD ⟨stop, 0⟩⟩

def weave (groups : List Group) (trailing : List Token) (outlines : List Outline) : Tree :=
  let (ts, _) := Outline.weaveAll outlines (groups.map (·.before))
  .node .compilationUnit (ts ++ trailing.map .leaf)

end Parse

def parse (t : Text) : Parsed :=
  let lexemes := lex t
  let tokens := lexemes.map (·.toToken)
  let (groups, trailing) := Group.split tokens
  let (outlines, complaints) := Grammar.outline (Group.items groups)
  { tree := Parse.weave groups trailing outlines
    faults := Parse.lexFaults lexemes ++ Parse.locate tokens complaints }

end Lintel
