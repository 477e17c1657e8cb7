import Lintel.Markup.Summary
import Lintel.Rule
import Lintel.Syntax.Trivia

namespace Lintel.SummaryText

def id : String := "SA1606"

def kinds : List Kind := [
  .classDecl, .structDecl, .interfaceDecl, .enumDecl, .delegateDecl, .methodDecl, .constructorDecl,
  .destructorDecl, .propertyDecl, .indexerDecl, .eventDecl, .eventFieldDecl]

def summary? (z : Zipper) : Option Markup.Summary := do
  let documentation ← Documentation.textOf? (← z.firstSignificant?)
  return .ofEvents (← Markup.events? documentation)

def check (z : Zipper) : Verdict :=
  if z.isToken then .notApplicable
  else
    match summary? z with
    | none => .notApplicable
    | some s =>
      if s.isSatisfied then .clean
      else
        match z.identifier? with
        | some name => .violations [{ rule := id, span := name.span }]
        | none => .notApplicable

def rule : Rule :=
  { id
    name := "ElementDocumentationMustHaveSummaryText"
    message := "Element documentation must have summary text"
    kinds
    check := fun _ z => .ok (check z) }

end Lintel.SummaryText
