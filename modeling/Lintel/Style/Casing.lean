import Lintel.Rule

namespace Lintel.Casing

def id : String := "SA1300"

def kinds : List Kind := [
  .namespaceDecl, .fileScopedNamespaceDecl, .classDecl, .structDecl, .interfaceDecl, .enumDecl, .enumMember,
  .delegateDecl, .eventDecl, .eventFieldDecl, .methodDecl, .propertyDecl]

def declaredNames (z : Zipper) : List Zipper :=
  match z.kind with
  | .namespaceDecl | .fileScopedNamespaceDecl => z.namespaceNames
  | .eventFieldDecl =>
    let declared := (z.childNodes.filter (·.kind == .variableDecl)).flatMap (·.childNodes)
    (declared.filter (·.kind == .variableDeclarator)).filterMap (·.firstName?)
  | .classDecl | .structDecl | .interfaceDecl | .enumDecl | .enumMember | .delegateDecl =>
    z.firstName?.toList
  | .eventDecl => z.ownerName?.toList
  | .methodDecl => if (z.childToken? .operatorKw).isSome then [] else z.lastName?.toList
  | .propertyDecl => z.lastName?.toList
  | _ => []

def startsLowercase (name : Text) : Bool :=
  name.head?.any Letters.isLowercase

def check (c : CheckContext) (z : Zipper) : Verdict :=
  if z.isToken || (z.childToken? .overrideKw).isSome then .notApplicable
  else
    let bad := (declaredNames z).filter fun n =>
      startsLowercase n.text && !c.exempts (.of z n.text)
    .ofFindings (bad.map fun n => { rule := id, span := n.span, args := [n.text] })

def rule : Rule :=
  { id
    name := "ElementMustBeginWithUpperCaseLetter"
    message := "Element '\x7b0\x7d' must begin with an uppercase letter"
    kinds
    check := fun c z => .ok (check c z) }

end Lintel.Casing
