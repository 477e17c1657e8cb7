import Lintel.Syntax.Zipper

namespace Lintel.Zipper

def childNode? (z : Zipper) (k : Kind) : Option Zipper :=
  z.children.find? (fun c => c.isNode && c.kind == k)

def childToken? (z : Zipper) (k : Kind) : Option Zipper :=
  z.children.find? (fun c => c.isToken && c.kind == k)

def childNodes (z : Zipper) : List Zipper :=
  z.children.filter (·.isNode)

def childTokens (z : Zipper) (k : Kind) : List Zipper :=
  z.children.filter (fun c => c.isToken && c.kind == k)

def isNamespace (z : Zipper) : Bool :=
  z.isNode && z.kind matches .namespaceDecl | .fileScopedNamespaceDecl

def isTypeDecl (z : Zipper) : Bool :=
  z.isNode && z.kind matches .classDecl | .structDecl | .interfaceDecl | .enumDecl

def isAccessorOwner (z : Zipper) : Bool :=
  z.isNode && z.kind matches .propertyDecl | .indexerDecl | .eventDecl

def namespaceNames (z : Zipper) : List Zipper :=
  match z.children.find? (fun c => c.isNode && c.kind matches .nameType | .qualifiedType) with
  | none => []
  | some name => name.tokens.filter (·.kind == .ident)

def firstName? (z : Zipper) : Option Zipper :=
  z.childToken? .ident

def lastName? (z : Zipper) : Option Zipper :=
  (z.childTokens .ident).getLast?

def members (z : Zipper) : List Zipper :=
  z.childNodes.filter fun c =>
    !(c.kind matches .attributeList | .typeParameterList | .baseList | .constraintClause)

def methodBody? (z : Zipper) : Option Zipper :=
  (z.childNode? .block).or (z.childNode? .arrowExprClause)

def ownerName? (z : Zipper) : Option Zipper :=
  if z.kind == .indexerDecl then z.childToken? .thisKw else z.lastName?

def accessorList? (z : Zipper) : Option Zipper :=
  z.childNode? .accessorList

def accessors (z : Zipper) : List Zipper :=
  z.childNodes.filter (·.kind == .accessor)

def accessorWord? (z : Zipper) : Option Zipper :=
  z.children.find? fun c =>
    c.isToken && c.kind matches .getKw | .setKw | .initKw | .addKw | .removeKw

def firstDeclarator? (z : Zipper) : Option Zipper := do
  let d ← z.childNode? .variableDecl
  let v ← d.childNode? .variableDeclarator
  v.firstName?

def openParen? (z : Zipper) : Option Zipper :=
  z.childToken? .lParen

def closeParen? (z : Zipper) : Option Zipper :=
  (z.childTokens .rParen).getLast?

def innerExpression? (z : Zipper) : Option Zipper :=
  z.childNodes.head?

def identifier? (z : Zipper) : Option Zipper :=
  if z.isToken then none
  else
    match z.kind with
    | .classDecl | .structDecl | .interfaceDecl | .enumDecl | .delegateDecl | .constructorDecl
    | .destructorDecl => z.firstName?
    | .methodDecl => z.lastName?.or (z.childToken? .operatorKw)
    | .propertyDecl | .indexerDecl | .eventDecl => z.ownerName?
    | .eventFieldDecl => z.firstDeclarator?
    | _ => none

def enclosingTypes (z : Zipper) : List Text :=
  (z.parents.filter (·.isTypeDecl)).filterMap (fun p => p.firstName?.map (·.text))

end Lintel.Zipper
