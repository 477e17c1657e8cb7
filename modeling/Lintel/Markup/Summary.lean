import Lintel.Markup.Event

namespace Lintel.Markup

structure Summary where
  inherits : Bool := false
  hasSection : Bool := false
  sectionContent : Bool := false
  bodyContent : Bool := false
  depth : Nat := 0
  /-- How many were open where the section started, while it is open. -/
  openSection : Option Nat := none
  deriving DecidableEq

namespace Summary

def isSection (name : Text) : Bool :=
  localName name == "summary".toList || localName name == "content".toList

def isReference (name : Text) : Bool :=
  localName name == "inheritdoc".toList

def isBlank (c : Char) : Bool :=
  c == ' ' || c == '\t' || c == '\n' || c == '\x0c' || c == '\r'

def addContent (s : Summary) : Summary :=
  { s with bodyContent := true, sectionContent := s.sectionContent || s.openSection.isSome }

def step (s : Summary) : Event → Summary
  | .start name =>
    if isReference name then { s with inherits := true, depth := s.depth + 1 }
    else if !s.hasSection && isSection name then
      { s with hasSection := true, openSection := some s.depth, depth := s.depth + 1 }
    else { s with depth := s.depth + 1 }
  | .empty name =>
    if isReference name then { s with inherits := true }
    else if !s.hasSection && isSection name then { s with hasSection := true }
    else s.addContent
  | .stop =>
    let depth := s.depth - 1
    { s with depth, openSection := if s.openSection == some depth then none else s.openSection }
  | .text t | .data t => if t.all isBlank then s else s.addContent
  | .other => s

def ofEvents (es : List Event) : Summary :=
  es.foldl step {}

def isSatisfied (s : Summary) : Bool :=
  s.inherits || (if s.hasSection then s.sectionContent else s.bodyContent)

end Summary

end Lintel.Markup
