import Lintel.Failure
import Lintel.Finding
import Lintel.Syntax.Parse

namespace Lintel

structure Source where
  tree : Tree
  path : Option String := none

structure FindingRecord where
  rule : String
  start : Position
  stop : Position
  args : List Text
  deriving DecidableEq

namespace Source

def ofText (t : Text) (path : Option String) : Source :=
  ⟨(parse t).tree, path⟩

def text (s : Source) : Text :=
  s.tree.text

def lines (s : Source) : LineIndex :=
  .ofText s.text

def location (s : Source) (span : Span) : Location :=
  .ofSpan s.lines s.text s.path span

def record (s : Source) (f : Finding) : FindingRecord :=
  { rule := f.rule
    start := s.lines.position s.text f.span.start
    stop := s.lines.position s.text f.span.stop
    args := f.args }

end Source

end Lintel
