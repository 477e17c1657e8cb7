import Lintel.Text.Basic

namespace Lintel

structure Position where
  line : Nat
  column : Nat
  deriving DecidableEq

structure LineIndex where
  starts : List Nat
  deriving DecidableEq

namespace LineIndex

def startsAfter (offset : Nat) : Text → List Nat
  | [] => []
  | c :: cs =>
    if c == '\n' then (offset + 1) :: startsAfter (offset + 1) cs
    else startsAfter (offset + c.utf8Size) cs

def ofText (t : Text) : LineIndex :=
  ⟨0 :: startsAfter 0 t⟩

def count (x : LineIndex) : Nat :=
  x.starts.length

def lineAt (x : LineIndex) (offset : Nat) : Nat :=
  (x.starts.filter (· ≤ offset)).length - 1

/-- The position of an offset; one past the end is taken for the end, and one inside a character is in
the first column. -/
def position (x : LineIndex) (t : Text) (offset : Nat) : Position :=
  let offset := min offset t.size
  let line := x.lineAt offset
  let start := min ((x.starts[line]?).getD 0) offset
  ⟨line + 1, (t.slice? start offset).elim 0 List.length + 1⟩

def sameLine (x : LineIndex) (a b : Nat) : Bool :=
  x.lineAt a == x.lineAt b

end LineIndex

structure Location where
  file : Option String := none
  line : Nat := 0
  column : Nat := 0
  endLine : Nat := 0
  endColumn : Nat := 0
  offset : Nat := 0
  length : Nat := 0
  deriving DecidableEq, Inhabited

namespace Location

def ofSpan (x : LineIndex) (t : Text) (file : Option String) (s : Span) : Location :=
  let p := x.position t s.start
  let q := x.position t s.stop
  { file, line := p.line, column := p.column, endLine := q.line, endColumn := q.column,
    offset := s.start, length := s.length }

def render (l : Location) : String :=
  match l.file with
  | some f => s!"{f}:{l.line}:{l.column}"
  | none => s!"{l.line}:{l.column}"

end Location

end Lintel
