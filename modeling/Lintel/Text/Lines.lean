import Lintel.Text.Letters
import Lintel.Text.Basic

namespace Lintel.Text

def dropReturn (t : Text) : Text :=
  match t.getLast? with
  | some '\r' => t.dropLast
  | _ => t

/-- The lines of a text. A line feed ends a line, with the carriage return before it; a text that ends
with a line feed has no empty last line. -/
def lines (t : Text) : List Text :=
  go [] t
where
  go (line : Text) : Text → List Text
    | [] => if line.isEmpty then [] else [line.reverse]
    | c :: cs => if c == '\n' then dropReturn line.reverse :: go [] cs else go (c :: line) cs

/-- The lines of a text with what ends them: a line feed, a carriage return, or both in this order. -/
def linesWithEnds (t : Text) : List Text :=
  go [] t
where
  go (line : Text) : Text → List Text
    | [] => if line.isEmpty then [] else [line.reverse]
    | '\r' :: '\n' :: cs => ('\n' :: '\r' :: line).reverse :: go [] cs
    | c :: cs =>
      if c == '\n' || c == '\r' then (c :: line).reverse :: go [] cs else go (c :: line) cs

def trimStart (t : Text) : Text :=
  t.dropWhile Letters.isBlank

def joinLines (ls : List Text) : Text :=
  List.intercalate ['\n'] ls

end Lintel.Text
