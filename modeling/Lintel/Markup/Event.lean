import Lintel.Text.Basic

namespace Lintel.Markup

inductive Event where
  | start (name : Text)
  | empty (name : Text)
  | stop
  | text (t : Text)
  | data (t : Text)
  | other
  deriving DecidableEq

def isSpace (c : Char) : Bool :=
  c == ' ' || c == '\r' || c == '\n' || c == '\t'

def splitAround? (mark : Text) : Text → Option (Text × Text)
  | [] => if mark.isEmpty then some ([], []) else none
  | c :: cs =>
    match Text.strip? mark (c :: cs) with
    | some rest => some ([], rest)
    | none => (splitAround? mark cs).map fun p => (c :: p.1, p.2)

/-- Splits the text of a tag from what follows it; the bracket that ends a tag stands outside quotes.
`quote` is the quote that is open. -/
def splitTag? (quote : Option Char) : Text → Option (Text × Text)
  | [] => none
  | c :: cs =>
    let go (q : Option Char) := (splitTag? q cs).map fun p => (c :: p.1, p.2)
    match quote with
    | some q => go (if c == q then none else quote)
    | none =>
      if c == '>' then some ([], cs)
      else go (if c == '"' || c == '\'' then some c else none)

def splitBalanced? (depth : Nat) : Text → Option (Text × Text)
  | [] => none
  | c :: cs =>
    let go (d : Nat) := (splitBalanced? d cs).map fun p => (c :: p.1, p.2)
    if c == '<' then go (depth + 1)
    else if c == '>' then if depth == 0 then some ([], cs) else go (depth - 1)
    else go depth

def tagName (t : Text) : Text :=
  t.takeWhile (!isSpace ·)

def trimEnd (t : Text) : Text :=
  (t.reverse.dropWhile isSpace).reverse

def localName (name : Text) : Text :=
  match splitAround? [':'] name with
  | some (_, rest) => rest
  | none => name

def declaration? (t : Text) : Option (Event × Text) :=
  match t with
  | '-' :: '-' :: cs => (splitAround? "-->".toList cs).map fun p => (.other, p.2)
  | '[' :: _ => do
    let cs ← Text.strip? "[CDATA[".toList t
    (splitAround? "]]>".toList cs).map fun p => (.data p.1, p.2)
  | c :: _ =>
    if c == 'D' || c == 'd' then do
      let (body, rest) ← splitBalanced? 0 t
      if (body.take 7).map Char.toUpper == "DOCTYPE".toList && !(body.drop 7).all isSpace then
        some (.other, rest)
      else none
    else none
  | [] => none

def instruction? (t : Text) : Option (Event × Text) :=
  match splitAround? "?>".toList t with
  | some (_ :: _, rest) => some (.other, rest)
  | _ => none

def tag? (opened : List Text) (t : Text) : Option (Event × List Text × Text) :=
  match t with
  | '!' :: cs => (declaration? cs).map fun p => (p.1, opened, p.2)
  | '?' :: _ => (instruction? t).map fun p => (p.1, opened, p.2)
  | _ => do
    let (body, rest) ← splitTag? none t
    match body with
    | '/' :: name =>
      match opened with
      | innermost :: outer => if trimEnd name == innermost then some (.stop, outer, rest) else none
      | [] => none
    | _ =>
      if body.getLast? == some '/' then some (.empty (tagName body.dropLast), opened, rest)
      else some (.start (tagName body), tagName body :: opened, rest)

def eventsFrom : Nat → List Text → Text → Option (List Event)
  | 0, _, _ => none
  | _ + 1, _, [] => some []
  | n + 1, opened, c :: cs =>
    if c == '<' then do
      let (e, opened, rest) ← tag? opened cs
      return e :: (← eventsFrom n opened rest)
    else do
      let run := (c :: cs).takeWhile (· != '<')
      return .text run :: (← eventsFrom n opened ((c :: cs).dropWhile (· != '<')))

def events? (t : Text) : Option (List Event) :=
  let body := match t with
    | c :: cs => if c.toNat == 0xFEFF then cs else t
    | [] => t
  eventsFrom (body.length + 1) [] body

end Lintel.Markup
