import Lintel.Document.Value
import Lintel.Text.Basic

namespace Lintel.Document.Json

def isSpace (c : Char) : Bool :=
  c == ' ' || c == '\n' || c == '\t' || c == '\r'

def skip (t : Text) : Text :=
  t.dropWhile isSpace

def hexDigit? (c : Char) : Option Nat :=
  if c.isDigit then some (c.toNat - '0'.toNat)
  else if 'a' ≤ c && c ≤ 'f' then some (c.toNat - 'a'.toNat + 10)
  else if 'A' ≤ c && c ≤ 'F' then some (c.toNat - 'A'.toNat + 10)
  else none

def hex? (t : Text) : Option Nat :=
  t.foldl (fun acc c => do return (← acc) * 16 + (← hexDigit? c)) (some 0)

def scalar? (n : Nat) : Option Char :=
  if h : n.isValidChar then some (Char.ofNatAux n h) else none

def unit? : Text → Option (Nat × Text)
  | a :: b :: c :: d :: rest => (hex? [a, b, c, d]).map fun n => (n, rest)
  | _ => none

/-- Reads the code of a character; one above U+FFFF is written as two halves. -/
def codePoint? (t : Text) : Option (Char × Text) := do
  let (n, rest) ← unit? t
  if 0xD800 ≤ n && n < 0xDC00 then
    match rest with
    | '\\' :: 'u' :: more => do
      let (m, rest) ← unit? more
      if 0xDC00 ≤ m && m < 0xE000 then
        return (← scalar? (0x10000 + (n - 0xD800) * 0x400 + (m - 0xDC00)), rest)
      else none
    | _ => none
  else return (← scalar? n, rest)

def escape? : Char → Option Char
  | '"' => some '"'
  | '\\' => some '\\'
  | '/' => some '/'
  | 'b' => some '\x08'
  | 'f' => some '\x0c'
  | 'n' => some '\n'
  | 'r' => some '\r'
  | 't' => some '\t'
  | _ => none

def string : Nat → Text → Text → Option (Text × Text)
  | 0, _, _ => none
  | _ + 1, _, [] => none
  | n + 1, acc, c :: cs =>
    if c == '"' then some (acc.reverse, cs)
    else if c == '\\' then
      match cs with
      | 'u' :: more => do
        let (d, rest) ← codePoint? more
        string n (d :: acc) rest
      | e :: rest => do string n ((← escape? e) :: acc) rest
      | [] => none
    else if c.toNat < 0x20 then none
    else string n (c :: acc) cs

def digits? (t : Text) : Option (Text × Text) :=
  let ds := t.takeWhile Char.isDigit
  if ds.isEmpty then none else some (ds, t.dropWhile Char.isDigit)

def decimal (ds : Text) : Nat :=
  ds.foldl (fun n c => n * 10 + (c.toNat - '0'.toNat)) 0

def whole? (t : Text) : Option (Text × Text) :=
  match digits? t with
  | some (ds, rest) => if ds.length > 1 && ds.head? == some '0' then none else some (ds, rest)
  | none => none

def fraction? (t : Text) : Option (Bool × Text) :=
  match t with
  | '.' :: cs => (digits? cs).map fun p => (true, p.2)
  | _ => some (false, t)

def exponent? (t : Text) : Option (Bool × Text) :=
  match t with
  | c :: cs =>
    if c == 'e' || c == 'E' then
      let body := match cs with
        | s :: more => if s == '+' || s == '-' then more else cs
        | [] => cs
      (digits? body).map fun p => (true, p.2)
    else some (false, t)
  | [] => some (false, t)

def number (t : Text) : Option (Value × Text) := do
  let (negative, body) := match t with
    | '-' :: cs => (true, cs)
    | _ => (false, t)
  let (ds, rest) ← whole? body
  let (fractional, rest) ← fraction? rest
  let (scaled, rest) ← exponent? rest
  return (if negative || fractional || scaled then .number else .nat (decimal ds), rest)

mutual

def value : Nat → Text → Option (Value × Text)
  | 0, _ => none
  | n + 1, t =>
    match t with
    | 'n' :: 'u' :: 'l' :: 'l' :: rest => some (.null, rest)
    | 't' :: 'r' :: 'u' :: 'e' :: rest => some (.bool true, rest)
    | 'f' :: 'a' :: 'l' :: 's' :: 'e' :: rest => some (.bool false, rest)
    | '"' :: cs => (string (cs.length + 1) [] cs).map fun p => (.text (String.ofList p.1), p.2)
    | '[' :: cs =>
      match skip cs with
      | ']' :: rest => some (.list [], rest)
      | more => (elements n more).map fun p => (.list p.1, p.2)
    | '\x7b' :: cs =>
      match skip cs with
      | '\x7d' :: rest => some (.table [], rest)
      | more => (members n more).map fun p => (.table p.1, p.2)
    | _ => number t

def elements : Nat → Text → Option (List Value × Text)
  | 0, _ => none
  | n + 1, t => do
    let (v, rest) ← value n t
    match skip rest with
    | ']' :: rest => some ([v], rest)
    | ',' :: more => (elements n (skip more)).map fun p => (v :: p.1, p.2)
    | _ => none

def members : Nat → Text → Option (List (String × Value) × Text)
  | 0, _ => none
  | n + 1, t =>
    match t with
    | '"' :: cs => do
      let (name, rest) ← string (cs.length + 1) [] cs
      match skip rest with
      | ':' :: rest => do
        let (v, rest) ← value n (skip rest)
        let member := (String.ofList name, v)
        match skip rest with
        | '\x7d' :: rest => some ([member], rest)
        | ',' :: more => (members n (skip more)).map fun p => (member :: p.1, p.2)
        | _ => none
      | _ => none
    | _ => none

end

def read? (t : Text) : Option Value :=
  match value (t.length + 1) (skip t) with
  | some (v, rest) => if (skip rest).isEmpty then some v else none
  | none => none

def hexChar (n : Nat) : Char :=
  ("0123456789abcdef".toList[n]?).getD '0'

def escaped (c : Char) : Text :=
  match c with
  | '"' => ['\\', '"']
  | '\\' => ['\\', '\\']
  | '\x08' => ['\\', 'b']
  | '\x0c' => ['\\', 'f']
  | '\n' => ['\\', 'n']
  | '\r' => ['\\', 'r']
  | '\t' => ['\\', 't']
  | _ =>
    if c.toNat < 0x20 then ['\\', 'u', '0', '0', hexChar (c.toNat / 16), hexChar (c.toNat % 16)]
    else [c]

def quoted (s : String) : String :=
  String.ofList ('"' :: s.toList.flatMap escaped ++ ['"'])

mutual

def render : Value → String
  | .null | .number => "null"
  | .bool b => if b then "true" else "false"
  | .nat n => toString n
  | .text s => quoted s
  | .list vs => "[" ++ ",".intercalate (renderAll vs) ++ "]"
  | .table ms => "\x7b" ++ ",".intercalate (renderMembers ms) ++ "\x7d"

def renderAll : List Value → List String
  | [] => []
  | v :: vs => render v :: renderAll vs

def renderMembers : List (String × Value) → List String
  | [] => []
  | (k, v) :: ms => (quoted k ++ ":" ++ render v) :: renderMembers ms

end

end Lintel.Document.Json
