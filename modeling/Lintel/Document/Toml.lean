import Lintel.Document.Json

/-!
Reading values from TOML. Values that no setting takes (fractions, dates) and arrays of tables are
refused.
-/

namespace Lintel.Document.Toml

inductive Origin where
  | header
  | implicit
  | dotted
  deriving DecidableEq

inductive Item where
  | value (v : Value)
  | table (origin : Origin) (members : List (String × Item))

abbrev Items := List (String × Item)

namespace Items

def lookup? (key : String) (ms : Items) : Option Item :=
  (ms.find? (·.1 == key)).map (·.2)

def put (key : String) (i : Item) (ms : Items) : Items :=
  if ms.any (·.1 == key) then ms.map (fun m => if m.1 == key then (key, i) else m)
  else ms ++ [(key, i)]

/-- Gives the member at a path its value. It must not have one, and the tables on the way must not
have headers. -/
def assign (v : Value) : List String → Items → Option Items
  | [], _ => none
  | [k], ms => if (lookup? k ms).isSome then none else some (put k (.value v) ms)
  | k :: ks, ms =>
    match lookup? k ms with
    | none => (assign v ks []).map fun sub => put k (.table .dotted sub) ms
    | some (.table .dotted sub) => (assign v ks sub).map fun sub => put k (.table .dotted sub) ms
    | some (.table .implicit sub) =>
      if ks.length ≤ 1 then none
      else (assign v ks sub).map fun sub => put k (.table .implicit sub) ms
    | some _ => none

def start : List String → Items → Option Items
  | [], _ => none
  | [k], ms =>
    match lookup? k ms with
    | none => some (put k (.table .header []) ms)
    | some (.table .implicit sub) => some (put k (.table .header sub) ms)
    | some _ => none
  | k :: ks, ms =>
    match lookup? k ms with
    | none => (start ks []).map fun sub => put k (.table .implicit sub) ms
    | some (.table o sub) => (start ks sub).map fun sub => put k (.table o sub) ms
    | some _ => none

def modify (f : Items → Option Items) : List String → Items → Option Items
  | [], ms => f ms
  | k :: ks, ms =>
    match lookup? k ms with
    | some (.table o sub) => (modify f ks sub).map fun sub => put k (.table o sub) ms
    | _ => none

mutual

def toMembers : Items → List (String × Value)
  | [] => []
  | (k, i) :: ms => (k, toValue i) :: toMembers ms

def toValue : Item → Value
  | .value v => v
  | .table _ ms => .table (toMembers ms)

end

end Items

def isSpace (c : Char) : Bool :=
  c == ' ' || c == '\t'

def skip (t : Text) : Text :=
  t.dropWhile isSpace

def isPrintable (c : Char) : Bool :=
  c == '\t' || (0x20 ≤ c.toNat && c.toNat != 0x7F)

def newline? : Text → Option Text
  | '\n' :: rest => some rest
  | '\r' :: '\n' :: rest => some rest
  | _ => none

def comment : Text → Text
  | '#' :: cs => cs.dropWhile isPrintable
  | t => t

def lineEnd? (t : Text) : Option Text :=
  match comment (skip t) with
  | [] => some []
  | rest => newline? rest

def skipLines : Nat → Text → Text
  | 0, t => t
  | n + 1, t =>
    let rest := comment (skip t)
    match newline? rest with
    | some more => skipLines n more
    | none => rest

def escape? : Text → Option (Char × Text)
  | 'b' :: rest => some ('\x08', rest)
  | 't' :: rest => some ('\t', rest)
  | 'n' :: rest => some ('\n', rest)
  | 'f' :: rest => some ('\x0c', rest)
  | 'r' :: rest => some ('\r', rest)
  | 'e' :: rest => some ('\x1b', rest)
  | '"' :: rest => some ('"', rest)
  | '\\' :: rest => some ('\\', rest)
  | c :: cs =>
    let width := if c == 'x' then 2 else if c == 'u' then 4 else if c == 'U' then 8 else 0
    if width == 0 || cs.length < width then none
    else do return (← Json.scalar? (← Json.hex? (cs.take width)), cs.drop width)
  | [] => none

def basic : Nat → Text → Text → Option (Text × Text)
  | 0, _, _ => none
  | _ + 1, _, [] => none
  | n + 1, acc, c :: cs =>
    if c == '"' then some (acc.reverse, cs)
    else if c == '\\' then do
      let (d, rest) ← escape? cs
      basic n (d :: acc) rest
    else if isPrintable c then basic n (c :: acc) cs
    else none

def literal (t : Text) : Option (Text × Text) :=
  let body := t.takeWhile (fun c => isPrintable c && c != '\'')
  match t.dropWhile (fun c => isPrintable c && c != '\'') with
  | '\'' :: rest => some (body, rest)
  | _ => none

/-- Up to two quotes directly before the three that end a string belong to it. -/
def closing? (q : Char) (t : Text) : Option (Text × Text) :=
  let quotes := (t.takeWhile (· == q)).length
  if quotes < 3 then none
  else
    let extra := min (quotes - 3) 2
    some (List.replicate extra q, t.drop (extra + 3))

def continuation? (t : Text) : Option Text :=
  match newline? (skip t) with
  | some rest => some (rest.dropWhile (fun c => isSpace c || c == '\n' || c == '\r'))
  | none => none

def multiline (q : Char) : Nat → Text → Text → Option (Text × Text)
  | 0, _, _ => none
  | _ + 1, _, [] => none
  | n + 1, acc, t@(c :: cs) =>
    match closing? q t with
    | some (extra, rest) => some (acc.reverse ++ extra, rest)
    | none =>
      if c == '\\' && q == '"' then
        match continuation? cs with
        | some rest => multiline q n acc rest
        | none => do
          let (d, rest) ← escape? cs
          multiline q n (d :: acc) rest
      else
        match newline? t with
        | some rest => multiline q n ((t.take (t.length - rest.length)).reverse ++ acc) rest
        | none => if isPrintable c then multiline q n (c :: acc) cs else none

def multilineBody (q : Char) (t : Text) : Option (Text × Text) :=
  multiline q (t.length + 1) [] ((newline? t).getD t)

def isBare (c : Char) : Bool :=
  c.isAlphanum || c == '_' || c == '-'

def key? (t : Text) : Option (String × Text) :=
  match t with
  | '"' :: cs => (basic (cs.length + 1) [] cs).map fun p => (String.ofList p.1, p.2)
  | '\'' :: cs => (literal cs).map fun p => (String.ofList p.1, p.2)
  | _ =>
    let k := t.takeWhile isBare
    if k.isEmpty then none else some (String.ofList k, t.dropWhile isBare)

def path? : Nat → Text → Option (List String × Text)
  | 0, _ => none
  | n + 1, t => do
    let (k, rest) ← key? (skip t)
    match skip rest with
    | '.' :: more => (path? n more).map fun p => (k :: p.1, p.2)
    | rest => some ([k], rest)

def digits? (isDigit : Char → Bool) (t : Text) : Option Text :=
  let parts := (String.ofList t).splitOn "_"
  if parts.all (fun p => !p.isEmpty && p.toList.all isDigit) then some (t.filter (· != '_')) else none

def inBase (base : Nat) (ds : Text) : Nat :=
  ds.foldl (fun n c => n * base + (Json.hexDigit? c).getD 0) 0

def magnitude? (t : Text) : Option Nat :=
  (digits? Char.isDigit t).bind fun ds =>
    if ds.length > 1 && ds.head? == some '0' then none else some (inBase 10 ds)

def integer? : Text → Option Nat
  | '0' :: 'x' :: ds => (digits? (fun c => (Json.hexDigit? c).isSome) ds).map (inBase 16)
  | '0' :: 'o' :: ds => (digits? (fun c => '0' ≤ c && c ≤ '7') ds).map (inBase 8)
  | '0' :: 'b' :: ds => (digits? (fun c => c == '0' || c == '1') ds).map (inBase 2)
  | '+' :: ds => magnitude? ds
  | '-' :: ds => (magnitude? ds).filter (· == 0)
  | ds => magnitude? ds

def isScalar (c : Char) : Bool :=
  c.isAlphanum || c == '_' || c == '+' || c == '-' || c == '.' || c == ':'

def scalar? (t : Text) : Option (Value × Text) :=
  let word := t.takeWhile isScalar
  let rest := t.dropWhile isScalar
  if word == "true".toList then some (.bool true, rest)
  else if word == "false".toList then some (.bool false, rest)
  else (integer? word).map fun n => (.nat n, rest)

mutual

def value : Nat → Text → Option (Value × Text)
  | 0, _ => none
  | n + 1, t =>
    let text (p : Text × Text) : Value × Text := (.text (String.ofList p.1), p.2)
    match t with
    | '"' :: '"' :: '"' :: cs => (multilineBody '"' cs).map text
    | '\'' :: '\'' :: '\'' :: cs => (multilineBody '\'' cs).map text
    | '"' :: cs => (basic (cs.length + 1) [] cs).map text
    | '\'' :: cs => (literal cs).map text
    | '[' :: cs => (elements n (skipLines cs.length cs)).map fun p => (.list p.1, p.2)
    | '\x7b' :: cs => (members n [] (skipLines cs.length cs)).map fun p =>
        (.table (Items.toMembers p.1), p.2)
    | _ => scalar? t

def elements : Nat → Text → Option (List Value × Text)
  | 0, _ => none
  | n + 1, t =>
    match t with
    | ']' :: rest => some ([], rest)
    | _ => do
      let (v, rest) ← value n t
      match skipLines rest.length rest with
      | ']' :: rest => some ([v], rest)
      | ',' :: more => (elements n (skipLines more.length more)).map fun p => (v :: p.1, p.2)
      | _ => none

def members : Nat → Items → Text → Option (Items × Text)
  | 0, _, _ => none
  | n + 1, ms, t =>
    match t with
    | '\x7d' :: rest => some (ms, rest)
    | _ => do
      let (path, rest) ← path? (t.length + 1) t
      match rest with
      | '=' :: rest => do
        let (v, rest) ← value n (skip rest)
        let ms ← Items.assign v path ms
        match skipLines rest.length rest with
        | '\x7d' :: rest => some (ms, rest)
        | ',' :: more => members n ms (skipLines more.length more)
        | _ => none
      | _ => none

end

def lines : Nat → List String → Items → Text → Option Items
  | 0, _, _, _ => none
  | n + 1, here, ms, t =>
    match skipLines t.length t with
    | [] => some ms
    | '[' :: cs => do
      let (path, rest) ← path? (cs.length + 1) cs
      match rest with
      | ']' :: rest => do
        let ms ← Items.start path ms
        lines n path ms (← lineEnd? rest)
      | _ => none
    | body => do
      let (path, rest) ← path? (body.length + 1) body
      match rest with
      | '=' :: rest => do
        let (v, rest) ← value (rest.length + 1) (skip rest)
        let ms ← Items.modify (Items.assign v path) here ms
        lines n here ms (← lineEnd? rest)
      | _ => none

def read? (t : Text) : Option Value :=
  let body := match t with
    | c :: cs => if c.toNat == 0xFEFF then cs else t
    | [] => t
  (lines (body.length + 1) [] [] body).map fun ms => .table (Items.toMembers ms)

end Lintel.Document.Toml
