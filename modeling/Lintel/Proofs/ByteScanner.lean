import Lintel.Syntax.Parse

/-!
Cutting a text into tokens by the offsets of its bytes. Every read is of a slice of the text, and a slice that starts or
ends within a character, or past the end of the text, fails the whole scan; so does a loop that does not come to an end
after a step for each byte of the text and one more.
-/

namespace Lintel.Scanner

def rest? (t : Text) (i : Nat) : Option Text :=
  (Text.splitAt? i t).map (·.2)

def slice? (t : Text) (i j : Nat) : Option Text :=
  if i ≤ j then t.slice? i j else none

def char? (t : Text) (i : Nat) : Option (Option Char) :=
  (rest? t i).map (·.head?)

def find? (p : Text → Bool) : Text → Option Nat
  | [] => none
  | c :: t => if p (c :: t) then some 0 else (find? p t).map (c.utf8Size + ·)

def skipWhile (p : Char → Bool) (t : Text) (i : Nat) : Option Nat :=
  go (t.size + 1) i
where
  go : Nat → Nat → Option Nat
    | 0, _ => none
    | n + 1, i => do
      match ← char? t i with
      | some c => if p c then go n (i + c.utf8Size) else return i
      | none => return i

def lineEnd (t : Text) (i : Nat) : Option Nat := do
  let r ← rest? t i
  return ((find? (·.head?.any Literal.isLineEnd) r).map (i + ·)).getD t.size

def quoted (quote : Char) (t : Text) (start i : Nat) : Option (Nat × Option Span) :=
  go (t.size + 1) i
where
  go : Nat → Nat → Option (Nat × Option Span)
    | 0, _ => none
    | n + 1, i => do
      match ← char? t i with
      | none => return (t.size, some (.between start t.size))
      | some c =>
        if c == '\\' then
          match ← char? t (i + c.utf8Size) with
          | some e => go n (i + c.utf8Size + e.utf8Size)
          | none => go n (i + c.utf8Size)
        else if Literal.isLineEnd c then return (i, some (.between start i))
        else if c == quote then return (i + c.utf8Size, none)
        else go n (i + c.utf8Size)

def special (form : Literal.StringForm) (t : Text) (start i : Nat) : Option (Nat × Option Span) :=
  go (t.size + 1) 0 i
where
  go : Nat → Nat → Nat → Option (Nat × Option Span)
    | 0, _, _ => none
    | n + 1, depth, i => do
      match ← char? t i with
      | none => return (t.size, some (.between start t.size))
      | some c =>
        if c == '"' then
          if depth > 0 then
            let (stop, _) ← quoted '"' t (i + 1) (i + 1)
            go n depth stop
          else if form.verbatim then
            if (← char? t (i + 1)) == some '"' then go n depth (i + 2) else return (i + c.utf8Size, none)
          else return (i + c.utf8Size, none)
        else if c == '\\' && !form.verbatim then
          match ← char? t (i + c.utf8Size) with
          | some e => go n depth (i + c.utf8Size + e.utf8Size)
          | none => go n depth (i + c.utf8Size)
        else if c == '\x7b' && form.interpolated then
          if depth == 0 then
            if (← char? t (i + 1)) == some '\x7b' then go n depth (i + 2) else go n (depth + 1) (i + c.utf8Size)
          else go n (depth + 1) (i + c.utf8Size)
        else if c == '\x7d' && form.interpolated && depth > 0 then go n (depth - 1) (i + c.utf8Size)
        else if Literal.isLineEnd c && !form.verbatim then return (i, some (.between start i))
        else go n depth (i + c.utf8Size)

def opensString (r : Text) : Bool :=
  ["@\"", "$\"", "$@\"", "@$\""].any (·.toList.isPrefixOf r)

def signedString (t : Text) (i : Nat) : Option (Nat × Option Span) := do
  let r ← rest? t i
  let n := (find? (·.head? == some '"') r).getD 0
  let signs ← slice? t i (i + n)
  special ⟨signs.contains '@', signs.contains '$'⟩ t i (i + n + 1)

def byteIs (p : Char → Bool) (t : Text) (i : Nat) : Bool :=
  t.bytes[i]?.any (fun b => p (Char.ofNat b.toNat))

def skipBytes (p : Char → Bool) (t : Text) (i : Nat) : Option Nat :=
  go (t.size + 1) i
where
  go : Nat → Nat → Option Nat
    | 0, _ => none
    | n + 1, i => if byteIs p t i then go n (i + 1) else some i

def isIntegerSuffix (c : Char) : Bool :=
  c == 'u' || c == 'U' || c == 'l' || c == 'L'

def isRealSuffix (c : Char) : Bool :=
  ['f', 'F', 'd', 'D', 'm', 'M'].contains c

def fraction (t : Text) (i : Nat) : Option (Bool × Nat) := do
  if byteIs (· == '.') t i && byteIs Char.isDigit t (i + 1) then
    return (true, ← skipBytes Literal.isDigitOrMark t (i + 1))
  else return (false, i)

def exponent (t : Text) (i : Nat) : Option (Bool × Nat) := do
  if byteIs (fun c => c == 'e' || c == 'E') t i then
    let j := if byteIs (fun c => c == '+' || c == '-') t (i + 1) then i + 2 else i + 1
    if byteIs Char.isDigit t j then return (true, ← skipBytes Char.isDigit t j) else return (false, i)
  else return (false, i)

def decimal (t : Text) (i : Nat) : Option (Kind × Nat) := do
  let whole ← skipBytes Literal.isDigitOrMark t i
  let (hasFraction, i) ← fraction t whole
  let (hasExponent, i) ← exponent t i
  if byteIs isRealSuffix t i then return (.realLiteral, i + 1)
  else return (if hasFraction || hasExponent then .realLiteral else .intLiteral, ← skipBytes isIntegerSuffix t i)

def skipDigits (p : Char → Bool) (t : Text) (i : Nat) : Option Nat := do
  let i ← skipBytes p t i
  skipBytes isIntegerSuffix t i

def number (t : Text) (i : Nat) : Option (Kind × Nat) := do
  let r ← rest? t i
  if "0x".toList.isPrefixOf r || "0X".toList.isPrefixOf r then
    return (.intLiteral, ← skipDigits (fun c => c == '_' || Literal.isHexDigit c) t (i + 2))
  else if "0b".toList.isPrefixOf r || "0B".toList.isPrefixOf r then
    return (.intLiteral, ← skipDigits (fun c => c == '_' || c == '0' || c == '1') t (i + 2))
  else decimal t i

structure Found where
  kind : Kind
  stop : Nat
  fault : Option LocatedFault := none

def sign (i : Nat) (c : Char) (r : Text) : Found :=
  match Kind.signs.find? (fun s => s.1.toList.isPrefixOf r) with
  | some s => ⟨s.2, i + Text.size s.1.toList, none⟩
  | none => ⟨.error, i + c.utf8Size, some ⟨.lexer (.strayCharacter c), .between i (i + c.utf8Size)⟩⟩

def plain (t : Text) (i : Nat) (c : Char) (r : Text) : Option Found := do
  if Letters.startsName c then
    let stop ← skipWhile Letters.continuesName t i
    let word ← slice? t i stop
    return ⟨(Kind.reservedWord? word).getD .ident, stop, none⟩
  else if c.isDigit then
    let (kind, stop) ← number t i
    return ⟨kind, stop, none⟩
  else if c == '.' then
    if (← char? t (i + 1)).any Char.isDigit then
      let (kind, stop) ← number t i
      return ⟨kind, stop, none⟩
    else return sign i c r
  else return sign i c r

def comment (t : Text) (i : Nat) : Option Found := do
  match find? ("*/".toList.isPrefixOf ·) (← rest? t (i + 2)) with
  | some n => return ⟨.blockComment, i + 2 + n + 2, none⟩
  | none => return ⟨.blockComment, t.size, some ⟨.lexer .openComment, .between i t.size⟩⟩

def literal (kind : Kind) (quote : Char) (t : Text) (i : Nat) : Option Found := do
  let (stop, open?) ← quoted quote t (i + 1) (i + 1)
  return ⟨kind, stop, open?.map (fun a => ⟨.lexer .openLiteral, .between i a.stop⟩)⟩

def within (t : Text) (i : Nat) (c : Char) (r : Text) : Option Found := do
  if c == '/' && "/*".toList.isPrefixOf r then comment t i
  else if c == '"' then literal .stringLiteral '"' t i
  else if c == '\'' then literal .charLiteral '\'' t i
  else if (c == '@' || c == '$') && opensString r then
    let (stop, open?) ← signedString t i
    return ⟨.stringLiteral, stop, open?.map (⟨.lexer .openString, ·⟩)⟩
  else if c == '@' then
    if (← char? t (i + c.utf8Size)).any Letters.startsName then
      return ⟨.ident, ← skipWhile Letters.continuesName t (i + c.utf8Size), none⟩
    else plain t i c r
  else plain t i c r

def next (t : Text) (i : Nat) (lineStart : Bool) (c : Char) (r : Text) : Option Found := do
  if c == '\n' then return ⟨.newline, i + c.utf8Size, none⟩
  else if c == '\r' then
    let stop := i + c.utf8Size
    return ⟨.newline, if (← char? t stop) == some '\n' then stop + '\n'.utf8Size else stop, none⟩
  else if Lexeme.isInlineBlank c then
    return ⟨.whitespace, ← skipWhile Lexeme.isInlineBlank t (i + c.utf8Size), none⟩
  else if c == '#' && lineStart then return ⟨.directive, ← lineEnd t i, none⟩
  else if c == '/' && "//".toList.isPrefixOf r then
    let documents := "///".toList.isPrefixOf r && !"////".toList.isPrefixOf r
    return ⟨if documents then .docComment else .lineComment, ← lineEnd t i, none⟩
  else within t i c r

structure Placed extends Token where
  span : Span

def scan (t : Text) : Option (List Placed × List LocatedFault) :=
  go (t.size + 1) 0 true
where
  go : Nat → Nat → Bool → Option (List Placed × List LocatedFault)
    | 0, _, _ => none
    | n + 1, i, lineStart => do
      if i < t.size then
        match ← rest? t i with
        | [] => return ([], [])
        | c :: u =>
          let found ← next t i lineStart c (c :: u)
          let text ← slice? t i found.stop
          let (tokens, faults) ← go n found.stop (Lexeme.startsLine lineStart found.kind)
          return (⟨⟨found.kind, text⟩, .between i found.stop⟩ :: tokens, found.fault.toList ++ faults)
      else return ([], [])

end Lintel.Scanner
