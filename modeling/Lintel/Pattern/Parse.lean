import Lintel.Pattern.Basic

namespace Lintel.Pattern

structure Mode where
  anyCase : Bool := false
  lines : Bool := false
  dotAll : Bool := false

namespace Mode

def set (m : Mode) (on : Bool) : Char → Option Mode
  | 'i' => some { m with anyCase := on }
  | 'm' => some { m with lines := on }
  | 's' => some { m with dotAll := on }
  | 'U' => some m
  | 'u' => if on then some m else none
  | _ => none

def switches (on : Bool) (m : Mode) : Text → Option (Mode × Char × Text)
  | [] => none
  | c :: cs =>
    if c == ')' || c == ':' then some (m, c, cs)
    else if c == '-' then if on then switches false m cs else none
    else do switches on (← m.set on c) cs

def fit (m : Mode) (s : CharSet) : CharSet :=
  if m.anyCase then .anyCase s else s

end Mode

def newline : CharSet :=
  .single '\n'

def dot (m : Mode) : Pattern :=
  .one (if m.dotAll then .union newline (.compl newline) else .compl newline)

def isSign (c : Char) : Bool :=
  c.toNat < 0x80 && !c.isAlphanum && c != '<' && c != '>'

inductive Escape where
  | set (s : CharSet)
  | char (c : Char)
  | anchor (a : Anchor)

def simpleEscape (c : Char) : Option Escape :=
  match c with
  | 'w' => some (.set .word)
  | 'W' => some (.set (.compl .word))
  | 'd' => some (.set .digit)
  | 'D' => some (.set (.compl .digit))
  | 's' => some (.set .blank)
  | 'S' => some (.set (.compl .blank))
  | 'b' => some (.anchor .wordEdge)
  | 'B' => some (.anchor .noWordEdge)
  | 'A' => some (.anchor .textStart)
  | 'z' => some (.anchor .textEnd)
  | 'n' => some (.char '\n')
  | 't' => some (.char '\t')
  | 'r' => some (.char '\r')
  | 'a' => some (.char '\x07')
  | 'f' => some (.char '\x0c')
  | 'v' => some (.char '\x0b')
  | _ => if isSign c then some (.char c) else none

def hexDigit? (c : Char) : Option Nat :=
  if c.isDigit then some (c.toNat - '0'.toNat)
  else if 'a' ≤ c && c ≤ 'f' then some (c.toNat - 'a'.toNat + 10)
  else if 'A' ≤ c && c ≤ 'F' then some (c.toNat - 'A'.toNat + 10)
  else none

def hex? (t : Text) : Option Nat :=
  if t.isEmpty then none
  else t.foldl (fun acc c => do return (← acc) * 16 + (← hexDigit? c)) (some 0)

def scalar? (n : Nat) : Option Char :=
  if h : n.isValidChar then some (Char.ofNatAux n h) else none

def codeEscape (width : Nat) (t : Text) : Option (Char × Text) :=
  match t with
  | '\x7b' :: cs => do
    let digits := cs.takeWhile (· != '\x7d')
    match cs.dropWhile (· != '\x7d') with
    | _ :: rest => return (← scalar? (← hex? digits), rest)
    | [] => none
  | _ => do
    if t.length < width then none
    return (← scalar? (← hex? (t.take width)), t.drop width)

def escape (t : Text) : Option (Escape × Text) :=
  match t with
  | [] => none
  | 'x' :: cs => (codeEscape 2 cs).map fun p => (.char p.1, p.2)
  | 'u' :: cs => (codeEscape 4 cs).map fun p => (.char p.1, p.2)
  | 'U' :: cs => (codeEscape 8 cs).map fun p => (.char p.1, p.2)
  | c :: cs => (simpleEscape c).map fun e => (e, cs)

def classMember (t : Text) : Option ((Char ⊕ CharSet) × Text) :=
  match t with
  | [] => none
  | '\\' :: cs =>
    match escape cs with
    | some (.char c, rest) => some (.inl c, rest)
    | some (.set s, rest) => some (.inr s, rest)
    | _ => none
  | '[' :: _ => none
  | c :: cs => some (.inl c, cs)

def classMembers : Nat → List CharSet → Text → Option (List CharSet × Text)
  | 0, _, _ => none
  | _ + 1, _, [] => none
  | n + 1, acc, t@(c :: cs) =>
    if c == ']' && !acc.isEmpty then some (acc, cs)
    else do
      let (m, rest) ← classMember t
      match m, rest with
      | .inr s, _ => classMembers n (s :: acc) rest
      | .inl low, '-' :: ']' :: _ => classMembers n (.single low :: acc) rest
      | .inl low, '-' :: more => do
        match ← classMember more with
        | (.inl high, rest) =>
          if high < low then none else classMembers n (.range low high :: acc) rest
        | _ => none
      | .inl low, _ => classMembers n (.single low :: acc) rest

def bracketClass (t : Text) : Option (CharSet × Text) := do
  let (negated, body) := match t with
    | '^' :: cs => (true, cs)
    | _ => (false, t)
  let (sets, rest) ← classMembers (t.length + 1) [] body
  match sets with
  | [] => none
  | s :: more =>
    let all := more.foldl .union s
    return (if negated then .compl all else all, rest)

def number? (t : Text) : Option (Nat × Text) :=
  let digits := t.takeWhile Char.isDigit
  if digits.isEmpty then none
  else some (digits.foldl (fun n c => n * 10 + (c.toNat - '0'.toNat)) 0, t.dropWhile Char.isDigit)

structure Bounds where
  least : Nat
  more : Option Nat

def bounds (t : Text) : Option (Bounds × Text) := do
  let (low, rest) ← number? t
  match rest with
  | '\x7d' :: cs => some (⟨low, some 0⟩, cs)
  | ',' :: '\x7d' :: cs => some (⟨low, none⟩, cs)
  | ',' :: more => do
    let (high, rest) ← number? more
    match rest with
    | '\x7d' :: cs => if high < low then none else some (⟨low, some (high - low)⟩, cs)
    | _ => none
  | _ => none

def Bounds.apply (b : Bounds) (p : Pattern) : Pattern :=
  .seq (p.times b.least) (match b.more with
    | none => .star p
    | some n => p.upTo n)

def repetition (t : Text) : Option (Bounds × Text) :=
  let read : Option (Bounds × Text) := match t with
    | '*' :: cs => some (⟨0, none⟩, cs)
    | '+' :: cs => some (⟨1, none⟩, cs)
    | '?' :: cs => some (⟨0, some 1⟩, cs)
    | '\x7b' :: cs => bounds cs
    | _ => none
  -- A question mark after it asks for the shortest match, which does not change whether there is one.
  read.map fun (b, rest) => match rest with
    | '?' :: cs => (b, cs)
    | _ => (b, rest)

def groupName (t : Text) : Option Text :=
  let name := t.takeWhile (· != '>')
  match name, t.dropWhile (· != '>') with
  | c :: cs, _ :: rest =>
    if (c == '_' || c.isAlpha) && cs.all (fun d => d == '_' || d.isAlphanum) then some rest else none
  | _, _ => none

inductive Opening where
  | group (m : Mode) (rest : Text)
  | switches (m : Mode) (rest : Text)

def opening (m : Mode) : Text → Option Opening
  | '?' :: 'P' :: '<' :: cs => (groupName cs).map (.group m)
  | '?' :: '<' :: cs => (groupName cs).map (.group m)
  | '?' :: cs =>
    if cs.head? == some ')' then none
    else match Mode.switches true m cs with
      | some (m', ':', rest) => some (.group m' rest)
      | some (m', _, rest) => some (.switches m' rest)
      | none => none
  | cs => some (.group m cs)

def sequence (items : List (Option Pattern)) : Pattern :=
  (items.filterMap id).foldl (fun acc p => .seq p acc) .empty

def alternatives : Nat → Mode → Option Pattern → List (Option Pattern) → Text → Option (Pattern × Text)
  | 0, _, _, _, _ => none
  | n + 1, m, before, items, t =>
    let all := match before with
      | none => sequence items
      | some p => .alt p (sequence items)
    match t with
    | [] => some (all, [])
    | c :: cs =>
      match c with
      | ')' => some (all, t)
      | '|' => alternatives n m (some all) [] cs
      | '*' | '+' | '?' | '\x7b' =>
        match items with
        | some p :: more => do
          let (b, rest) ← repetition t
          alternatives n m before (some (b.apply p) :: more) rest
        | _ => none
      | '(' => do
        match ← opening m cs with
        | .switches m' rest => alternatives n m' before (none :: items) rest
        | .group m' rest =>
          match ← alternatives n m' none [] rest with
          | (p, ')' :: rest) => alternatives n m before (some p :: items) rest
          | _ => none
      | '[' => do
        let (s, rest) ← bracketClass cs
        alternatives n m before (some (.one (m.fit s)) :: items) rest
      | '\\' => do
        let (e, rest) ← escape cs
        let p : Pattern := match e with
          | .set s => .one s
          | .char c => .one (m.fit (.single c))
          | .anchor a => .anchor a
        alternatives n m before (some p :: items) rest
      | '.' => alternatives n m before (some (dot m) :: items) cs
      | '^' => alternatives n m before
          (some (.anchor (if m.lines then .lineStart else .textStart)) :: items) cs
      | '$' => alternatives n m before
          (some (.anchor (if m.lines then .lineEnd else .textEnd)) :: items) cs
      | _ => alternatives n m before (some (.one (m.fit (.single c))) :: items) cs

/-- Reads the common part of the pattern language: no sets named by a property, no nested sets and no layout. -/
def parse? (t : Text) : Option Pattern :=
  match alternatives (t.length + 1) {} none [] t with
  | some (p, []) => some p
  | _ => none

def compile? (source : String) : Option (Text → Bool) :=
  (parse? source.toList).map occursIn

def isValid (source : String) : Bool :=
  (compile? source).isSome

end Lintel.Pattern
