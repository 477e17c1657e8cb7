import Lintel.Grammar.Action

namespace Lintel.Grammar

abbrev After (l : List Item) := { r : List Item // r.length < l.length }

def headKind (l : List Item) : Kind :=
  (l.head?).elim .eof (·.kind)

def secondKind (l : List Item) : Kind :=
  headKind l.tail

theorem length_tail_le (l : List Item) : l.tail.length ≤ l.length := by
  cases l <;> simp

def scanRank : (l : List Item) → Option (After l)
  | [] => none
  | i :: l =>
    if i.kind == .comma then (scanRank l).map (fun r => ⟨r.1, Nat.lt_succ_of_lt r.2⟩)
    else if i.kind == .rBracket then some ⟨l, Nat.lt_succ_self _⟩
    else none

def scanSuffixes (l : List Item) : { r : List Item // r.length ≤ l.length } :=
  match l with
  | [] => ⟨[], Nat.le_refl _⟩
  | i :: l =>
    if i.kind == .question || i.kind == .star then
      let r := scanSuffixes l
      ⟨r.1, Nat.le_succ_of_le r.2⟩
    else if i.kind == .lBracket then
      match scanRank l with
      | some r =>
        have := r.2
        let q := scanSuffixes r.1
        ⟨q.1, by have := q.2; simp only [List.length_cons]; omega⟩
      | none => ⟨i :: l, Nat.le_refl _⟩
    else ⟨i :: l, Nat.le_refl _⟩
termination_by l.length

mutual

def scanType (l : List Item) : Option (After l) :=
  match l with
  | [] => none
  | i :: l =>
    if i.kind.isPredefinedType then
      let r := scanSuffixes l
      some ⟨r.1, Nat.lt_succ_of_le r.2⟩
    else if i.kind == .ident then
      match scanName (i :: l) with
      | none => none
      | some r =>
        let q := scanSuffixes r.1
        some ⟨q.1, Nat.lt_of_le_of_lt q.2 r.2⟩
    else none
termination_by 4 * l.length + 1

def scanName (l : List Item) : Option (After l) :=
  match l with
  | [] => none
  | i :: l =>
    if i.kind == .ident then
      if headKind l == .lt then
        match l with
        | [] => none
        | j :: m =>
          match scanArguments m with
          | none => some ⟨j :: m, Nat.lt_succ_self _⟩
          | some r =>
            have := r.2
            if (headKind r.1 == .dot || headKind r.1 == .colonColon) && secondKind r.1 == .ident then
              have := length_tail_le r.1
              (scanName r.1.tail).map (fun q => ⟨q.1, by
                have := q.2; simp only [List.length_cons]; omega⟩)
            else some ⟨r.1, by simp only [List.length_cons]; omega⟩
      else if (headKind l == .dot || headKind l == .colonColon) && secondKind l == .ident then
        have := length_tail_le l
        (scanName l.tail).map (fun q => ⟨q.1, by have := q.2; simp only [List.length_cons]; omega⟩)
      else some ⟨l, Nat.lt_succ_self _⟩
    else none
termination_by 4 * l.length

def scanArguments (l : List Item) : Option (After l) :=
  match l with
  | [] => none
  | i :: l =>
    if i.kind == .comma then
      (scanArguments l).map (fun r => ⟨r.1, Nat.lt_succ_of_lt r.2⟩)
    else if i.kind == .gt then some ⟨l, Nat.lt_succ_self _⟩
    else
      match scanType (i :: l) with
      | none => none
      | some ⟨[], _⟩ => none
      | some ⟨j :: m, h⟩ =>
        have : m.length + 1 < l.length + 1 := h
        if j.kind == .comma then
          (scanArguments m).map (fun r => ⟨r.1, by
            have := r.2; simp only [List.length_cons]; omega⟩)
        else if j.kind == .gt then some ⟨m, by simp only [List.length_cons]; omega⟩
        else none
termination_by 4 * l.length + 2

end

/-- The items after the parenthesis that closes `depth` more ones than were opened since. -/
def scanParen (depth : Nat) : List Item → Option (List Item)
  | [] => none
  | i :: l =>
    match i.kind with
    | .lParen => scanParen (depth + 1) l
    | .rParen =>
      match depth with
      | 0 => some l
      | d + 1 => scanParen d l
    | .semicolon | .lBrace | .rBrace => none
    | _ => scanParen depth l

namespace View

def startsType (v : View) (n : Nat) : Bool :=
  v.kindAt n == .ident || (v.kindAt n).isPredefinedType

def kindStartsOperand (k : Kind) : Bool :=
  k.isLiteral || k.isPredefinedType ||
    k matches .ident | .lParen | .thisKw | .baseKw | .newKw | .typeofKw | .sizeofKw | .defaultKw
      | .checkedKw | .uncheckedKw | .stackallocKw

def afterType (v : View) (n : Nat) : Option (List Item) :=
  (scanType (v.rest.drop n)).map (·.1)

def argumentsFollow (v : View) : Bool :=
  v.kindAt 1 == .lt && (scanArguments (v.rest.drop 2)).isSome

def startsMember (v : View) : Bool :=
  if v.kindAt 0 == .lBracket then true
  else
    let l := v.rest.dropWhile (fun i => i.kind.isModifier && i.kind != .newKw)
    match headKind l with
    | .ident =>
      ((l.head?.any (fun i => i.text == "partial".toList)) &&
        (secondKind l matches .classKw | .structKw | .interfaceKw)) || l.length < v.rest.length
    | .classKw | .structKw | .interfaceKw | .enumKw | .delegateKw => true
    | .lBrace => false
    | _ => l.length < v.rest.length

def startsUsingStatement (v : View) : Bool :=
  v.kindAt 1 == .lParen || (v.afterType 1).any (fun l => headKind l == .ident)

def startsAwait (v : View) : Bool :=
  v.isName 0 "await" && kindStartsOperand (v.kindAt 1)

def startsLocalDeclaration (v : View) : Bool :=
  !(v.startsAwait && v.kindAt 2 != .eq) &&
    (v.afterType 0).any (fun l =>
      headKind l == .ident && secondKind l matches .eq | .semicolon | .comma)

def afterLocalModifiers : List Item → List Item
  | [] => []
  | i :: l =>
    if (i.kind matches .staticKw | .unsafeKw) ||
        (i.kind == .ident && i.text == "async".toList &&
          (headKind l == .ident || (headKind l).isPredefinedType)) then
      afterLocalModifiers l
    else i :: l

def startsLocalFunction (v : View) : Bool :=
  !v.startsAwait &&
    (scanType (afterLocalModifiers v.rest)).any (fun l =>
      headKind l.1 == .ident && secondKind l.1 matches .lParen | .lt)

def queryWords : List String :=
  ["from", "where", "let", "join", "on", "equals", "into", "orderby", "ascending", "descending",
    "select", "group", "by"]

def startsQueryWord (l : List Item) : Bool :=
  l.head?.any (fun i => i.kind == .ident && queryWords.any (fun w => i.text == w.toList))

/-- A parenthesis that opens a cast: a type, its end, and the start of an operand. Inside a query a
word of a clause ends the operand before. -/
def startsCast (v : View) : Bool :=
  match v.afterType 1 with
  | none => false
  | some l =>
    headKind l == .rParen && !(v.queries > 0 && startsQueryWord l.tail) &&
      (kindStartsOperand (secondKind l) ||
        (if (v.kindAt 1).isPredefinedType then
          secondKind l matches .minus | .plus | .bang | .tilde | .plusPlus | .minusMinus | .star | .amp
        else secondKind l matches .bang | .tilde))

def startsAsyncLambda (v : View) : Bool :=
  v.isName 0 "async" && v.kindAt 1 matches .ident | .lParen

def startsLambda (v : View) : Bool :=
  let l := if v.startsAsyncLambda then v.rest.tail else v.rest
  match headKind l with
  | .ident => secondKind l == .fatArrow
  | .lParen => (scanParen 0 l.tail).any (fun r => headKind r == .fatArrow)
  | _ => false

def startsQuery (v : View) : Bool :=
  v.isName 0 "from" &&
    ((v.kindAt 1 == .ident && v.kindAt 2 == .inKw) ||
      (v.afterType 1).any (fun l => headKind l == .ident && secondKind l == .inKw))

def startsGenericName (v : View) : Bool :=
  v.kindAt 1 == .lt &&
    (scanArguments (v.rest.drop 2)).any (fun l =>
      headKind l.1 matches .lParen | .rParen | .rBracket | .rBrace | .colon | .semicolon | .comma | .dot
        | .questionDot | .eqEq | .bangEq | .eof)

def startsArgumentDeclaration (v : View) : Bool :=
  (v.afterType 0).any (fun l =>
    headKind l == .ident && secondKind l matches .comma | .rParen)

def startsTypedParameter (v : View) : Bool :=
  (v.afterType 0).any (fun l => headKind l == .ident)

def afterQualifiers : List Item → List Item
  | i :: j :: l => if i.kind == .ident && j.kind == .dot then afterQualifiers l else i :: j :: l
  | l => l

def startsAccessorEvent (v : View) : Bool :=
  let l := afterQualifiers ((v.afterType 1).getD (v.rest.drop 1))
  secondKind l == .lBrace

end View

inductive TypedMember where
  | indexer | operator | method | property | explicitIndexer | field
  deriving DecidableEq

def namedMember (last : Kind) : List Item → TypedMember
  | i :: j :: l =>
    if i.kind == .dot && j.kind matches .ident | .thisKw then namedMember j.kind l
    else ofKind last i.kind
  | [i] => ofKind last i.kind
  | [] => .field
where
  ofKind (last : Kind) : Kind → TypedMember
    | .lParen | .lt => .method
    | .lBrace | .fatArrow => .property
    | .lBracket => if last == .thisKw then .explicitIndexer else .field
    | _ => .field

def View.typedMember (v : View) : TypedMember :=
  let l := (v.afterType 0).getD (v.rest.drop 1)
  match headKind l with
  | .thisKw => .indexer
  | .operatorKw => .operator
  | .ident => namedMember .ident l.tail
  | _ => .field

namespace View

def startsShiftRight (v : View) : Bool :=
  v.kindAt 0 == .gt && v.kindAt 1 == .gt && v.rest.head?.any (·.joined)

def startsShiftAssign (v : View) : Bool :=
  v.kindAt 0 == .gt && v.kindAt 1 == .gtEq && v.rest.head?.any (·.joined)

def precedence? (v : View) : Option Nat :=
  if v.startsShiftRight then some 8
  else if v.startsShiftAssign then none
  else
    match v.kindAt 0 with
    | .pipePipe => some 1
    | .ampAmp => some 2
    | .pipe => some 3
    | .caret => some 4
    | .amp => some 5
    | .eqEq | .bangEq => some 6
    | .lt | .gt | .ltEq | .gtEq | .isKw | .asKw => some 7
    | .shl => some 8
    | .plus | .minus => some 9
    | .star | .slash | .percent => some 10
    | _ => none

end View

end Lintel.Grammar
