import Lintel.Diff.Operation

namespace Lintel.Diff

structure Place where
  before : List Operation
  here : Operation
  after : List Operation

namespace Place

def growAfter (after : List Operation) (oldStart newStart n : Nat) : List Operation :=
  match after with
  | e :: rest =>
    if e.tag == .equal then ((e.moveUp n).resize (· + n)) :: rest
    else .equal oldStart newStart n :: after
  | [] => [.equal oldStart newStart n]

def growBefore (before : List Operation) (oldStart newStart n : Nat) : List Operation :=
  match before with
  | e :: rest =>
    if e.tag == .equal then e.resize (· + n) :: rest else .equal oldStart newStart n :: before
  | [] => [.equal oldStart newStart n]

def withoutEmpty (o : Operation) (rest : List Operation) : List Operation :=
  if o.isEmpty then rest else o :: rest

def up (old new : List Text) : Nat → Place → Place
  | 0, p => p
  | n + 1, p =>
    match p.before with
    | [] => p
    | q :: rest =>
      match p.here.tag, q.tag with
      | .insert, .equal =>
        let s := commonSuffix (stretch old q.oldStart q.oldLength)
          (stretch new p.here.newStart p.here.newLength)
        if s > 0 then
          up old new n
            { before := withoutEmpty (q.resize (· - s)) rest
              here := p.here.moveUp s
              after := growAfter p.after (q.oldStart + q.oldLength - s)
                (p.here.newStart + p.here.newLength - s) s }
        else p
      | .insert, .insert | .delete, .delete =>
        up old new n { p with before := rest, here := q.resize (· + p.here.extent) }
      | .insert, .delete | .delete, .insert =>
        up old new n { p with before := rest, after := q :: p.after }
      | _, _ => p

def down (old new : List Text) : Nat → Place → Place
  | 0, p => p
  | n + 1, p =>
    match p.after with
    | [] => p
    | q :: rest =>
      match p.here.tag, q.tag with
      | .insert, .equal =>
        let s := commonPrefix (stretch old q.oldStart q.oldLength)
          (stretch new p.here.newStart p.here.newLength)
        if s > 0 then
          down old new n
            { before := growBefore p.before q.oldStart p.here.newStart s
              here := p.here.moveDown s
              after := withoutEmpty ((q.moveDown s).resize (· - s)) rest }
        else p
      | .insert, .insert | .delete, .delete =>
        down old new n { p with here := p.here.resize (· + q.extent), after := rest }
      | .insert, .delete | .delete, .insert =>
        down old new n { p with before := q :: p.before, after := rest }
      | _, _ => p

end Place

def moves (os : List Operation) : Nat :=
  os.foldr (fun o n => o.extent + 1 + n) 1

def tidy (old new : List Text) (tag : Tag) : Nat → List Operation → List Operation → List Operation
  | 0, before, after => before.reverse ++ after
  | _ + 1, before, [] => before.reverse
  | n + 1, before, o :: after =>
    if o.tag == tag then
      let p := Place.up old new (moves before) ⟨before, o, after⟩
      let p := Place.down old new (moves p.after) p
      tidy old new tag n (p.here :: p.before) p.after
    else tidy old new tag n (o :: before) after

/-- Joins neighbouring operations: equal lines with equal lines, and changes with changes. A deletion
and an insertion side by side are a replacement. -/
structure Joined where
  done : List Operation := []
  equal? : Option Operation := none
  delete? : Option Operation := none
  insert? : Option Operation := none

namespace Joined

def flushEqual (j : Joined) : Joined :=
  { j with done := j.equal?.toList ++ j.done, equal? := none }

def flushChange (j : Joined) : Joined :=
  let change : Option Operation :=
    match j.delete?, j.insert? with
    | some d, some i => some ⟨.replace, d.oldStart, d.oldLength, i.newStart, i.newLength⟩
    | d, i => d.or i
  { j with done := change.toList ++ j.done, delete? := none, insert? := none }

def grow (o : Option Operation) (next : Operation) : Option Operation :=
  match o with
  | none => some next
  | some o => some (o.resize (· + next.extent))

def add (j : Joined) (o : Operation) : Joined :=
  match o.tag with
  | .equal => let j := j.flushChange; { j with equal? := grow j.equal? o }
  | .delete => let j := j.flushEqual; { j with delete? := grow j.delete? o }
  | .insert => let j := j.flushEqual; { j with insert? := grow j.insert? o }
  | .replace => let j := j.flushEqual.flushChange; { j with done := o :: j.done }

end Joined

def join (os : List Operation) : List Operation :=
  (os.foldl Joined.add {}).flushEqual.flushChange.done.reverse

def compact (old new : List Text) (os : List Operation) : List Operation :=
  let os := tidy old new .delete (4 * os.length + 4) [] os
  let os := tidy old new .insert (4 * os.length + 4) [] os
  join os

end Lintel.Diff
