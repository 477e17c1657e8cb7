import Lintel.Text.Lines

namespace Lintel.Diff

inductive Tag where
  | equal | delete | insert | replace
  deriving DecidableEq

structure Operation where
  tag : Tag
  oldStart : Nat
  oldLength : Nat
  newStart : Nat
  newLength : Nat
  deriving DecidableEq

namespace Operation

def equal (oldStart newStart length : Nat) : Operation :=
  ⟨.equal, oldStart, length, newStart, length⟩

def delete (oldStart length newStart : Nat) : Operation :=
  ⟨.delete, oldStart, length, newStart, 0⟩

def insert (oldStart newStart length : Nat) : Operation :=
  ⟨.insert, oldStart, 0, newStart, length⟩

def isEmpty (o : Operation) : Bool :=
  o.oldLength == 0 && o.newLength == 0

def resize (o : Operation) (f : Nat → Nat) : Operation :=
  match o.tag with
  | .equal | .replace => { o with oldLength := f o.oldLength, newLength := f o.newLength }
  | .delete => { o with oldLength := f o.oldLength }
  | .insert => { o with newLength := f o.newLength }

def moveUp (o : Operation) (n : Nat) : Operation :=
  { o with oldStart := o.oldStart - n, newStart := o.newStart - n }

def moveDown (o : Operation) (n : Nat) : Operation :=
  { o with oldStart := o.oldStart + n, newStart := o.newStart + n }

def extent (o : Operation) : Nat :=
  max o.oldLength o.newLength

end Operation

def commonPrefix : List Text → List Text → Nat
  | x :: xs, y :: ys => if x == y then commonPrefix xs ys + 1 else 0
  | _, _ => 0

def commonSuffix (xs ys : List Text) : Nat :=
  commonPrefix xs.reverse ys.reverse

def stretch (xs : List Text) (start length : Nat) : List Text :=
  (xs.drop start).take length

end Lintel.Diff
