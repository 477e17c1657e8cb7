import Lintel.Diff.Operation

/-!
A shortest script between two lists of lines, by meeting in the middle: the furthest points reached
from both ends with the same number of changes are compared on every diagonal until they meet.
-/

namespace Lintel.Diff

abbrev Reach := List (Int × Nat)

def Reach.get (r : Reach) (k : Int) : Nat :=
  (r.lookup k).getD 0

def diagonals (d : Nat) : List Int :=
  (List.range (d + 1)).map (fun (i : Nat) => (d : Int) - 2 * i)

/-- Where a path with `d` changes comes to a diagonal: from the neighbour that reached further. -/
def Reach.enter (r : Reach) (d : Nat) (k : Int) : Nat :=
  if k == -(d : Int) || (k != d && r.get (k - 1) < r.get (k + 1)) then r.get (k + 1)
  else r.get (k - 1) + 1

structure Meeting where
  forward : Reach
  backward : Reach
  point : Option (Nat × Nat) := none

def stepForward (old new : List Text) (d : Nat) (m : Meeting) (k : Int) : Meeting :=
  if m.point.isSome then m
  else
    let delta : Int := (old.length : Int) - new.length
    let x := m.forward.enter d k
    let y := (x - k).toNat
    let far := x + commonPrefix (old.drop x) (new.drop y)
    let forward := (k, far) :: m.forward
    let meets := delta % 2 != 0 && (k - delta).natAbs + 1 ≤ d &&
      old.length ≤ far + m.backward.get (-(k - delta))
    { m with forward, point := if meets then some (x, y) else none }

def stepBackward (old new : List Text) (d : Nat) (m : Meeting) (k : Int) : Meeting :=
  if m.point.isSome then m
  else
    let delta : Int := (old.length : Int) - new.length
    let x := m.backward.enter d k
    let y := (x - k).toNat
    let more :=
      if x < old.length && y < new.length then
        commonSuffix (old.take (old.length - x)) (new.take (new.length - y))
      else 0
    let backward := (k, x + more) :: m.backward
    let meets := delta % 2 == 0 && (k - delta).natAbs ≤ d &&
      old.length ≤ x + more + m.forward.get (-(k - delta))
    { m with backward,
             point := if meets then some (old.length - (x + more), new.length - (y + more)) else none }

def meet (old new : List Text) : Nat → Nat → Meeting → Option (Nat × Nat)
  | 0, _, _ => none
  | n + 1, d, m =>
    let m := (diagonals d).foldl (stepForward old new d) m
    let m := (diagonals d).foldl (stepBackward old new d) m
    match m.point with
    | some p => some p
    | none => meet old new n (d + 1) m

def middle? (old new : List Text) : Option (Nat × Nat) :=
  meet old new ((old.length + new.length + 1) / 2 + 1) 0 ⟨[(1, 0)], [(1, 0)], none⟩

def script : Nat → (oldStart newStart : Nat) → (old new : List Text) → List Operation
  | 0, i, j, old, new => [.delete i old.length j, .insert i j new.length]
  | n + 1, i, j, old, new =>
    let p := commonPrefix old new
    let old := old.drop p
    let new := new.drop p
    let s := commonSuffix old new
    let old := old.take (old.length - s)
    let new := new.take (new.length - s)
    let i' := i + p
    let j' := j + p
    let inner :=
      match old, new with
      | [], [] => []
      | _ :: _, [] => [.delete i' old.length j']
      | [], _ :: _ => [.insert i' j' new.length]
      | _ :: _, _ :: _ =>
        match middle? old new with
        | some (x, y) =>
          script n i' j' (old.take x) (new.take y) ++
            script n (i' + x) (j' + y) (old.drop x) (new.drop y)
        | none => [.delete i' old.length j', .insert i' j' new.length]
    (if p > 0 then [.equal i j p] else []) ++ inner ++
      (if s > 0 then [.equal (i' + old.length) (j' + new.length) s] else [])

end Lintel.Diff
