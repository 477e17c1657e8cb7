import Lintel.Edit.Fold

/-!
Making a batch of edits. Edits that conflict are left out, and so are edits that find nothing to change;
the parts of the others are made from right to left, so that none moves one still to be made.
-/

namespace Lintel.Batch

def noteRival (slots : List (Option String)) (i : Nat) (rule : String) : List (Option String) :=
  slots.modify i (·.or (some rule))

def compareWith (x : Edit × Nat) (slots : List (Option String)) (y : Edit × Nat) : List (Option String) :=
  if x.1.conflicts y.1 then noteRival (noteRival slots x.2 y.1.rule) y.2 x.1.rule else slots

def compareAll : List (Edit × Nat) → List (Option String) → List (Option String)
  | [], slots => slots
  | x :: rest, slots => compareAll rest (rest.foldl (compareWith x) slots)

def conflictSlots (edits : List Edit) : List (Option String) :=
  compareAll edits.zipIdx (List.replicate edits.length none)

structure Triage where
  accepted : List Edit := []
  result : Revision

namespace Triage

def leave (t : Triage) (e : Edit) (reason : LeftReason) : Triage :=
  { t with result := t.result.leave e.finding reason }

def judge (root : Tree) (t : Triage) (x : Edit × Option String) : Triage :=
  match x.2 with
  | some rule => t.leave x.1 (.conflict rule)
  | none =>
    if x.1.parts.isEmpty then t.leave x.1 (.notApplicable "edit has no parts")
    else if x.1.parts.all (fun p => (p.resolve root 0).toOption.isSome) then
      { t with accepted := t.accepted ++ [x.1] }
    else { t with result := { t.result with needsRetry := true } }.leave x.1 .vanished

end Triage

def triage (source : Source) (edits : List Edit) : Triage :=
  (edits.zip (conflictSlots edits)).foldl (Triage.judge source.tree) { result := { source } }

/-- Parts further right come first, and of those that start together the insertion. -/
def rightmost (a b : String × Part) : Bool :=
  b.2.span.start < a.2.span.start ||
    (a.2.span.start == b.2.span.start && a.2.span.stop ≤ b.2.span.stop)

def overlap? : List (String × Part) → Option (Span × Span)
  | a :: b :: rest =>
    let later := a.2.span
    let earlier := b.2.span
    if earlier.stop ≤ later.start || (later.start == earlier.start && later.isEmpty) then
      overlap? (b :: rest)
    else some (later, earlier)
  | _ => none

structure Progress where
  tree : Tree
  made : List Applied := []
  inserted : Option (Nat × Nat) := none

def Progress.shift (g : Progress) (start : Nat) : Nat :=
  match g.inserted with
  | some (offset, n) => if offset == start then n else 0
  | none => 0

def step (g : Progress) (x : String × Part) : Except Failure Progress := do
  let (rule, part) := x
  let shift := g.shift part.span.start
  let target ← match part.resolve g.tree shift with
    | .ok t => .ok t
    | .error u =>
      .error (Failure.internal s!"validated edit for {rule} failed to resolve: {u.message}")
  match part.fold target with
  | none => .error (Failure.internal "edit part resolved to a target of the wrong shape")
  | some (tree, text) =>
    return { tree
             made := ⟨rule, part.span, text⟩ :: g.made
             inserted :=
               if part.span.isEmpty then some (part.span.start, shift + text.size) else g.inserted }

def partsOf (edits : List Edit) : List (String × Part) :=
  (edits.flatMap (fun e => e.parts.map (fun p => (e.rule, p)))).mergeSort rightmost

def deltas (made : List Applied) : OffsetMap :=
  .ofDeltas (made.map (fun a => ⟨a.span, a.replacement.size⟩))

def apply (source : Source) (edits : List Edit) (cancelled : Bool) : Except Abort Revision := do
  if edits.isEmpty then return { source }
  let t := triage source edits
  if cancelled then throw (.failure .cancelled)
  if t.accepted.isEmpty then return t.result
  let parts := partsOf t.accepted
  if let some (later, earlier) := overlap? parts then
    throw (.crash (some
      s!"overlapping edit parts reached the folding pass: {earlier.render} and {later.render}"))
  match parts.foldlM step { tree := source.tree } with
  | .error f => throw (.failure f)
  | .ok g =>
    return { t.result with
      source := { source with tree := g.tree }
      applied := t.accepted.map (·.finding)
      edits := g.made
      offsets := deltas g.made }

end Lintel.Batch
