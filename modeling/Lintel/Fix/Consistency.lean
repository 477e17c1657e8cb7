import Lintel.Dispatch
import Lintel.Edit.Batch

/-!
Checks of a revision: the text differs only where edits were made, it is read back as the tree it came
from, and what was fixed is not found again.
-/

namespace Lintel

def commonLength [BEq α] : List α → List α → Nat
  | a :: as, b :: bs => if a == b then commonLength as bs + 1 else 0
  | _, _ => 0

namespace Applied

def before (a b : Applied) : Bool :=
  a.span.start < b.span.start || (a.span.start == b.span.start && a.span.stop ≤ b.span.stop)

def spliceFrom (t : Text) (cursor : Nat) : List Applied → Text
  | [] => t.dropBytes cursor
  | a :: rest =>
    (t.dropBytes cursor).takeBytes (a.span.start - cursor) ++ a.replacement ++
      spliceFrom t (max cursor a.span.stop) rest

def splice (t : Text) (edits : List Applied) : Text :=
  spliceFrom t 0 (edits.mergeSort before)

end Applied

inductive Issue where
  | notIdempotent (fixed residual : Finding)
  | notLossless (offset : Nat)
  | reparse (detail : String)
  deriving DecidableEq

namespace Issue

def message : Issue → String
  | notIdempotent fixed residual =>
    s!"fix for '{fixed.rule}' left a finding at {residual.span.render}"
  | notLossless offset => s!"rewritten text differs from the applied edits at byte {offset}"
  | reparse detail => s!"rewritten text reparses differently: {detail}"

def toFailure (source : Source) : Issue → Failure
  | notIdempotent fixed residual => .notIdempotent fixed.rule (source.location residual.span)
  | i => .mismatch i.message

def fixed? : Issue → Option Finding
  | notIdempotent fixed _ => some fixed
  | _ => none

end Issue

structure Consistency where
  registry : Registry
  parse : Text → Except Failure Tree := fun t => .ok (Lintel.parse t).tree
  cancelled : Bool := false

namespace Consistency

def lossless? (old : Text) (r : Revision) : Option Issue :=
  let expected := Applied.splice old r.edits
  if expected == r.source.text then none
  else some (.notLossless (commonLength expected.bytes r.source.text.bytes))

def shapeDifference? (expected actual : List Kind) : Option String :=
  let n := commonLength expected actual
  match expected[n]?, actual[n]? with
  | some a, some b => some s!"node #{n} is {a.name}, reparsed as {b.name}"
  | none, none => none
  | _, _ => some s!"{expected.length} nodes rewritten, {actual.length} reparsed"

def reparse? (c : Consistency) (source : Source) : Except Failure (Option Issue) := do
  let tree ← c.parse source.text
  if tree.text != source.text then
    return some (.reparse "parser output does not reproduce the text")
  return (shapeDifference? source.tree.nodeKinds tree.nodeKinds).map .reparse

def residuals (c : Consistency) (r : Revision) : Except Failure (List Issue) := do
  let touched := r.applied.map (·.rule)
  if touched.isEmpty then return []
  let found ← ({ registry := c.registry, only := some touched } : Dispatch).collectPrimary r.source
    c.cancelled
  return r.applied.filterMap fun fixed =>
    let span := r.offsets.mapSpan fixed.span
    (found.find? (fun f => f.rule == fixed.rule && f.span.meets span)).map (.notIdempotent fixed)

def check (c : Consistency) (old : Source) (r : Revision) : Except Failure (List Issue) := do
  let reparsed ← c.reparse? r.source
  let residuals ← c.residuals r
  return (lossless? old.text r).toList ++ reparsed.toList ++ residuals

def mismatch? (issues : List Issue) : Option Issue :=
  issues.find? (·.fixed?.isNone)

def report (issues : List Issue) : String :=
  if issues.isEmpty then "consistent" else "\n".intercalate (issues.map (·.message))

end Consistency

end Lintel
