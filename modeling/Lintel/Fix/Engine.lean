import Lintel.Diff.Unified
import Lintel.Fix.Consistency

namespace Lintel

inductive Unfixed where
  | notApplicable (rule : String) (reason : String)
  | failure (f : Failure)
  deriving DecidableEq

namespace Unfixed

def message : Unfixed → String
  | notApplicable rule reason => (FixRefusal.notApplicable rule reason).message
  | failure f => f.message

end Unfixed

structure FixEngine where
  registry : Registry
  parse : Text → Except Failure Tree := fun t => .ok (Lintel.parse t).tree
  cancelled : Bool := false
  limit : Option Nat := none

structure FixOutcome where
  source : Source
  passes : List Revision
  leftovers : List Leftover

namespace FixOutcome

def isChanged (o : FixOutcome) : Bool :=
  o.passes.any (·.isChanged)

def fixedCount (o : FixOutcome) : Nat :=
  o.passes.foldr (fun p n => p.applied.length + n) 0

def defects (o : FixOutcome) : List Failure :=
  o.leftovers.filterMap fun l =>
    let location := o.source.location l.finding.span
    match l.reason with
    | .conflict other => some (.conflict l.finding.rule other location)
    | .notIdempotent => some (.notIdempotent l.finding.rule location)
    | _ => none

def diff (o : FixOutcome) (old : Source) : Text :=
  Diff.unified old.text o.source.text (old.path.getD "<source>")

end FixOutcome

namespace FixEngine

def maxPasses (e : FixEngine) : Nat :=
  max (e.limit.getD e.registry.settings.maxPasses) 1

def fixOf? (e : FixEngine) (f : Finding) : Option (Tree → Finding → Except FixRefusal Edit) :=
  (e.registry.get? f.rule).bind (·.fix?)

def runFix (source : Source) (f : Finding) (fix : Tree → Finding → Except FixRefusal Edit) :
    Except Unfixed Edit :=
  match fix source.tree f with
  | .ok e => .ok e
  | .error (.notApplicable rule reason) => .error (.notApplicable rule reason)
  | .error (.abort (.failure .cancelled)) => .error (.failure .cancelled)
  | .error (.abort (.failure (.fault rule location message))) =>
    .error (.failure (.fault rule location message))
  | .error (.abort a) => .error (.failure (.fault f.rule (source.location f.span) a.message))

def apply (e : FixEngine) (source : Source) (edits : List Edit) : Except Failure Revision :=
  match Batch.apply source edits e.cancelled with
  | .ok r => .ok r
  | .error (.failure f) => .error f
  | .error (.crash m) =>
    .error (.internal s!"panic while folding edits: {(Abort.crash m).message}")

def fixOne (e : FixEngine) (source : Source) (f : Finding) : Except Unfixed Source :=
  match e.fixOf? f with
  | none => .error (.notApplicable f.rule "rule has no fix")
  | some fix =>
    if f.auxiliary then .error (.notApplicable f.rule "auxiliary finding")
    else do
      let edit ← runFix source f fix
      let r ← (e.apply source [edit]).mapError .failure
      match r.leftovers with
      | l :: _ => .error (.notApplicable f.rule l.reason.message)
      | [] => return r.source

def editsFor (e : FixEngine) (source : Source) :
    List Finding → Except Failure (List Edit × List Leftover)
  | [] => .ok ([], [])
  | f :: fs =>
    match e.fixOf? f with
    | none => do
      let (edits, skipped) ← editsFor e source fs
      return (edits, ⟨f, .noFix⟩ :: skipped)
    | some fix =>
      match runFix source f fix with
      | .error (.failure failure) => .error failure
      | .error (.notApplicable _ reason) => do
        let (edits, skipped) ← editsFor e source fs
        return (edits, ⟨f, .notApplicable reason⟩ :: skipped)
      | .ok edit => do
        let (edits, skipped) ← editsFor e source fs
        return (edit :: edits, skipped)

def withdraw (r : Revision) (f : Finding) : Revision :=
  { r with applied := r.applied.filter (· != f) }.leave f .notIdempotent

def verified (e : FixEngine) (source : Source) (r : Revision) : Except Failure Revision := do
  let c : Consistency := { registry := e.registry, parse := e.parse, cancelled := e.cancelled }
  let issues ← c.check source r
  match Consistency.mismatch? issues with
  | some i => throw (i.toFailure source)
  | none => return (issues.filterMap (·.fixed?)).foldl withdraw r

def fixBatch (e : FixEngine) (source : Source) (fs : List Finding) : Except Failure Revision := do
  let (edits, skipped) ← e.editsFor source (fs.filter (!·.auxiliary))
  let r ← e.apply source edits
  let r := { r with leftovers := r.leftovers ++ skipped }
  if e.registry.settings.verifies && r.isChanged then e.verified source r else return r

/-- The state between two passes. All spans are of the current tree. -/
structure Pass where
  source : Source
  findings : List Finding
  done : List Revision := []
  blocked : List (String × Span) := []
  left : List (String × Span × LeftReason) := []

namespace Pass

def isBlocked (p : Pass) (f : Finding) : Bool :=
  p.blocked.any (fun b => b.1 == f.rule && b.2.meets f.span)

def revise (p : Pass) (r : Revision) : Pass :=
  let mapped := p.blocked.map (fun b => (b.1, r.offsets.mapSpan b.2))
  let place (l : Leftover) := (l.finding.rule, r.offsets.mapSpan l.finding.span)
  { source := r.source
    findings := p.findings
    done := p.done ++ [r]
    blocked := mapped ++ (r.leftovers.filter (·.reason == .notIdempotent)).map place
    left := (r.leftovers.filter (·.reason != .notIdempotent)).map fun l =>
      (l.finding.rule, r.offsets.mapSpan l.finding.span, l.reason) }

end Pass

def fixable (e : FixEngine) (p : Pass) : List Finding :=
  p.findings.filter (fun f => (e.fixOf? f).isSome && !p.isBlocked f)

def passes (e : FixEngine) : Nat → Pass → Except Failure Pass
  | 0, p => .ok p
  | n + 1, p =>
    if (e.fixable p).isEmpty then .ok p
    else do
      let r ← e.fixBatch p.source (e.fixable p)
      let p := p.revise r
      if r.isChanged then
        let findings ← ({ registry := e.registry } : Dispatch).collectPrimary p.source e.cancelled
        passes e n { p with findings }
      else return p

def reason (e : FixEngine) (p : Pass) (f : Finding) : LeftReason :=
  if (e.fixOf? f).isNone then .noFix
  else if p.isBlocked f then .notIdempotent
  else ((p.left.find? (fun l => l.1 == f.rule && l.2.1 == f.span)).map (·.2.2)).getD .passLimit

def fixAll (e : FixEngine) (source : Source) : Except Failure FixOutcome := do
  let findings ← ({ registry := e.registry } : Dispatch).collectPrimary source e.cancelled
  let p ← e.passes e.maxPasses { source, findings }
  return { source := p.source
           passes := p.done
           leftovers := p.findings.map (fun f => ⟨f, e.reason p f⟩) }

end FixEngine

end Lintel
