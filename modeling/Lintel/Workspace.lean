import Lintel.Document.Json
import Lintel.Fix.Engine

namespace Lintel

structure LintReport where
  path : Option String
  findings : List FindingRecord := []
  failure : Option Failure := none

namespace LintReport

open Document (Value)

def recordValue (r : FindingRecord) : Value :=
  .table [
    ("ruleId", .text r.rule), ("startLine", .nat r.start.line), ("startColumn", .nat r.start.column),
    ("endLine", .nat r.stop.line), ("endColumn", .nat r.stop.column),
    ("messageArguments", .list (r.args.map fun a => .text (String.ofList a)))]

def toValue (r : LintReport) : Value :=
  .table [
    ("path", .ofOption .text r.path),
    ("findings", .list (r.findings.map recordValue)),
    ("error", .ofOption (fun f => .text f.message) r.failure)]

end LintReport

structure FixReport where
  path : Option String
  outcome : Except Failure FixOutcome

structure Progress where
  completed : Nat
  total : Nat
  path : Option String
  deriving DecidableEq

structure Workspace where
  registry : Registry
  cancelled : Bool := false

namespace Workspace

def lint (w : Workspace) (s : Source) : LintReport :=
  match ({ registry := w.registry } : Dispatch).collectPrimary s w.cancelled with
  | .ok fs => { path := s.path, findings := fs.map s.record }
  | .error f => { path := s.path, failure := some f }

def fix (w : Workspace) (s : Source) : FixReport :=
  ⟨s.path, ({ registry := w.registry, cancelled := w.cancelled } : FixEngine).fixAll s⟩

def each (w : Workspace) (work : Source → α) (ss : List Source) : Except Failure (List α) :=
  if w.cancelled then .error .cancelled else .ok (ss.map work)

def lintAll (w : Workspace) (ss : List Source) : Except Failure (List LintReport) :=
  w.each w.lint ss

def fixAll (w : Workspace) (ss : List Source) : Except Failure (List FixReport) :=
  w.each w.fix ss

/-- The file after fixing, or as it was if fixing failed and others can go on. -/
def settled (s : Source) (r : FixReport) : Except Failure Source :=
  match r.outcome with
  | .ok o => .ok o.source
  | .error f => if f.isRecoverable then .ok s else .error f

def fixedSources (w : Workspace) (ss : List Source) : Except Failure (List Source) := do
  let reports ← w.fixAll ss
  (ss.zip reports).mapM (fun p => settled p.1 p.2)

def progress (w : Workspace) (ss : List Source) : List Progress :=
  if w.cancelled then []
  else ss.zipIdx.map (fun p => ⟨p.2 + 1, ss.length, p.1.path⟩)

end Workspace

end Lintel
