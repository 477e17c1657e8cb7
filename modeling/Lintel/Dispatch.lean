import Lintel.Registry

namespace Lintel

structure Dispatch where
  registry : Registry
  only : Option (List String) := none

namespace Dispatch

def interval (d : Dispatch) : Nat :=
  max d.registry.settings.interval 1

def rulesFor (d : Dispatch) (k : Kind) : List Rule :=
  (d.registry.rulesFor k).filter (fun r => d.only.all (·.contains r.id))

def runCheck (c : CheckContext) (z : Zipper) (r : Rule) : Except Failure Verdict :=
  match r.check c z with
  | .ok v => .ok v
  | .error (.failure .cancelled) => .error .cancelled
  | .error (.failure (.fault rule location message)) => .error (.fault rule location message)
  | .error a => .error (.fault r.id (c.source.location z.span) a.message)

def visit (d : Dispatch) (source : Source) (z : Zipper) : Except Failure (List Finding) := do
  let verdicts ← (d.rulesFor z.kind).mapM (runCheck ⟨source, d.registry.exempts⟩ z)
  return verdicts.flatMap (·.findings)

inductive Run where
  | active (pending : List Finding) (ahead : List Zipper) (visited : Nat)
  | over

def start (source : Source) : Run :=
  .active [] (Zipper.ofRoot source.tree).preorder 0

def polls (d : Dispatch) (visited : Nat) : Bool :=
  visited % d.interval == 0

def advance (d : Dispatch) (source : Source) (cancelled : Bool) :
    Nat → List Zipper → Option (Except Failure Finding) × Run
  | visited, [] =>
    if cancelled && d.polls visited then (some (.error .cancelled), .over) else (none, .over)
  | visited, z :: zs =>
    if cancelled && d.polls visited then (some (.error .cancelled), .over)
    else
      match d.visit source z with
      | .error f => (some (.error f), .over)
      | .ok [] => advance d source cancelled (visited + 1) zs
      | .ok (f :: fs) => (some (.ok f), .active fs zs (visited + 1))

def next (d : Dispatch) (source : Source) (cancelled : Bool) :
    Run → Option (Except Failure Finding) × Run
  | .active (f :: fs) ahead visited => (some (.ok f), .active fs ahead visited)
  | .active [] ahead visited => d.advance source cancelled visited ahead
  | .over => (none, .over)

def collectFrom (d : Dispatch) (source : Source) (cancelled : Bool) :
    Nat → List Zipper → Except Failure (List Finding)
  | visited, [] => if cancelled && d.polls visited then .error .cancelled else .ok []
  | visited, z :: zs =>
    if cancelled && d.polls visited then .error .cancelled
    else do
      let found ← d.visit source z
      let rest ← collectFrom d source cancelled (visited + 1) zs
      return found ++ rest

def collect (d : Dispatch) (source : Source) (cancelled : Bool) : Except Failure (List Finding) :=
  d.collectFrom source cancelled 0 (Zipper.ofRoot source.tree).preorder

def collectPrimary (d : Dispatch) (source : Source) (cancelled : Bool) :
    Except Failure (List Finding) :=
  (d.collect source cancelled).map (·.filter (!·.auxiliary))

end Dispatch

end Lintel
