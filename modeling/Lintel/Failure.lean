import Lintel.Text.Position

namespace Lintel

inductive Failure where
  | fault (rule : String) (location : Location) (message : String)
  | conflict (rule other : String) (location : Location)
  | notIdempotent (rule : String) (location : Location)
  | mismatch (message : String)
  | parse (message : String)
  | config (message : String)
  | cancelled
  | internal (message : String)
  deriving DecidableEq

namespace Failure

def message : Failure → String
  | fault rule location message =>
    s!"Engine fault in rule '{rule}' at {location.render}: {message}"
  | conflict rule other location =>
    s!"Fix conflict between '{rule}' and '{other}' at {location.render}"
  | notIdempotent rule location => s!"Fix for '{rule}' is not idempotent at {location.render}"
  | mismatch message => s!"Rewrite check failed: {message}"
  | parse message => s!"Parse error: {message}"
  | config message => s!"Configuration error: {message}"
  | cancelled => "Operation cancelled"
  | internal message => s!"Internal error: {message}"

def isRecoverable : Failure → Bool
  | fault .. | conflict .. | notIdempotent .. | mismatch _ | parse _ => true
  | config _ | cancelled | internal _ => false

def rule? : Failure → Option String
  | fault rule _ _ | conflict rule _ _ | notIdempotent rule _ => some rule
  | _ => none

end Failure

/-- How a computation ends without a result: with a failure, or abruptly, with a text if there is one. -/
inductive Abort where
  | failure (f : Failure)
  | crash (message : Option String)
  deriving DecidableEq

namespace Abort

def silent : String := "panic with a non-string payload"

def message : Abort → String
  | failure f => f.message
  | crash m => m.getD silent

end Abort

inductive FixRefusal where
  | notApplicable (rule : String) (reason : String)
  | abort (a : Abort)
  deriving DecidableEq

namespace FixRefusal

def message : FixRefusal → String
  | notApplicable rule reason => s!"Fix for '{rule}' not applicable: {reason}"
  | abort a => a.message

end FixRefusal

end Lintel
