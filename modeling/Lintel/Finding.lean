import Lintel.Message

namespace Lintel

structure Finding where
  rule : String
  span : Span
  args : List Text := []
  secondary : List Span := []
  /-- A mark that goes with another finding; it is neither shown nor fixed. -/
  auxiliary : Bool := false
  deriving DecidableEq, Inhabited

inductive LeftReason where
  | conflict (other : String)
  | vanished
  | notApplicable (reason : String)
  | noFix
  | notIdempotent
  | passLimit
  deriving DecidableEq

namespace LeftReason

def message : LeftReason → String
  | conflict other => s!"conflicts with a fix for {other}"
  | vanished => "fix target vanished"
  | notApplicable reason => s!"not applicable: {reason}"
  | noFix => "rule has no fix"
  | notIdempotent => "fix is not idempotent"
  | passLimit => "fix pass limit reached"

end LeftReason

structure Leftover where
  finding : Finding
  reason : LeftReason
  deriving DecidableEq

end Lintel
