namespace Lintel

inductive Severity where
  | off | info | warn | error
  deriving DecidableEq

namespace Severity

def name : Severity → String
  | off => "off"
  | info => "info"
  | warn => "warn"
  | error => "error"

def ofName? (s : String) : Option Severity :=
  [off, info, warn, error].find? (fun v => v.name == s)

end Severity

abbrev Severities := List (String × Severity)

namespace Severities

def get? (rule : String) (s : Severities) : Option Severity :=
  (s.find? (·.1 == rule)).map (·.2)

def put (s : Severities) (rule : String) (v : Severity) : Severities :=
  if s.any (·.1 == rule) then s.map (fun e => if e.1 == rule then (rule, v) else e)
  else s ++ [(rule, v)]

def putNew (s : Severities) (e : String × Severity) : Severities :=
  if s.any (·.1 == e.1) then s else s ++ [e]

end Severities

structure ExemptionSettings where
  typeNamePatterns : Option (List String) := none
  deriving DecidableEq

structure DispatchSettings where
  /-- How many elements are visited between two looks at whether to stop. -/
  interval : Option Nat := none
  deriving DecidableEq

structure FixSettings where
  maxPasses : Option Nat := none
  verify : Option Bool := none
  deriving DecidableEq

structure Settings where
  rules : Option Severities := none
  exemptions : Option ExemptionSettings := none
  dispatch : Option DispatchSettings := none
  fix : Option FixSettings := none
  deriving DecidableEq

namespace Settings

def severity? (s : Settings) (rule : String) : Option Severity :=
  s.rules.bind (Severities.get? rule)

def isEnabled (s : Settings) (rule : String) : Bool :=
  s.severity? rule != some .off

def patterns (s : Settings) : List String :=
  (s.exemptions.bind (·.typeNamePatterns)).getD []

def interval (s : Settings) : Nat :=
  (s.dispatch.bind (·.interval)).getD 1024

def maxPasses (s : Settings) : Nat :=
  (s.fix.bind (·.maxPasses)).getD 3

def verifies (s : Settings) : Bool :=
  (s.fix.bind (·.verify)).getD true

def withRule (s : Settings) (rule : String) (v : Severity) : Settings :=
  { s with rules := some ((s.rules.getD []).put rule v) }

end Settings

end Lintel
