import Lintel.Config.Load
import Lintel.Rule

namespace Lintel

structure RuleSelection where
  settings : Settings := {}
  rules : List Rule
  only : Option (List String) := none
  exempts : Option (Declaration → Bool) := none

structure Registry where
  settings : Settings
  rules : List Rule
  exempts : Declaration → Bool

namespace RuleSelection

def admits (s : RuleSelection) (r : Rule) : Bool :=
  s.settings.isEnabled r.id && s.only.all (·.contains r.id)

def firstOfEach (rs : List Rule) : List Rule :=
  rs.foldl (fun kept r => if kept.any (·.id == r.id) then kept else kept ++ [r]) []

def byPatterns (ps : List (Text → Bool)) (d : Declaration) : Bool :=
  d.enclosing.any (fun name => ps.any (fun occurs => occurs name))

def exemptions (s : RuleSelection) (compile : String → Option (Text → Bool)) : Except Failure (Declaration → Bool) :=
  match s.exempts with
  | some f => .ok f
  | none =>
    match s.settings.patterns.mapM compile with
    | some ps => .ok (byPatterns ps)
    | none => .error (.config "Invalid pattern")

def build (s : RuleSelection) (compile : String → Option (Text → Bool) := Pattern.compile?) :
    Except Failure Registry := do
  let exempts ← s.exemptions compile
  return { settings := s.settings, rules := firstOfEach (s.rules.filter s.admits), exempts }

end RuleSelection

namespace Registry

def get? (g : Registry) (id : String) : Option Rule :=
  g.rules.find? (·.id == id)

def ids (g : Registry) : List String :=
  g.rules.map (·.id)

/-- The rules for a kind in the order in which they run, once for each time they name it. -/
def rulesFor (g : Registry) (k : Kind) : List Rule :=
  g.rules.flatMap (fun r => (r.kinds.filter (· == k)).map (fun _ => r))

def severity (g : Registry) (id : String) : Severity :=
  (g.settings.severity? id).getD .warn

def message? (g : Registry) (f : Finding) : Option Text :=
  (g.get? f.rule).map (fun r => Message.format f.args r.message.toList)

def describe (g : Registry) : String :=
  "RuleRegistry \x7b rules: [" ++ ", ".intercalate (g.ids.map Rule.quoted) ++ "] \x7d"

end Registry

end Lintel
