import Lintel.Edit.Basic
import Lintel.Syntax.Declaration

namespace Lintel

inductive Verdict where
  | notApplicable
  | clean
  | violations (findings : List Finding)
  deriving DecidableEq

namespace Verdict

def findings : Verdict → List Finding
  | violations fs => fs
  | _ => []

def ofFindings : List Finding → Verdict
  | [] => clean
  | fs => violations fs

end Verdict

structure Declaration where
  kind : Kind
  name : Text
  enclosing : List Text
  deriving DecidableEq

namespace Declaration

def of (z : Zipper) (name : Text) : Declaration :=
  ⟨z.kind, name, z.enclosingTypes⟩

end Declaration

structure CheckContext where
  source : Source
  exempts : Declaration → Bool

structure Rule where
  id : String
  name : String
  message : String
  kinds : List Kind
  check : CheckContext → Zipper → Except Abort Verdict
  fix? : Option (Tree → Finding → Except FixRefusal Edit) := none

namespace Rule

def quoted (s : String) : String :=
  "\"" ++ s ++ "\""

def describe (r : Rule) : String :=
  "Rule \x7b meta: RuleMeta \x7b id: " ++ quoted r.id ++ ", name: " ++ quoted r.name ++
    ", message: " ++ quoted r.message ++ " \x7d, kinds: [" ++
    ", ".intercalate (r.kinds.map (·.name)) ++ "], fixable: " ++
    (if r.fix?.isSome then "true" else "false") ++ " \x7d"

end Rule

end Lintel
