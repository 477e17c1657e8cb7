import Lintel.Config.Settings

namespace Lintel

def mergeOptional (f : α → α → α) : Option α → Option α → Option α
  | some a, some b => some (f a b)
  | some a, none => some a
  | none, b => b

namespace Severities

def merge (a b : Severities) : Severities :=
  b.foldl putNew a

end Severities

def appendNew (a : List String) (s : String) : List String :=
  if a.contains s then a else a ++ [s]

namespace ExemptionSettings

def merge (a b : ExemptionSettings) : ExemptionSettings :=
  ⟨mergeOptional (fun p q => q.foldl appendNew p) a.typeNamePatterns b.typeNamePatterns⟩

end ExemptionSettings

namespace DispatchSettings

def merge (a b : DispatchSettings) : DispatchSettings :=
  ⟨a.interval <|> b.interval⟩

end DispatchSettings

namespace FixSettings

def merge (a b : FixSettings) : FixSettings :=
  ⟨a.maxPasses <|> b.maxPasses, a.verify <|> b.verify⟩

end FixSettings

namespace Settings

def merge (a b : Settings) : Settings :=
  { rules := mergeOptional .merge a.rules b.rules
    exemptions := mergeOptional .merge a.exemptions b.exemptions
    dispatch := mergeOptional .merge a.dispatch b.dispatch
    fix := mergeOptional .merge a.fix b.fix }

def mergeAll (ss : List Settings) : Settings :=
  ss.foldl merge {}

end Settings

end Lintel
