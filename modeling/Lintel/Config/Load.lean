import Lintel.Config.Layer
import Lintel.Document.Toml
import Lintel.Failure
import Lintel.Pattern.Parse

namespace Lintel

inductive ConfigFormat where
  | toml | json
  deriving DecidableEq

namespace ConfigFormat

def read? : ConfigFormat → Text → Option Document.Value
  | toml, t => Document.Toml.read? t
  | json, t => Document.Json.read? t

def isVoid : ConfigFormat → Document.Value → Bool
  | json, .null => true
  | toml, .list [] | toml, .table [] => true
  | _, _ => false

def fits : ConfigFormat → Nat → Nat → Bool
  | toml, values, fields => fields ≤ values
  | json, values, fields => values == fields

/-- Members of a TOML table have no order of their own; they come sorted. -/
def arrange (f : ConfigFormat) (s : Severities) : Severities :=
  match f with
  | toml => s.mergeSort (fun a b => a.1 ≤ b.1)
  | json => s

def errorText : ConfigFormat → String
  | toml => "TOML parsing error"
  | json => "JSON parsing error"

end ConfigFormat

namespace Settings

open Document (Value)

def fields? (f : ConfigFormat) (names : List String) : Value → Option (List (Option Value))
  | .table ms =>
    let keys := ms.map (·.1)
    if decide keys.Nodup && keys.all names.contains then
      some (names.map fun k => (ms.find? (·.1 == k)).map (·.2))
    else none
  | .list vs =>
    if f.fits vs.length names.length then some ((vs.take names.length).map some) else none
  | _ => none

def optional? (decode : Value → Option α) : Option Value → Option (Option α)
  | none | some .null => some none
  | some v => (decode v).map some

def nat? : Value → Option Nat
  | .nat n => if n < UInt64.size then some n else none
  | _ => none

def bool? : Value → Option Bool
  | .bool b => some b
  | _ => none

def text? : Value → Option String
  | .text s => some s
  | _ => none

def texts? : Value → Option (List String)
  | .list vs => vs.mapM text?
  | _ => none

def severityOf? (f : ConfigFormat) : Value → Option Severity
  | .text s => Severity.ofName? s
  | .table [(s, v)] => if f.isVoid v then Severity.ofName? s else none
  | _ => none

/-- Adds a member; a rule given again keeps its place and takes the later severity. -/
def addSeverity (f : ConfigFormat) (s : Severities) (m : String × Value) : Option Severities :=
  (severityOf? f m.2).map (s.put m.1)

def severities? (f : ConfigFormat) : Value → Option Severities
  | .table ms => (ms.foldlM (addSeverity f) []).map f.arrange
  | _ => none

def exemptions? (f : ConfigFormat) (v : Value) : Option ExemptionSettings := do
  match ← fields? f ["typeNamePatterns"] v with
  | [patterns] => return { typeNamePatterns := ← optional? texts? patterns }
  | _ => none

def dispatch? (f : ConfigFormat) (v : Value) : Option DispatchSettings := do
  match ← fields? f ["cancellationCheckInterval"] v with
  | [interval] => return { interval := ← optional? nat? interval }
  | _ => none

def fix? (f : ConfigFormat) (v : Value) : Option FixSettings := do
  match ← fields? f ["maxPasses", "verifyIdempotence"] v with
  | [passes, verify] => return { maxPasses := ← optional? nat? passes, verify := ← optional? bool? verify }
  | _ => none

def ofValue? (f : ConfigFormat) (v : Value) : Option Settings := do
  match ← fields? f ["rules", "exemptions", "dispatch", "fix"] v with
  | [rules, exemptions, dispatch, fix] =>
    return { rules := ← optional? (severities? f) rules
             exemptions := ← optional? (exemptions? f) exemptions
             dispatch := ← optional? (dispatch? f) dispatch
             fix := ← optional? (fix? f) fix }
  | _ => none

def validate (valid : String → Bool) (s : Settings) : Except Failure Unit :=
  if !s.patterns.all valid then throw (.config "Invalid pattern")
  else if s.interval == 0 then
    throw (.config "dispatch.cancellationCheckInterval must be at least 1")
  else if s.maxPasses == 0 then throw (.config "fix.maxPasses must be at least 1")
  else .ok ()

def load (f : ConfigFormat) (t : Text) (valid : String → Bool := Pattern.isValid) : Except Failure Settings :=
  match (f.read? t).bind (ofValue? f) with
  | none => throw (.config f.errorText)
  | some s => do
    s.validate valid
    return s

def loadAll (ss : List Settings) (valid : String → Bool := Pattern.isValid) : Except Failure Settings := do
  (mergeAll ss).validate valid
  return mergeAll ss

def toValue (s : Settings) : Value :=
  .table [
    ("rules", .ofOption (fun r => .table (r.map fun e => (e.1, .text e.2.name))) s.rules),
    ("exemptions", .ofOption (fun e => .table [
      ("typeNamePatterns", .ofOption (fun ps => .list (ps.map .text)) e.typeNamePatterns)]) s.exemptions),
    ("dispatch", .ofOption (fun d => .table [
      ("cancellationCheckInterval", .ofOption .nat d.interval)]) s.dispatch),
    ("fix", .ofOption (fun x => .table [
      ("maxPasses", .ofOption .nat x.maxPasses),
      ("verifyIdempotence", .ofOption .bool x.verify)]) s.fix)]

end Settings

end Lintel
