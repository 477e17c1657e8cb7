import Lintel.Document.Value

namespace Lintel.Schema

open Document (Value)

def described (description : String) (rest : List (String × Value)) : Value :=
  .table (("description", .text description) :: rest)

def nullable (type : String) : String × Value :=
  ("type", .list [.text type, .text "null"])

def reference (name : String) : Value :=
  .table [("$ref", .text s!"#/$defs/{name}")]

def optionalSection (description name : String) : Value :=
  described description [("anyOf", .list [reference name, .table [("type", .text "null")]])]

def closedObject (members : List (String × Value)) : List (String × Value) :=
  [("type", .text "object"), ("properties", .table members), ("additionalProperties", .bool false)]

def natural (description : String) : Value :=
  described description [nullable "integer", ("format", .text "uint"), ("minimum", .nat 0)]

def level (name description : String) : Value :=
  described description [("type", .text "string"), ("const", .text name)]

def definitions : List (String × Value) := [
  ("RuleSeverity", described "Rule severity levels" [("oneOf", .list [
    level "off" "Disable the rule",
    level "info" "Informational message",
    level "warn" "Warning (doesn't fail build)",
    level "error" "Error (fails build)"])]),
  ("ExemptionsConfiguration", .table (closedObject [
    ("typeNamePatterns",
      described "Type name patterns whose members are exempt, e.g. \"NativeMethods$\""
        [nullable "array", ("items", .table [("type", .text "string")])])])),
  ("DispatchConfiguration", .table (closedObject [
    ("cancellationCheckInterval",
      natural "Number of syntax elements visited between cancellation checks")])),
  ("FixConfiguration", .table (closedObject [
    ("maxPasses", natural "Maximum number of dispatch and fix passes per file"),
    ("verifyIdempotence",
      described "Verify that fixed findings are not reported again" [nullable "boolean"])]))]

def sections : List (String × Value) := [
  ("rules", described "Severity per rule id, e.g. \x7b \"SA1119\": \"off\" \x7d"
    [nullable "object", ("additionalProperties", reference "RuleSeverity")]),
  ("exemptions",
    optionalSection "Declarations exempt from naming rules" "ExemptionsConfiguration"),
  ("dispatch", optionalSection "Rule dispatch settings" "DispatchConfiguration"),
  ("fix", optionalSection "Fix engine settings" "FixConfiguration")]

def schema : Value :=
  .table ([
    ("$schema", Value.text "https://json-schema.org/draft/2020-12/schema"),
    ("title", Value.text "EngineConfiguration"),
    ("description", Value.text "Immutable engine configuration, built once and shared by reference")] ++
    closedObject sections ++ [("$defs", Value.table definitions)])

end Lintel.Schema
