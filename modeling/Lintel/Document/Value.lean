namespace Lintel.Document

inductive Value where
  | null
  | bool (b : Bool)
  | nat (n : Nat)
  /-- A number that is not a natural one; no setting takes it. -/
  | number
  | text (s : String)
  | list (vs : List Value)
  | table (members : List (String × Value))

namespace Value

def ofOption (f : α → Value) : Option α → Value
  | none => null
  | some a => f a

end Value

end Lintel.Document
