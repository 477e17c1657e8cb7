import Lintel.Text.Basic

namespace Lintel.Message

def digits? (acc : Nat) : Text → Option Nat
  | [] => some acc
  | c :: cs => if c.isDigit then digits? (10 * acc + (c.toNat - '0'.toNat)) cs else none

/-- A number of at most 64 bits: digits, with an optional plus sign before them. -/
def number? (t : Text) : Option Nat := do
  let ds := match t with
    | '+' :: ds => ds
    | ds => ds
  guard (!ds.isEmpty)
  let n ← digits? 0 ds
  guard (n < UInt64.size)
  return n

def untilBrace : Text → Option (Text × Text)
  | [] => none
  | '\x7d' :: cs => some ([], cs)
  | c :: cs => (untilBrace cs).map (fun p => (c :: p.1, p.2))

theorem untilBrace_length {t : Text} {p : Text × Text} (h : untilBrace t = some p) :
    p.2.length < t.length := by
  induction t generalizing p with
  | nil => simp [untilBrace] at h
  | cons c cs ih =>
    unfold untilBrace at h
    split at h
    · simp at *
    · simp_all
      subst h
      simp
    · rename_i heq
      simp only [List.cons.injEq] at heq
      obtain ⟨rfl, rfl⟩ := heq
      obtain ⟨q, hq, rfl⟩ := Option.map_eq_some_iff.1 h
      have := ih hq
      simp only [List.length_cons]
      omega

def place? (args : List Text) (t : Text) : Option (Text × { r : Text // r.length < t.length }) :=
  match h : untilBrace t with
  | none => none
  | some (inner, rest) => do
    let n ← number? inner
    let arg ← args[n]?
    return (arg, ⟨rest, untilBrace_length h⟩)

def format (args : List Text) : Text → Text
  | [] => []
  | c :: cs =>
    if c == '\x7b' then
      match place? args cs with
      | some (arg, ⟨rest, _⟩) => arg ++ format args rest
      | none => c :: format args cs
    else c :: format args cs
termination_by t => t.length
decreasing_by
  · rename_i h
    simp only [List.length_cons]
    omega
  · simp
  · simp

end Lintel.Message
