/-!
Texts and spans. A text is the list of its characters; offsets count the bytes of its UTF-8 form.
-/

namespace Lintel

abbrev Text := List Char

namespace Text

def bytes (t : Text) : List UInt8 :=
  t.flatMap String.utf8EncodeChar

def size : Text → Nat
  | [] => 0
  | c :: cs => c.utf8Size + size cs

@[simp] theorem size_nil : size [] = 0 := rfl

@[simp] theorem size_cons (c : Char) (cs : Text) : size (c :: cs) = c.utf8Size + size cs := rfl

@[simp] theorem size_append (s t : Text) : size (s ++ t) = size s + size t := by
  induction s with
  | nil => simp
  | cons c cs ih => simp [ih, Nat.add_assoc]

@[simp] theorem bytes_append (s t : Text) : bytes (s ++ t) = s.bytes ++ t.bytes :=
  List.flatMap_append

@[simp] theorem length_bytes (t : Text) : t.bytes.length = t.size := by
  induction t with
  | nil => rfl
  | cons c t ih =>
    rw [bytes, List.flatMap_cons, List.length_append, String.length_utf8EncodeChar, size_cons, ← bytes, ih]

def splitAt? : Nat → Text → Option (Text × Text)
  | 0, t => some ([], t)
  | _ + 1, [] => none
  | n + 1, c :: cs =>
    if c.utf8Size ≤ n + 1 then
      (splitAt? (n + 1 - c.utf8Size) cs).map (fun p => (c :: p.1, p.2))
    else none

theorem append_of_splitAt? {n : Nat} {t : Text} {p : Text × Text} (h : splitAt? n t = some p) :
    p.1 ++ p.2 = t ∧ p.1.size = n := by
  induction t generalizing n p with
  | nil =>
    cases n with
    | zero => simp [splitAt?] at h; subst h; simp
    | succ n => simp [splitAt?] at h
  | cons c cs ih =>
    cases n with
    | zero => simp [splitAt?] at h; subst h; simp
    | succ n =>
      by_cases hc : c.utf8Size ≤ n + 1
      · simp only [splitAt?, hc, if_true, Option.map_eq_some_iff] at h
        obtain ⟨q, hq, rfl⟩ := h
        have := ih hq
        simp only [List.cons_append, this.1, size_cons, this.2, true_and]
        omega
      · simp [splitAt?, hc] at h

def slice? (t : Text) (start stop : Nat) : Option Text := do
  let (_, rest) ← splitAt? start t
  let (part, _) ← splitAt? (stop - start) rest
  return part

def dropBytes : Nat → Text → Text
  | 0, t => t
  | _ + 1, [] => []
  | n + 1, c :: cs => dropBytes (n + 1 - c.utf8Size) cs

def takeBytes : Nat → Text → Text
  | 0, _ => []
  | _ + 1, [] => []
  | n + 1, c :: cs => c :: takeBytes (n + 1 - c.utf8Size) cs

theorem takeBytes_append_dropBytes (n : Nat) (t : Text) : takeBytes n t ++ dropBytes n t = t := by
  induction t generalizing n with
  | nil => cases n <;> simp [takeBytes, dropBytes]
  | cons c cs ih => cases n <;> simp [takeBytes, dropBytes, ih]

def strip? (start t : Text) : Option Text :=
  if start.isPrefixOf t then some (t.drop start.length) else none

end Text

structure Span where
  start : Nat
  length : Nat
  deriving DecidableEq, Inhabited

namespace Span

def stop (a : Span) : Nat :=
  a.start + a.length

def between (start stop : Nat) : Span :=
  ⟨start, stop - start⟩

@[simp] theorem start_between (a b : Nat) : (between a b).start = a := rfl

@[simp] theorem stop_between {a b : Nat} (h : a ≤ b) : (between a b).stop = b := by
  simp only [stop, between]
  omega

def isEmpty (a : Span) : Bool :=
  a.length == 0

def contains (a b : Span) : Bool :=
  a.start ≤ b.start && b.stop ≤ a.stop

def cover (a b : Span) : Span :=
  between (min a.start b.start) (max a.stop b.stop)

def shift (a : Span) (n : Nat) : Span :=
  ⟨a.start + n, a.length⟩

/-- Whether two changes at these spans may not be made together. Stretches conflict when they
overlap; an insertion conflicts with an insertion at its offset and with a stretch around it. -/
def conflicts (a b : Span) : Bool :=
  if a.isEmpty then
    if b.isEmpty then a.start == b.start else b.start < a.start && a.start < b.stop
  else
    if b.isEmpty then a.start < b.start && b.start < a.stop
    else a.start < b.stop && b.start < a.stop

/-- Whether two spans are at one place: they share a character, or one is empty and lies within
the other. -/
def meets (a b : Span) : Bool :=
  if a.isEmpty || b.isEmpty then a.contains b || b.contains a
  else max a.start b.start < min a.stop b.stop

theorem conflicts_comm (a b : Span) : a.conflicts b = b.conflicts a := by
  unfold conflicts
  cases ha : a.isEmpty <;> cases hb : b.isEmpty
  · simp [Bool.and_comm]
  · simp
  · simp
  · simp only [if_true]
    exact BEq.comm

def render (a : Span) : String :=
  s!"{a.start}..{a.stop}"

end Span

end Lintel
