import Lintel.Syntax.Token

namespace Lintel

structure Cut where
  taken : Text
  rest : Text
  closed : Bool := true
  deriving DecidableEq

namespace Cut

def cons (c : Char) (k : Cut) : Cut :=
  { k with taken := c :: k.taken }

def span (p : Char → Bool) (t : Text) : Cut :=
  ⟨t.takeWhile p, t.dropWhile p, true⟩

def andThen (k : Cut) (f : Text → Cut) : Cut :=
  let next := f k.rest
  ⟨k.taken ++ next.taken, next.rest, next.closed⟩

def Whole (k : Cut) (t : Text) : Prop :=
  k.taken ++ k.rest = t

theorem Whole.cons {k : Cut} {t : Text} (h : k.Whole t) (c : Char) : (k.cons c).Whole (c :: t) := by
  simp only [Whole, Cut.cons, List.cons_append] at *
  rw [h]

theorem span_whole (p : Char → Bool) (t : Text) : (span p t).Whole t :=
  List.takeWhile_append_dropWhile

theorem Whole.andThen {k : Cut} {t : Text} {f : Text → Cut} (h : k.Whole t)
    (hf : ∀ u, (f u).Whole u) : (k.andThen f).Whole t := by
  simp only [Whole, Cut.andThen, List.append_assoc] at *
  rw [hf, h]

theorem andThen_taken_ne_nil {k : Cut} (f : Text → Cut) (h : k.taken ≠ []) :
    (k.andThen f).taken ≠ [] := by
  simp [andThen, h]

end Cut

namespace Literal

def isLineEnd (c : Char) : Bool :=
  c == '\n' || c == '\r'

def restOfLine (t : Text) : Cut :=
  Cut.span (fun c => !isLineEnd c) t

def blockComment : Text → Cut
  | [] => ⟨[], [], false⟩
  | '*' :: '/' :: t => ⟨['*', '/'], t, true⟩
  | c :: t => (blockComment t).cons c

theorem blockComment_whole (t : Text) : (blockComment t).Whole t := by
  fun_induction blockComment t with
  | case1 => rfl
  | case2 => rfl
  | case3 c t _ ih => exact ih.cons c

/-- The body of a literal after its opening quote, with the closing quote. A backslash takes the next
character with it, and the end of the line leaves the literal open. -/
def quoted (quote : Char) : Text → Cut
  | [] => ⟨[], [], false⟩
  | c :: t =>
    if c == '\\' then
      match t with
      | [] => ⟨[c], [], false⟩
      | e :: t => ((quoted quote t).cons e).cons c
    else if isLineEnd c then ⟨[], c :: t, false⟩
    else if c == quote then ⟨[c], t, true⟩
    else (quoted quote t).cons c

theorem quoted_whole (quote : Char) (t : Text) : (quoted quote t).Whole t := by
  fun_induction quoted quote t with
  | case1 => rfl
  | case2 => rfl
  | case3 c hc e t ih => exact (ih.cons e).cons c
  | case4 => rfl
  | case5 => rfl
  | case6 c t _ _ _ ih => exact ih.cons c

structure StringForm where
  verbatim : Bool
  interpolated : Bool

/-- Where in an interpolated string a character stands: within how many braces, and whether within
quotes inside them. -/
structure Hole where
  depth : Nat
  quoted : Bool

def special (form : StringForm) : Hole → Text → Cut
  | _, [] => ⟨[], [], false⟩
  | hole, c :: t =>
    if hole.quoted then
      if c == '\\' then
        match t with
        | [] => ⟨[c], [], false⟩
        | e :: t => ((special form hole t).cons e).cons c
      else if c == '"' then (special form ⟨hole.depth, false⟩ t).cons c
      else if isLineEnd c then
        if form.verbatim then (special form ⟨hole.depth, false⟩ t).cons c else ⟨[], c :: t, false⟩
      else (special form hole t).cons c
    else if c == '"' then
      if hole.depth > 0 then (special form ⟨hole.depth, true⟩ t).cons c
      else
        match form.verbatim, t with
        | true, '"' :: t => ((special form hole t).cons '"').cons c
        | _, _ => ⟨[c], t, true⟩
    else if c == '\\' && !form.verbatim then
      match t with
      | [] => ⟨[c], [], false⟩
      | e :: t => ((special form hole t).cons e).cons c
    else if c == '\x7b' && form.interpolated then
      match hole.depth, t with
      | 0, '\x7b' :: t => ((special form hole t).cons '\x7b').cons c
      | d, t => (special form ⟨d + 1, false⟩ t).cons c
    else if c == '\x7d' && form.interpolated && hole.depth > 0 then
      (special form ⟨hole.depth - 1, false⟩ t).cons c
    else if isLineEnd c && !form.verbatim then ⟨[], c :: t, false⟩
    else (special form hole t).cons c

theorem special_whole (form : StringForm) (hole : Hole) (t : Text) :
    (special form hole t).Whole t := by
  fun_induction special form hole t <;> simp_all [Cut.Whole, Cut.cons]

def stringForm? : Text → Option (StringForm × Text)
  | '@' :: '"' :: _ => some (⟨true, false⟩, ['@', '"'])
  | '$' :: '"' :: _ => some (⟨false, true⟩, ['$', '"'])
  | '$' :: '@' :: '"' :: _ => some (⟨true, true⟩, ['$', '@', '"'])
  | '@' :: '$' :: '"' :: _ => some (⟨true, true⟩, ['@', '$', '"'])
  | _ => none

def oneIf (p : Char → Bool) : Text → Cut
  | c :: t => if p c then ⟨[c], t, true⟩ else ⟨[], c :: t, true⟩
  | [] => ⟨[], [], true⟩

theorem stringForm?_opening {t : Text} {form : StringForm} {opening : Text}
    (h : stringForm? t = some (form, opening)) :
    opening ≠ [] ∧ opening ++ t.drop opening.length = t := by
  unfold stringForm? at h
  split at h <;> simp_all <;> (obtain ⟨-, rfl⟩ := h; simp)

theorem oneIf_whole (p : Char → Bool) (t : Text) : (oneIf p t).Whole t := by
  unfold oneIf
  split
  · split <;> rfl
  · rfl

def isDigitOrMark (c : Char) : Bool :=
  c == '_' || c.isDigit

def isHexDigit (c : Char) : Bool :=
  c.isDigit || ('a' ≤ c && c ≤ 'f') || ('A' ≤ c && c ≤ 'F')

def fraction : Text → Cut
  | '.' :: d :: t =>
    if d.isDigit then (Cut.span isDigitOrMark (d :: t)).cons '.' else ⟨[], '.' :: d :: t, true⟩
  | t => ⟨[], t, true⟩

def exponent (t : Text) : Cut :=
  let mark := oneIf (fun c => c == 'e' || c == 'E') t
  let signed := mark.andThen (oneIf (fun c => c == '+' || c == '-'))
  let all := signed.andThen (Cut.span Char.isDigit)
  if mark.taken.isEmpty || all.taken.length == signed.taken.length then ⟨[], t, true⟩ else all

def integerSuffix (t : Text) : Cut :=
  Cut.span (fun c => c == 'u' || c == 'U' || c == 'l' || c == 'L') t

def realSuffix (t : Text) : Cut :=
  oneIf (fun c => ['f', 'F', 'd', 'D', 'm', 'M'].contains c) t

theorem fraction_whole (t : Text) : (fraction t).Whole t := by
  unfold fraction
  split
  · split
    · exact (Cut.span_whole _ _).cons _
    · rfl
  · rfl

theorem exponent_whole (t : Text) : (exponent t).Whole t := by
  simp only [exponent]
  split
  · rfl
  · exact ((oneIf_whole _ _).andThen (oneIf_whole _)).andThen (Cut.span_whole _)

def decimal (t : Text) : Kind × Cut :=
  let whole := Cut.span isDigitOrMark t
  let fractional := whole.andThen fraction
  let scaled := fractional.andThen exponent
  let suffixed := scaled.andThen realSuffix
  if suffixed.taken.length > scaled.taken.length then (.realLiteral, suffixed)
  else
    let kind := if scaled.taken.length > whole.taken.length then .realLiteral else .intLiteral
    (kind, scaled.andThen integerSuffix)

theorem decimal_whole (t : Text) : (decimal t).2.Whole t := by
  have scaled := ((Cut.span_whole isDigitOrMark t).andThen fraction_whole).andThen exponent_whole
  simp only [decimal]
  split
  · exact scaled.andThen (oneIf_whole _)
  · exact scaled.andThen (Cut.span_whole _)

def number : Text → Kind × Cut
  | '0' :: x :: t =>
    if x == 'x' || x == 'X' then
      (.intLiteral, (((Cut.span (fun c => c == '_' || isHexDigit c) t).andThen integerSuffix).cons x).cons '0')
    else if x == 'b' || x == 'B' then
      (.intLiteral,
        (((Cut.span (fun c => c == '_' || c == '0' || c == '1') t).andThen integerSuffix).cons x).cons '0')
    else decimal ('0' :: x :: t)
  | t => decimal t

theorem number_whole (t : Text) : (number t).2.Whole t := by
  unfold number
  split
  · split
    · exact ((((Cut.span_whole _ _).andThen (Cut.span_whole _)).cons _).cons _)
    · split
      · exact ((((Cut.span_whole _ _).andThen (Cut.span_whole _)).cons _).cons _)
      · exact decimal_whole _
  · exact decimal_whole _

theorem decimal_taken_ne_nil {t : Text}
    (h : ((Cut.span isDigitOrMark t).andThen fraction).taken ≠ []) : (decimal t).2.taken ≠ [] := by
  have scaled := Cut.andThen_taken_ne_nil exponent h
  simp only [decimal]
  split
  · exact Cut.andThen_taken_ne_nil _ scaled
  · exact Cut.andThen_taken_ne_nil _ scaled

theorem number_taken_ne_nil {c : Char} {t : Text}
    (h : (c.isDigit || (c == '.' && t.head?.any Char.isDigit)) = true) :
    (number (c :: t)).2.taken ≠ [] := by
  have hd : ((Cut.span isDigitOrMark (c :: t)).andThen fraction).taken ≠ [] := by
    by_cases hc : c.isDigit
    · exact Cut.andThen_taken_ne_nil _ (by simp [Cut.span, isDigitOrMark, hc])
    · cases t with
      | nil => simp [hc] at h
      | cons d t =>
        obtain ⟨rfl, hd⟩ : c = '.' ∧ d.isDigit = true := by simpa [hc] using h
        have hdot : isDigitOrMark '.' = false := by decide
        simp [Cut.andThen, Cut.span, hdot, fraction, hd, Cut.cons]
  unfold number
  split
  · split
    · simp [Cut.cons]
    · split
      · simp [Cut.cons]
      · simp_all [decimal_taken_ne_nil]
  · exact decimal_taken_ne_nil hd

end Literal

end Lintel
