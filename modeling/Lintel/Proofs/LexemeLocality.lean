import Lintel.Syntax.Lexer
import Mathlib.Data.List.Chain
import Mathlib.Data.List.TakeWhile

/-!
How far a lexeme looks ahead. A reader that has found the end of a lexeme has seen one character of what follows, or two
where a dot may start a fraction, or three where an exponent may. So a lexeme is read the same way before any text that
begins alike, and most of them before any text that begins with a blank or a comment.
-/

namespace Lintel

def gaps : List Char :=
  [' ', '\t', '\x0b', '\x0c', '\n', '\r', '/']

namespace Literal

def divides : Text → Bool
  | '.' :: r => r.head?.any Char.isDigit
  | _ => false

def scales : Text → Bool
  | m :: s :: r => (m == 'e' || m == 'E') && (s.isDigit || ((s == '+' || s == '-') && r.head?.any Char.isDigit))
  | _ => false

def isPlain (t : Text) : Bool :=
  t.all (fun c => isDigitOrMark c || c == '.')

theorem divides_cons {c : Char} (r : Text) : divides (c :: r) = (c == '.' && r.head?.any Char.isDigit) := by
  by_cases hc : c = '.'
  · rw [hc]
    rfl
  · rw [beq_false_of_ne hc, Bool.false_and]
    unfold divides
    split
    · rename_i heq
      exact absurd (List.cons.inj heq).1 hc
    · rfl

end Literal

/-- The second text ends a lexeme if the first one does: it begins alike, or with a blank or a comment. -/
structure Ends (r r' : Text) : Prop where
  head : r'.head? = r.head? ∨ ∀ c ∈ r'.head?, c ∈ gaps
  divides : Literal.divides r' = true → Literal.divides r = true

namespace Ends

theorem of_gap {r r' : Text} (h : ∀ c ∈ r'.head?, c ∈ gaps) : Ends r r' := by
  refine ⟨.inr h, fun hdot => ?_⟩
  cases r' with
  | nil => cases hdot
  | cons c r' =>
    rw [Literal.divides_cons, Bool.and_eq_true, beq_iff_eq] at hdot
    exact absurd (h c rfl) (hdot.1 ▸ by decide)

theorem not_head {r r' : Text} (h : Ends r r') {p : Char → Bool} (hp : gaps.any p = false)
    (hr : ∀ c ∈ r.head?, p c = false) : ∀ c ∈ r'.head?, p c = false := by
  obtain hhead | hgap := h.head
  · rwa [hhead]
  · exact fun c hc => by simpa using List.any_eq_false.mp hp c (hgap c hc)

theorem append {r r' : Text} (h : Ends r r') (u : Text) : Ends (u ++ r) (u ++ r') := by
  cases u with
  | nil => exact h
  | cons a u =>
    refine ⟨.inl rfl, ?_⟩
    rw [List.cons_append, List.cons_append, Literal.divides_cons, Literal.divides_cons, Bool.and_eq_true,
      Bool.and_eq_true]
    rintro ⟨ha, hdigit⟩
    refine ⟨ha, ?_⟩
    cases u with
    | cons b u => exact hdigit
    | nil =>
      obtain hhead | hgap := h.head
      · rwa [List.nil_append, ← hhead]
      · have hnone : gaps.any Char.isDigit = false := by decide
        cases r' with
        | nil => cases hdigit
        | cons d r' => exact absurd hdigit (List.any_eq_false.mp hnone d (hgap d rfl))

end Ends

/-- Two texts that no lexeme before them tells apart. -/
structure Near (r r' : Text) : Prop where
  two : r.take 2 = r'.take 2
  three : r.head? = some 'e' ∨ r.head? = some 'E' → r.take 3 = r'.take 3

namespace Near

theorem refl (r : Text) : Near r r :=
  ⟨rfl, fun _ => rfl⟩

theorem head? {r r' : Text} (h : Near r r') : r'.head? = r.head? := by
  have htwo := congrArg List.head? h.two
  simpa [List.head?_take] using htwo.symm

theorem of_long {u : Text} (r r' : Text) (hlen : 2 ≤ u.length)
    (hthree : u.head? = some 'e' ∨ u.head? = some 'E' → 3 ≤ u.length) : Near (u ++ r) (u ++ r') := by
  have hne : u ≠ [] := by
    rintro rfl
    simp at hlen
  constructor
  · rw [List.take_append_of_le_length hlen, List.take_append_of_le_length hlen]
  · intro he
    rw [List.head?_append_of_ne_nil _ hne] at he
    rw [List.take_append_of_le_length (hthree he), List.take_append_of_le_length (hthree he)]

theorem append {r r' : Text} (h : Near r r') (u : Text) : Near (u ++ r) (u ++ r') := by
  have hone : ∀ n, n ≤ 2 → r.take n = r'.take n := by
    intro n hn
    have htwo := congrArg (List.take n) h.two
    rwa [List.take_take, List.take_take, Nat.min_eq_left hn] at htwo
  cases u with
  | nil => exact h
  | cons a u =>
    constructor
    · rw [List.take_append, List.take_append, hone _ (by omega)]
    · intro _
      rw [List.take_append, List.take_append, hone _ (by rw [List.length_cons]; omega)]

theorem ends {r r' : Text} (h : Near r r') : Ends r r' := by
  have htake : ∀ s : Text, Literal.divides s = Literal.divides (s.take 2) := by
    intro s
    rcases s with _ | ⟨a, _ | ⟨b, s⟩⟩
    · rfl
    · rfl
    · rw [List.take_succ_cons, List.take_succ_cons, Literal.divides_cons, Literal.divides_cons]
      rfl
  refine ⟨.inl h.head?, ?_⟩
  rw [htake r, htake r', h.two]
  exact id

theorem scales {r r' : Text} (h : Near r r') : Literal.scales r' = Literal.scales r := by
  have htake : ∀ s : Text, Literal.scales s = Literal.scales (s.take 3) := by
    intro s
    rcases s with _ | ⟨m, _ | ⟨s, _ | ⟨d, r⟩⟩⟩ <;> rfl
  by_cases he : r.head? = some 'e' ∨ r.head? = some 'E'
  · rw [htake r, htake r', h.three he]
  · have hnone : ∀ s : Text, s.head? = r.head? → Literal.scales s = false := by
      intro s hs
      rw [← hs] at he
      rcases s with _ | ⟨m, _ | ⟨s, r⟩⟩
      · rfl
      · rfl
      · have hm : ¬ (m = 'e' ∨ m = 'E') := by simpa using he
        simp [Literal.scales, hm]
    rw [hnone r rfl, hnone r' h.head?]

end Near

namespace Cut

def Local (f : Text → Cut) : Prop :=
  ∀ ⦃t r r' : Text⦄, Ends r r' → f (t ++ r) = ⟨t, r, true⟩ → f (t ++ r') = ⟨t, r', true⟩

theorem span_eq_iff {p : Char → Bool} {s t r : Text} :
    span p s = ⟨t, r, true⟩ ↔ s = t ++ r ∧ (∀ c ∈ t, p c = true) ∧ ∀ c ∈ r.head?, p c = false := by
  constructor
  · intro h
    obtain ⟨rfl, rfl⟩ : s.takeWhile p = t ∧ s.dropWhile p = r := by simpa [span] using h
    refine ⟨List.takeWhile_append_dropWhile.symm, fun c hc => List.mem_takeWhile_imp hc, fun c hc => ?_⟩
    have hnot := List.head?_dropWhile_not p s
    rw [Option.mem_def.mp hc] at hnot
    simpa using hnot
  · rintro ⟨rfl, ht, hr⟩
    rw [span, List.takeWhile_append_of_pos ht, List.dropWhile_append_of_pos ht]
    cases r with
    | nil => simp
    | cons c r => simp [hr c (by simp)]

theorem local_span {p : Char → Bool} (hp : gaps.any p = false) : Local (span p) := by
  intro t r r' hends h
  obtain ⟨-, ht, hr⟩ := span_eq_iff.mp h
  exact span_eq_iff.mpr ⟨rfl, ht, hends.not_head hp hr⟩

theorem span_alike {p : Char → Bool} {t r r' : Text} (hhead : r'.head? = r.head?) (h : span p (t ++ r) = ⟨t, r, true⟩) :
    span p (t ++ r') = ⟨t, r', true⟩ := by
  obtain ⟨-, ht, hr⟩ := span_eq_iff.mp h
  exact span_eq_iff.mpr ⟨rfl, ht, by rwa [hhead]⟩

theorem Whole.eq_mk {k : Cut} {t r : Text} (h : k.Whole (t ++ r)) (ht : k.taken = t) (hc : k.closed = true) :
    k = ⟨t, r, true⟩ := by
  obtain ⟨taken, rest, closed⟩ := k
  subst ht hc
  simpa [Whole] using h

theorem andThen_eq_iff {k : Cut} {g : Text → Cut} (hg : ∀ s, (g s).Whole s) (hk : k.closed = true) {t r : Text} :
    k.andThen g = ⟨t, r, true⟩ ↔ ∃ v u, t = v ++ u ∧ k = ⟨v, u ++ r, true⟩ ∧ g (u ++ r) = ⟨u, r, true⟩ := by
  obtain ⟨v, s, closed⟩ := k
  obtain rfl : closed = true := hk
  constructor
  · intro h
    obtain ⟨u, r₂, c, hgs⟩ : ∃ u r₂ c, g s = ⟨u, r₂, c⟩ := ⟨_, _, _, rfl⟩
    obtain ⟨rfl, rfl, rfl⟩ : v ++ u = t ∧ r₂ = r ∧ c = true := by simpa [Cut.andThen, hgs] using h
    have hrest : u ++ r₂ = s := by simpa [Whole, hgs] using hg s
    exact ⟨v, u, rfl, by rw [hrest], by rw [hrest, hgs]⟩
  · rintro ⟨v, u, rfl, hcut, hgs⟩
    obtain ⟨rfl, rfl⟩ : _ = v ∧ s = u ++ r := by simpa using hcut
    simp [Cut.andThen, hgs]

theorem Local.andThen {f g : Text → Cut} (hf : Local f) (hg : Local g) (hwhole : ∀ s, (g s).Whole s)
    (hclosed : ∀ s, (f s).closed = true) : Local (fun s => (f s).andThen g) := by
  intro t r r' hends h
  obtain ⟨v, u, rfl, hfs, hgs⟩ := (andThen_eq_iff hwhole (hclosed _)).mp h
  rw [List.append_assoc] at hfs
  refine (andThen_eq_iff hwhole (hclosed _)).mpr ⟨v, u, rfl, ?_, hg hends hgs⟩
  rw [List.append_assoc]
  exact hf (hends.append u) hfs

end Cut

namespace Literal

open Cut

theorem closed_oneIf (p : Char → Bool) (s : Text) : (oneIf p s).closed = true := by
  cases s with
  | nil => rfl
  | cons c s =>
    rw [oneIf]
    split <;> rfl

theorem oneIf_eq_iff {p : Char → Bool} {t r : Text} : oneIf p (t ++ r) = ⟨t, r, true⟩ ↔
    (∃ c, t = [c] ∧ p c = true) ∨ (t = [] ∧ ∀ c ∈ r.head?, p c = false) := by
  rcases t with _ | ⟨c, t⟩
  · cases r with
    | nil => simp [oneIf]
    | cons c r => by_cases hc : p c <;> simp [oneIf, hc]
  · by_cases hc : p c
    · simp only [List.cons_append, oneIf, hc, if_true, Cut.mk.injEq, List.cons.injEq, true_and, and_true, reduceCtorEq,
        false_and, or_false]
      constructor
      · rintro ⟨rfl, -⟩
        exact ⟨c, ⟨rfl, rfl⟩, hc⟩
      · rintro ⟨d, ⟨rfl, rfl⟩, -⟩
        exact ⟨rfl, rfl⟩
    · simp [oneIf, hc]

theorem local_oneIf {p : Char → Bool} (hp : gaps.any p = false) : Local (oneIf p) := by
  intro t r r' hends h
  rw [oneIf_eq_iff] at h ⊢
  obtain hone | ⟨ht, hr⟩ := h
  · exact .inl hone
  · exact .inr ⟨ht, hends.not_head hp hr⟩

theorem oneIf_alike {p : Char → Bool} {t r r' : Text} (hhead : r'.head? = r.head?)
    (h : oneIf p (t ++ r) = ⟨t, r, true⟩) :
    oneIf p (t ++ r') = ⟨t, r', true⟩ := by
  rw [oneIf_eq_iff] at h ⊢
  rwa [hhead]

theorem fraction_eq_nil_iff (r : Text) : fraction r = ⟨[], r, true⟩ ↔ divides r = false := by
  unfold fraction
  split
  · rename_i d t
    by_cases hd : d.isDigit <;> simp [hd, Cut.cons, divides]
  · rename_i hr
    refine ⟨fun _ => ?_, fun _ => rfl⟩
    rcases r with _ | ⟨a, _ | ⟨b, r⟩⟩
    · rfl
    · simp [divides_cons]
    · have ha : a ≠ '.' := by
        rintro rfl
        exact hr b r rfl
      rw [divides_cons, beq_false_of_ne ha, Bool.false_and]

theorem fraction_cons_iff {a : Char} {t r : Text} : fraction (a :: t ++ r) = ⟨a :: t, r, true⟩ ↔
    a = '.' ∧ t.head?.any Char.isDigit = true ∧ Cut.span isDigitOrMark (t ++ r) = ⟨t, r, true⟩ := by
  constructor
  · intro h
    have hdivides : divides (a :: (t ++ r)) = true := by
      rw [← Bool.not_eq_false, ← fraction_eq_nil_iff]
      intro hnil
      rw [List.cons_append, hnil] at h
      simp at h
    rw [divides_cons, Bool.and_eq_true, beq_iff_eq] at hdivides
    obtain ⟨rfl, hdigit⟩ := hdivides
    obtain ⟨d, u, hdu⟩ : ∃ d u, t ++ r = d :: u := by
      cases hs : t ++ r with
      | nil => simp [hs] at hdigit
      | cons d u => exact ⟨d, u, rfl⟩
    rw [hdu, List.head?_cons, Option.any_some] at hdigit
    have hspan : Cut.span isDigitOrMark (t ++ r) = ⟨t, r, true⟩ := by
      have hcons : fraction ('.' :: d :: u) = (Cut.span isDigitOrMark (d :: u)).cons '.' := if_pos hdigit
      rw [List.cons_append, hdu, hcons] at h
      rw [hdu]
      simpa [Cut.cons, Cut.span] using h
    -- The digit after the dot is part of the fraction.
    refine ⟨rfl, ?_, hspan⟩
    cases t with
    | nil =>
      obtain ⟨-, -, hr⟩ := span_eq_iff.mp hspan
      have hno := hr d (by rw [List.nil_append] at hdu; simp [hdu])
      simp [isDigitOrMark, hdigit] at hno
    | cons b t =>
      rw [List.cons_append] at hdu
      rwa [List.head?_cons, Option.any_some, (List.cons.inj hdu).1]
  · rintro ⟨rfl, hdigit, hspan⟩
    cases t with
    | nil => simp at hdigit
    | cons d t =>
      have hcons : fraction ('.' :: d :: (t ++ r)) = (Cut.span isDigitOrMark (d :: (t ++ r))).cons '.' := if_pos hdigit
      rw [List.cons_append] at hspan
      rw [List.cons_append, List.cons_append, hcons, hspan]
      rfl

theorem local_fraction : Local fraction := by
  intro t r r' hends h
  rcases t with _ | ⟨a, t⟩
  · rw [List.nil_append, fraction_eq_nil_iff] at h ⊢
    cases hd : divides r' with
    | false => rfl
    | true => rw [hends.divides hd] at h; cases h
  · rw [fraction_cons_iff] at h ⊢
    exact ⟨h.1, h.2.1, local_span (by decide) hends h.2.2⟩

def exponentMark (s : Text) : Cut :=
  oneIf (fun c => c == 'e' || c == 'E') s

def exponentSign (s : Text) : Cut :=
  (exponentMark s).andThen (oneIf (fun c => c == '+' || c == '-'))

def exponentDigits (s : Text) : Cut :=
  (exponentSign s).andThen (Cut.span Char.isDigit)

theorem exponent_eq (s : Text) : exponent s =
    if (exponentMark s).taken = [] ∨ (exponentDigits s).taken = (exponentSign s).taken then ⟨[], s, true⟩
    else exponentDigits s := by
  have hlen : (exponentDigits s).taken.length = (exponentSign s).taken.length ↔
      (exponentDigits s).taken = (exponentSign s).taken := by
    simp [exponentDigits, Cut.andThen]
  rw [exponent]
  simp only [Bool.or_eq_true, List.isEmpty_iff, beq_iff_eq]
  exact if_congr (or_congr Iff.rfl hlen) rfl rfl

theorem taken_exponent (s : Text) : (exponentMark s).taken = (exponentMark (s.take 2)).taken ∧
    (exponentSign s).taken = (exponentSign (s.take 2)).taken := by
  rcases s with _ | ⟨m, _ | ⟨s, r⟩⟩
  · exact ⟨rfl, rfl⟩
  · exact ⟨rfl, rfl⟩
  · by_cases hm : m = 'e' ∨ m = 'E' <;> by_cases hs : s = '+' ∨ s = '-' <;> by_cases hms : m = '+' ∨ m = '-' <;>
      simp [exponentMark, exponentSign, oneIf, Cut.andThen, hm, hs, hms]

theorem local_exponentDigits : Local exponentDigits := by
  have hmark : Local exponentMark := local_oneIf (by decide)
  have hsign : Local exponentSign := hmark.andThen (local_oneIf (by decide)) (oneIf_whole _) (closed_oneIf _)
  exact hsign.andThen (local_span (by decide)) (span_whole _) (fun s => closed_oneIf _ _)

theorem exponent_eq_nil_iff (r : Text) : exponent r = ⟨[], r, true⟩ ↔ scales r = false := by
  rcases r with _ | ⟨m, _ | ⟨s, r⟩⟩
  · simp [exponent, oneIf, Cut.andThen, Cut.span, scales]
  · by_cases hm : m = 'e' ∨ m = 'E' <;> simp [exponent, oneIf, Cut.andThen, Cut.span, scales, hm]
  · by_cases hm : m = 'e' ∨ m = 'E'
    · by_cases hs : s = '+' ∨ s = '-'
      · have hsign : s.isDigit = false := by rcases hs with rfl | rfl <;> decide
        cases r with
        | nil => simp [exponent, oneIf, Cut.andThen, Cut.span, scales, hm, hs, hsign]
        | cons d r => by_cases hd : d.isDigit <;>
            (simp [exponent, oneIf, Cut.andThen, Cut.span, scales, hm, hs, hsign, hd]; try tauto)
      · by_cases hd : s.isDigit <;> (simp [exponent, oneIf, Cut.andThen, Cut.span, scales, hm, hs, hd]; try tauto)
    · simp [exponent, oneIf, Cut.andThen, scales, hm]

theorem exponent_of_ne_nil {s t r : Text} (h : exponent s = ⟨t, r, true⟩) (ht : t ≠ []) :
    exponentDigits s = ⟨t, r, true⟩ ∧ (exponentMark s).taken ≠ [] ∧ (exponentSign s).taken ≠ t ∧ 2 ≤ t.length := by
  rw [exponent_eq] at h
  split at h
  · exact absurd (congrArg Cut.taken h).symm ht
  · rename_i hcond
    push Not at hcond
    obtain ⟨hmark, hdigits⟩ := hcond
    have htaken : (exponentDigits s).taken = t := congrArg Cut.taken h
    have hsign : (exponentSign s).taken ≠ t := fun heq => hdigits (htaken.trans heq.symm)
    have hlong : (exponentDigits s).taken =
        (exponentMark s).taken ++ (oneIf (fun c => c == '+' || c == '-') (exponentMark s).rest).taken ++
          (Cut.span Char.isDigit (exponentSign s).rest).taken := rfl
    have hpos := List.length_pos_iff.mpr hmark
    have hmore : (Cut.span Char.isDigit (exponentSign s).rest).taken ≠ [] := by
      intro hnil
      apply hdigits
      rw [hlong, hnil, List.append_nil]
      rfl
    have hmore := List.length_pos_iff.mpr hmore
    refine ⟨h, hmark, hsign, ?_⟩
    rw [← htaken, hlong, List.length_append, List.length_append]
    omega

theorem exponent_ends {t r r' : Text} (hends : Ends r r') (hscales : t = [] → scales r' = true → scales r = true)
    (h : exponent (t ++ r) = ⟨t, r, true⟩) : exponent (t ++ r') = ⟨t, r', true⟩ := by
  by_cases ht : t = []
  · subst ht
    rw [List.nil_append, exponent_eq_nil_iff] at h ⊢
    cases hr : scales r' with
    | false => rfl
    | true => rw [hscales rfl hr] at h; cases h
  · obtain ⟨hdigits, hmark, hsign, hlen⟩ := exponent_of_ne_nil h ht
    have htake : (t ++ r').take 2 = (t ++ r).take 2 := by
      rw [List.take_append_of_le_length hlen, List.take_append_of_le_length hlen]
    have hmark' : (exponentMark (t ++ r')).taken = (exponentMark (t ++ r)).taken := by
      rw [(taken_exponent _).1, htake, ← (taken_exponent _).1]
    have hsign' : (exponentSign (t ++ r')).taken = (exponentSign (t ++ r)).taken := by
      rw [(taken_exponent _).2, htake, ← (taken_exponent _).2]
    rw [exponent_eq, hmark', hsign', local_exponentDigits hends hdigits, if_neg]
    rintro (hnil | heq)
    · exact hmark hnil
    · exact hsign heq.symm

def decimalWhole (s : Text) : Cut :=
  Cut.span isDigitOrMark s

def decimalFront (s : Text) : Cut :=
  (decimalWhole s).andThen fraction

def decimalScaled (s : Text) : Cut :=
  (decimalFront s).andThen exponent

theorem closed_fraction (s : Text) : (fraction s).closed = true := by
  unfold fraction
  split
  · split <;> rfl
  · rfl

theorem closed_exponent (s : Text) : (exponent s).closed = true := by
  rw [exponent_eq]
  split <;> rfl

theorem closed_decimalFront (s : Text) : (decimalFront s).closed = true :=
  closed_fraction _

theorem local_decimalFront : Local decimalFront := by
  have hwhole : Local decimalWhole := local_span (by decide)
  exact hwhole.andThen local_fraction fraction_whole (fun _ => rfl)

theorem isPlain_decimalFront {s t r : Text} (h : decimalFront s = ⟨t, r, true⟩) : isPlain t = true := by
  obtain ⟨w, u, rfl, hwhole, hfraction⟩ := (andThen_eq_iff fraction_whole rfl).mp h
  have hdigits : ∀ v : Text, (∀ c ∈ v, isDigitOrMark c = true) → isPlain v = true := by
    intro v hv
    exact List.all_eq_true.mpr fun c hc => by rw [hv c hc]; rfl
  rw [isPlain, List.all_append, Bool.and_eq_true]
  refine ⟨hdigits w (span_eq_iff.mp hwhole).2.1, ?_⟩
  cases u with
  | nil => rfl
  | cons a u =>
    obtain ⟨rfl, -, hspan⟩ := fraction_cons_iff.mp hfraction
    rw [List.all_cons, Bool.and_eq_true]
    exact ⟨by decide, hdigits u (span_eq_iff.mp hspan).2.1⟩

theorem decimalScaled_ends {t r r' : Text} (hends : Ends r r')
    (hscales : isPlain t = true → scales r' = true → scales r = true) (h : decimalScaled (t ++ r) = ⟨t, r, true⟩) :
    decimalScaled (t ++ r') = ⟨t, r', true⟩ ∧ (decimalWhole (t ++ r')).taken = (decimalWhole (t ++ r)).taken := by
  obtain ⟨v, u, rfl, hfront, hexponent⟩ := (andThen_eq_iff exponent_whole (closed_decimalFront _)).mp h
  obtain ⟨w, x, rfl, hwhole, -⟩ := (andThen_eq_iff fraction_whole rfl).mp hfront
  rw [List.append_assoc (w ++ x)] at hfront hwhole ⊢
  rw [List.append_assoc (w ++ x)]
  have hplain : u = [] → scales r' = true → scales r = true := by
    rintro rfl
    rw [List.append_nil] at hscales
    exact hscales (isPlain_decimalFront hfront)
  constructor
  · refine (andThen_eq_iff exponent_whole (closed_decimalFront _)).mpr ⟨w ++ x, u, rfl, ?_, ?_⟩
    · exact local_decimalFront (hends.append u) hfront
    · exact exponent_ends hends hplain hexponent
  · rw [List.append_assoc w] at hwhole ⊢
    have hwhole' := local_span (by decide) ((hends.append u).append x) hwhole
    rw [List.append_assoc w, hwhole, decimalWhole, hwhole']

theorem decimal_eq (s : Text) : decimal s =
    if (decimalScaled s).taken.length < ((decimalScaled s).andThen realSuffix).taken.length then
      (.realLiteral, (decimalScaled s).andThen realSuffix)
    else
      (if (decimalWhole s).taken.length < (decimalScaled s).taken.length then .realLiteral else .intLiteral,
        (decimalScaled s).andThen integerSuffix) :=
  rfl

def isSuffix (c : Char) : Bool :=
  "uUlLfFdDmM".toList.contains c

theorem not_scales_of_isSuffix {c : Char} (h : isSuffix c = true) (r : Text) : scales (c :: r) = false := by
  have hmark : (c == 'e' || c == 'E') = false := by
    by_contra hc
    rw [Bool.not_eq_false, Bool.or_eq_true, beq_iff_eq, beq_iff_eq] at hc
    obtain rfl | rfl := hc <;> cases h
  cases r with
  | nil => rfl
  | cons s r => rw [scales, hmark, Bool.false_and]

theorem decimal_eq_iff {s t r : Text} {k : Kind} : decimal s = (k, ⟨t, r, true⟩) ↔
    ∃ v u, t = v ++ u ∧ decimalScaled s = ⟨v, u ++ r, true⟩ ∧
      ((u ≠ [] ∧ realSuffix (u ++ r) = ⟨u, r, true⟩ ∧ k = .realLiteral) ∨
        (realSuffix (u ++ r) = ⟨[], u ++ r, true⟩ ∧ integerSuffix (u ++ r) = ⟨u, r, true⟩ ∧
          k = if (decimalWhole s).taken.length < v.length then .realLiteral else .intLiteral)) := by
  obtain ⟨v₀, s₀, c, hs⟩ : ∃ v₀ s₀ c, decimalScaled s = ⟨v₀, s₀, c⟩ := ⟨_, _, _, rfl⟩
  obtain rfl : c = true := (congrArg Cut.closed hs).symm.trans (closed_exponent _)
  rw [decimal_eq, hs]
  constructor
  · intro h
    split at h
    · rename_i hlong
      obtain ⟨rfl, hcut⟩ := Prod.mk.inj h
      rw [hcut] at hlong
      obtain ⟨v, u, rfl, hscaled, hsuffix⟩ := (andThen_eq_iff (oneIf_whole _) rfl).mp hcut
      obtain ⟨rfl, rfl⟩ : v₀ = v ∧ s₀ = u ++ r := by simpa using hscaled
      refine ⟨v₀, u, rfl, rfl, .inl ⟨?_, hsuffix, rfl⟩⟩
      rintro rfl
      simp at hlong
    · rename_i hshort
      obtain ⟨rfl, hcut⟩ := Prod.mk.inj h
      obtain ⟨v, u, rfl, hscaled, hsuffix⟩ := (andThen_eq_iff (span_whole _) rfl).mp hcut
      obtain ⟨rfl, rfl⟩ : v₀ = v ∧ s₀ = u ++ r := by simpa using hscaled
      refine ⟨v₀, u, rfl, rfl, .inr ⟨?_, hsuffix, rfl⟩⟩
      have hnil : (realSuffix (u ++ r)).taken = [] := by simpa [Cut.andThen] using hshort
      exact Whole.eq_mk (t := []) (oneIf_whole _ (u ++ r)) hnil (closed_oneIf _ _)
  · rintro ⟨v, u, rfl, hscaled, hsuffix⟩
    obtain ⟨rfl, rfl⟩ : v₀ = v ∧ s₀ = u ++ r := by simpa using hscaled
    obtain ⟨hne, hreal, rfl⟩ | ⟨hreal, hinteger, rfl⟩ := hsuffix
    · have hpos := List.length_pos_iff.mpr hne
      simp only [Cut.andThen, hreal, List.length_append]
      rw [if_pos (by omega)]
    · simp only [Cut.andThen, hreal, hinteger, List.append_nil, Nat.lt_irrefl, if_false]

theorem isSuffix_of_decimal {c : Char} {u r : Text} (h : realSuffix (c :: u ++ r) = ⟨c :: u, r, true⟩ ∨
    integerSuffix (c :: u ++ r) = ⟨c :: u, r, true⟩) : isSuffix c = true := by
  obtain h | h := h
  · obtain ⟨d, hd, hreal⟩ | ⟨hnil, -⟩ := oneIf_eq_iff.mp h
    · obtain ⟨rfl, -⟩ := List.cons.inj hd
      have hall : ['f', 'F', 'd', 'D', 'm', 'M'].all isSuffix = true := by decide
      exact List.all_eq_true.mp hall c (by simpa using hreal)
    · cases hnil
  · have hinteger := (span_eq_iff.mp h).2.1 c List.mem_cons_self
    have hall : ['u', 'U', 'l', 'L'].all isSuffix = true := by decide
    exact List.all_eq_true.mp hall c (by simpa [or_assoc] using hinteger)

theorem decimal_ends {t r r' : Text} {k : Kind} (hends : Ends r r')
    (hscales : isPlain t = true → scales r' = true → scales r = true) (h : decimal (t ++ r) = (k, ⟨t, r, true⟩)) :
    decimal (t ++ r') = (k, ⟨t, r', true⟩) := by
  obtain ⟨v, u, rfl, hscaled, hsuffix⟩ := decimal_eq_iff.mp h
  rw [List.append_assoc] at hscaled
  have hscales' : isPlain v = true → scales (u ++ r') = true → scales (u ++ r) = true := by
    cases u with
    | nil => rwa [List.append_nil] at hscales
    | cons c u =>
      have hc : isSuffix c = true := by
        apply isSuffix_of_decimal
        obtain ⟨-, hreal, -⟩ | ⟨-, hinteger, -⟩ := hsuffix
        · exact .inl hreal
        · exact .inr hinteger
      intro _ hr
      rw [List.cons_append, not_scales_of_isSuffix hc] at hr
      cases hr
  obtain ⟨hscaled', hwhole⟩ := decimalScaled_ends (hends.append u) hscales' hscaled
  refine decimal_eq_iff.mpr ⟨v, u, rfl, by rwa [List.append_assoc], ?_⟩
  rw [List.append_assoc, hwhole, ← List.append_assoc]
  obtain ⟨hne, hreal, hk⟩ | ⟨hreal, hinteger, hk⟩ := hsuffix
  · exact .inl ⟨hne, local_oneIf (by decide) hends hreal, hk⟩
  · exact .inr ⟨local_oneIf (t := []) (by decide) (hends.append u) hreal, local_span (by decide) hends hinteger, hk⟩

theorem not_scales_of_decimal {t r : Text} {k : Kind} (h : decimal (t ++ r) = (k, ⟨t, r, true⟩))
    (ht : isPlain t = true) :
    scales r = false := by
  obtain ⟨v, u, rfl, hscaled, hsuffix⟩ := decimal_eq_iff.mp h
  have hplain : ∀ c ∈ v ++ u, (isDigitOrMark c || c == '.') = true := List.all_eq_true.mp ht
  obtain rfl : u = [] := by
    cases u with
    | nil => rfl
    | cons c u =>
      have hc : isSuffix c = true := by
        apply isSuffix_of_decimal
        obtain ⟨-, hreal, -⟩ | ⟨-, hinteger, -⟩ := hsuffix
        · exact .inl hreal
        · exact .inr hinteger
      have hnone : "uUlLfFdDmM".toList.any (fun d => isDigitOrMark d || d == '.') = false := by decide
      exact absurd (hplain c (by simp)) (List.any_eq_false.mp hnone c (by simpa [isSuffix] using hc))
  obtain ⟨v, u, rfl, -, hexponent⟩ := (andThen_eq_iff exponent_whole (closed_decimalFront _)).mp hscaled
  obtain rfl : u = [] := by
    by_contra hne
    obtain ⟨-, hmark, -⟩ := exponent_of_ne_nil hexponent hne
    obtain ⟨m, u, rfl⟩ := List.exists_cons_of_ne_nil hne
    have hm : m = 'e' ∨ m = 'E' := by
      by_contra hm
      simp [exponentMark, oneIf, hm] at hmark
    have hor := hplain m (by simp)
    obtain rfl | rfl := hm
    · cases hor
    · cases hor
  rwa [List.nil_append, List.nil_append, exponent_eq_nil_iff] at hexponent

theorem closed_decimal (s : Text) : (decimal s).2.closed = true := by
  rw [decimal_eq]
  split
  · exact closed_oneIf _ _
  · rfl

def based (p : Char → Bool) (s : Text) : Cut :=
  (Cut.span p s).andThen integerSuffix

theorem local_based {p : Char → Bool} (hp : gaps.any p = false) : Local (based p) :=
  (local_span hp).andThen (local_span (by decide)) (span_whole _) (fun _ => rfl)

theorem number_zero (x : Char) (s : Text) : number ('0' :: x :: s) =
    if x == 'x' || x == 'X' then
      (.intLiteral, ((based (fun c => c == '_' || isHexDigit c) s).cons x).cons '0')
    else if x == 'b' || x == 'B' then
      (.intLiteral, ((based (fun c => c == '_' || c == '0' || c == '1') s).cons x).cons '0')
    else decimal ('0' :: x :: s) :=
  rfl

theorem number_of_ne_zero {a : Char} (h : a ≠ '0') (s : Text) : number (a :: s) = decimal (a :: s) := by
  unfold number
  split
  · rename_i x t hcons
    exact absurd (List.cons.inj hcons).1 h
  · rfl

theorem cons_cons_eq {k : Cut} {a b : Char} {t r : Text} :
    (k.cons b).cons a = ⟨a :: b :: t, r, true⟩ ↔ k = ⟨t, r, true⟩ := by
  obtain ⟨taken, rest, closed⟩ := k
  simp [Cut.cons]

theorem cons_eq_mk {k : Cut} {c : Char} {t r : Text} (h : k.cons c = ⟨t, r, true⟩) :
    ∃ u, t = c :: u ∧ k = ⟨u, r, true⟩ := by
  obtain ⟨taken, rest, closed⟩ := k
  obtain ⟨rfl, rfl, rfl⟩ : c :: taken = t ∧ rest = r ∧ closed = true := by simpa [Cut.cons] using h
  exact ⟨taken, rfl, rfl⟩

def isBaseMark (c : Char) : Bool :=
  c == 'x' || c == 'X' || c == 'b' || c == 'B'

def baseDigit (x : Char) : Char → Bool :=
  if x == 'x' || x == 'X' then fun c => c == '_' || isHexDigit c else fun c => c == '_' || c == '0' || c == '1'

def inTens : Text → Bool
  | '0' :: s => !s.head?.any isBaseMark
  | _ => true

theorem number_of_inTens {s : Text} (h : inTens s = true) : number s = decimal s := by
  rcases s with _ | ⟨a, s⟩
  · rfl
  · by_cases ha : a = '0'
    · subst ha
      rcases s with _ | ⟨x, s⟩
      · rfl
      · have hx : ¬(x == 'x' || x == 'X') = true ∧ ¬(x == 'b' || x == 'B') = true := by
          simpa [inTens, isBaseMark, not_or, and_assoc] using h
        rw [number_zero, if_neg hx.1, if_neg hx.2]
    · exact number_of_ne_zero ha s

theorem number_of_base {x : Char} (hx : isBaseMark x = true) (s : Text) :
    number ('0' :: x :: s) = (.intLiteral, ((based (baseDigit x) s).cons x).cons '0') := by
  rw [number_zero, baseDigit]
  split
  · rfl
  · rename_i hhex
    rw [if_pos]
    simpa [isBaseMark, hhex, or_assoc] using hx

theorem exists_base {s : Text} (h : inTens s = false) : ∃ x u, s = '0' :: x :: u ∧ isBaseMark x = true := by
  unfold inTens at h
  split at h
  · rename_i u
    cases u with
    | nil => cases h
    | cons x u => exact ⟨x, u, rfl, by simpa using h⟩
  · cases h

theorem number_ends {t r r' : Text} {k : Kind} (hends : Ends r r')
    (hscales : isPlain t = true → scales r' = true → scales r = true) (ht : t ≠ [])
    (h : number (t ++ r) = (k, ⟨t, r, true⟩)) : number (t ++ r') = (k, ⟨t, r', true⟩) := by
  obtain ⟨a, t, rfl⟩ := List.exists_cons_of_ne_nil ht
  cases hten : inTens (a :: t ++ r) with
  | true =>
    have hten' : inTens (a :: t ++ r') = true := by
      by_cases ha : a = '0'
      · subst ha
        cases t with
        | cons x t => exact hten
        | nil =>
          have hr : ∀ c ∈ r.head?, isBaseMark c = false := by
            intro c hc
            simpa [inTens, Option.mem_def.mp hc] using hten
          have hr' := hends.not_head (by decide) hr
          cases r' with
          | nil => rfl
          | cons c r' => simp [inTens, hr' c rfl]
      · unfold inTens
        split
        · rename_i heq
          exact absurd (List.cons.inj heq).1 ha
        · rfl
    rw [number_of_inTens hten] at h
    rw [number_of_inTens hten']
    exact decimal_ends hends hscales h
  | false =>
    obtain ⟨x, u, hs, hx⟩ := exists_base hten
    rw [hs, number_of_base hx] at h
    obtain ⟨rfl, hzero⟩ := Prod.mk.inj h
    obtain ⟨v, hv, hmark⟩ := cons_eq_mk hzero
    obtain ⟨w, rfl, hcut⟩ := cons_eq_mk hmark
    obtain ⟨rfl, rfl⟩ := List.cons.inj hv
    obtain rfl : w ++ r = u := by simpa using hs
    have hdigits : gaps.any (baseDigit x) = false := by
      rw [baseDigit]
      split <;> decide
    rw [List.cons_append, List.cons_append, number_of_base hx, cons_cons_eq.mpr (local_based hdigits hends hcut)]

theorem not_scales_of_number {t r : Text} {k : Kind} (ht : isPlain t = true) (h : number (t ++ r) = (k, ⟨t, r, true⟩)) :
    scales r = false := by
  cases hten : inTens (t ++ r) with
  | true =>
    rw [number_of_inTens hten] at h
    exact not_scales_of_decimal h ht
  | false =>
    obtain ⟨x, u, hs, hx⟩ := exists_base hten
    rw [hs, number_of_base hx] at h
    obtain ⟨v, rfl, hmark⟩ := cons_eq_mk (Prod.mk.inj h).2
    obtain ⟨w, rfl, -⟩ := cons_eq_mk hmark
    have hplain := List.all_eq_true.mp ht x (by simp)
    have hnone : ['x', 'X', 'b', 'B'].any (fun y => isDigitOrMark y || y == '.') = false := by decide
    exact absurd hplain (List.any_eq_false.mp hnone x (by simpa [isBaseMark, or_assoc] using hx))

theorem closed_number (s : Text) : (number s).2.closed = true := by
  unfold number
  split
  · split
    · rfl
    · split
      · rfl
      · exact closed_decimal _
  · exact closed_decimal _

theorem blockComment_append {s t r : Text} (h : blockComment s = ⟨t, r, true⟩) (r' : Text) :
    t ≠ [] ∧ blockComment (t ++ r') = ⟨t, r', true⟩ := by
  fun_induction blockComment s generalizing t with
  | case1 => simp at h
  | case2 s =>
    obtain ⟨rfl, -⟩ : ['*', '/'] = t ∧ s = r := by simpa using h
    exact ⟨by simp, rfl⟩
  | case3 c s hs ih =>
    obtain ⟨u, rfl, hu⟩ := cons_eq_mk h
    obtain ⟨hne, happ⟩ := ih hu
    have hwhole : u ++ r = s := by simpa [Cut.Whole, hu] using blockComment_whole s
    refine ⟨by simp, ?_⟩
    have hcons : blockComment (c :: (u ++ r')) = (blockComment (u ++ r')).cons c := by
      -- What follows the character is read as before, so it closes nothing.
      obtain ⟨d, u, rfl⟩ := List.exists_cons_of_ne_nil hne
      rw [blockComment]
      rintro v rfl hv
      obtain ⟨rfl, -⟩ : d = '/' ∧ u ++ r' = v := by simpa using hv
      exact hs (u ++ r) rfl hwhole.symm
    rw [List.cons_append, hcons, happ]
    rfl

theorem quoted_append {quote : Char} {s t r : Text} (h : quoted quote s = ⟨t, r, true⟩) (r' : Text) :
    quoted quote (t ++ r') = ⟨t, r', true⟩ := by
  fun_induction quoted quote s generalizing t with
  | case1 => simp at h
  | case2 => simp at h
  | case3 c hc e s ih =>
    obtain ⟨u, rfl, hu⟩ := cons_eq_mk h
    obtain ⟨v, rfl, hv⟩ := cons_eq_mk hu
    simp [quoted, hc, ih hv, Cut.cons]
  | case4 => simp at h
  | case5 c s hc hl hq =>
    obtain ⟨rfl, -⟩ : [c] = t ∧ s = r := by simpa using h
    rw [List.singleton_append, quoted.eq_def]
    simp only [hc, hl, hq, if_true, if_false, Bool.false_eq_true]
  | case6 c s hc hl hq ih =>
    obtain ⟨u, rfl, hu⟩ := cons_eq_mk h
    rw [List.cons_append, quoted.eq_def]
    simp only [hc, hl, hq, ih hu, Cut.cons, if_false, Bool.false_eq_true]

theorem special_append {form : StringForm} {hole : Hole} {s t r r' : Text}
    (hhead : r'.head? = some '"' → r.head? = some '"')
    (h : special form hole s = ⟨t, r, true⟩) : t ≠ [] ∧ special form hole (t ++ r') = ⟨t, r', true⟩ := by
  fun_induction special form hole s generalizing t with
  | case1 | case2 | case6 | case11 | case16 => simp at h
  | case3 hole c hq hc e s ih | case12 hole c hq hc hc' e s ih =>
    obtain ⟨u, rfl, hu⟩ := cons_eq_mk h
    obtain ⟨v, rfl, hv⟩ := cons_eq_mk hu
    refine ⟨by simp, ?_⟩
    rw [List.cons_append, List.cons_append, special.eq_def]
    simp only [*, (ih hv).2, Cut.cons, if_true, if_false, Bool.false_eq_true]
  | case4 hole c s hq hc hc' ih | case5 hole c s hq hc hc' hl hv ih | case7 hole c s hq hc hc' hl ih
  | case8 hole c s hq hc hd ih | case15 hole c s hq hc hc' hb hb' ih | case17 hole c s hq hc hc' hb hb' hl ih =>
    obtain ⟨u, rfl, hu⟩ := cons_eq_mk h
    refine ⟨by simp, ?_⟩
    rw [List.cons_append, special.eq_def]
    simp only [*, (ih hu).2, Cut.cons, if_true, if_false, Bool.false_eq_true]
  | case9 hole c hq hc hd s hv ih =>
    obtain ⟨u, rfl, hu⟩ := cons_eq_mk h
    obtain ⟨v, rfl, hv'⟩ := cons_eq_mk hu
    refine ⟨by simp, ?_⟩
    rw [List.cons_append, List.cons_append, special.eq_def]
    simp only [*, (ih hv').2, Cut.cons, if_true, if_false, Bool.false_eq_true]
  | case10 hole c s hq hc hd hs =>
    obtain ⟨rfl, rfl⟩ : [c] = t ∧ s = r := by simpa using h
    refine ⟨by simp, ?_⟩
    rw [List.singleton_append, special.eq_def]
    simp only [hq, hc, hd, if_true, if_false, Bool.false_eq_true]
    split
    · rename_i v hv
      cases s with
      | nil => simp at hhead
      | cons d s =>
        obtain rfl : d = '"' := by simpa using hhead
        exact absurd rfl (hs s hv)
    · rfl
  | case13 hole c hq hc hc' hb s hd ih =>
    obtain ⟨u, rfl, hu⟩ := cons_eq_mk h
    obtain ⟨v, rfl, hv⟩ := cons_eq_mk hu
    refine ⟨by simp, ?_⟩
    rw [List.cons_append, List.cons_append, special.eq_def]
    simp only [*, (ih hv).2, Cut.cons, if_true, if_false, Bool.false_eq_true]
  | case14 hole c hq hc hc' hb s hs ih =>
    obtain ⟨u, rfl, hu⟩ := cons_eq_mk h
    obtain ⟨hne, happ⟩ := ih hu
    have hwhole : u ++ r = s := by simpa [Cut.Whole, hu] using special_whole form ⟨hole.depth + 1, false⟩ s
    refine ⟨by simp, ?_⟩
    rw [List.cons_append, special.eq_def]
    simp only [hq, hc, hc', hb, if_true, if_false, Bool.false_eq_true]
    obtain ⟨d, u, rfl⟩ := List.exists_cons_of_ne_nil hne
    split
    · rename_i v hd hv
      obtain ⟨rfl, -⟩ := List.cons.inj hv
      exact absurd hwhole.symm (hs (u ++ r) hd)
    · rw [happ]
      rfl

end Literal

end Lintel
