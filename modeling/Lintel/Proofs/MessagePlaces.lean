import Mathlib.Data.Nat.Digits.Defs
import Mathlib.Data.Option.Basic
import Lintel.Message

namespace Lintel.Message

/-- A text that is read as a number: decimal digits, with an optional plus sign before them, for a value of at most
64 bits. -/
def Numeral (s : Text) (n : Nat) : Prop :=
  ∃ ds : Text, (s = ds ∨ s = '+' :: ds) ∧ ds ≠ [] ∧ (∀ c ∈ ds, c.isDigit = true) ∧
    n = Nat.ofDigits 10 (ds.reverse.map (fun c => c.toNat - '0'.toNat)) ∧ n < UInt64.size

def HasPlace (count : Nat) (t : Text) : Prop :=
  ∃ a s b n, t = a ++ '\x7b' :: (s ++ '\x7d' :: b) ∧ Numeral s n ∧ n < count

inductive Segment (count : Nat) where
  | literal (t : Text) (plain : '\x7b' ∉ t)
  | place (s : Text) (n : Fin count) (reads : Numeral s n)

namespace Segment

def text {count : Nat} : Segment count → Text
  | literal t _ => t
  | place s _ _ => '\x7b' :: (s ++ ['\x7d'])

def filled (args : List Text) : Segment args.length → Text
  | literal t _ => t
  | place _ n _ => args[n]

end Segment

section Numerals

theorem digits?_of_digits {ds : Text} (h : ∀ c ∈ ds, c.isDigit = true) (acc : Nat) :
    digits? acc ds = some (Nat.ofDigits 10 (ds.reverse.map (fun c => c.toNat - '0'.toNat) ++ [acc])) := by
  induction ds generalizing acc with
  | nil => simp [digits?]
  | cons c ds ih =>
    rw [digits?, if_pos (h c (by simp)), ih (fun d hd => h d (by simp [hd]))]
    simp only [List.reverse_cons, List.map_append, List.append_assoc, Nat.ofDigits_append]
    congr 3
    simp [Nat.ofDigits_cons, Nat.add_comm]

theorem isDigit_of_digits? {ds : Text} {acc n : Nat} (h : digits? acc ds = some n) : ∀ c ∈ ds, c.isDigit = true := by
  induction ds generalizing acc with
  | nil => simp
  | cons c ds ih =>
    rw [digits?] at h
    split at h
    · rename_i hc
      intro d hd
      obtain rfl | hd := List.mem_cons.mp hd
      · exact hc
      · exact ih h d hd
    · cases h

def unsigned (s : Text) : Text :=
  match s with
  | '+' :: ds => ds
  | ds => ds

theorem number?_eq_some {s : Text} {n : Nat} :
    number? s = some n ↔ unsigned s ≠ [] ∧ digits? 0 (unsigned s) = some n ∧ n < UInt64.size := by
  change (guard (!(unsigned s).isEmpty) >>= fun _ => digits? 0 (unsigned s) >>= fun m => guard (m < UInt64.size) >>=
    fun _ => pure m) = some n ↔ _
  simp only [Option.bind_eq_bind, Option.bind_eq_some_iff, Option.guard_eq_some', Option.pure_def, Option.some.injEq]
  constructor
  · rintro ⟨-, hne, m, hm, -, hlt, rfl⟩
    exact ⟨by simpa using hne, hm, by simpa using hlt⟩
  · rintro ⟨hne, hn, hlt⟩
    exact ⟨(), by simpa using hne, n, hn, (), by simpa using hlt, rfl⟩

theorem number?_eq_some_iff {s : Text} {n : Nat} : number? s = some n ↔ Numeral s n := by
  rw [number?_eq_some]
  constructor
  · rintro ⟨hne, hdigits, hlt⟩
    have hall := isDigit_of_digits? hdigits
    rw [digits?_of_digits hall, Nat.ofDigits_append] at hdigits
    refine ⟨unsigned s, ?_, hne, hall, by simpa using (Option.some.inj hdigits).symm, hlt⟩
    unfold unsigned
    split
    · exact .inr rfl
    · exact .inl rfl
  · rintro ⟨ds, hs, hne, hall, hvalue, hlt⟩
    have hunsigned : unsigned s = ds := by
      obtain rfl | rfl := hs
      · unfold unsigned
        split
        · exact absurd (hall '+' (by simp)) (by decide)
        · rfl
      · rfl
    rw [hunsigned, digits?_of_digits hall, Nat.ofDigits_append, hvalue]
    exact ⟨hne, by simp, hvalue ▸ hlt⟩

theorem Numeral.not_mem {s : Text} {n : Nat} (h : Numeral s n) {c : Char} (hc : c.isDigit = false) (hplus : c ≠ '+') :
    c ∉ s := by
  obtain ⟨ds, hs, -, hall, -⟩ := h
  have hds : c ∉ ds := fun hmem => by simp [hall c hmem] at hc
  obtain rfl | rfl := hs
  · exact hds
  · simp [hplus, hds]

end Numerals

section Places

theorem untilBrace_append {s : Text} (h : '\x7d' ∉ s) (b : Text) : untilBrace (s ++ '\x7d' :: b) = some (s, b) := by
  induction s with
  | nil => rfl
  | cons c s ih =>
    simp only [List.mem_cons, not_or] at h
    rw [List.cons_append, untilBrace, ih h.2]
    · rfl
    · exact fun hc => h.1 hc.symm

theorem append_of_untilBrace {t s b : Text} (h : untilBrace t = some (s, b)) : t = s ++ '\x7d' :: b ∧ '\x7d' ∉ s := by
  induction t generalizing s b with
  | nil => cases h
  | cons c t ih =>
    by_cases hc : c = '\x7d'
    · subst hc
      cases h
      simp
    · rw [untilBrace] at h
      · obtain ⟨⟨s, b⟩, hs, heq⟩ := Option.map_eq_some_iff.mp h
        cases heq
        obtain ⟨rfl, hmem⟩ := ih hs
        exact ⟨rfl, by simp [Ne.symm hc, hmem]⟩
      · exact hc

variable {args : List Text}

theorem place?_eq_some {t arg : Text} {r : { r : Text // r.length < t.length }} :
    place? args t = some (arg, r) ↔ ∃ s n, t = s ++ '\x7d' :: r.1 ∧ Numeral s n ∧ args[n]? = some arg := by
  have hcut {s : Text} {n : Nat} (ht : t = s ++ '\x7d' :: r.1) (hs : Numeral s n) : untilBrace t = some (s, r.1) :=
    (congrArg untilBrace ht).trans (untilBrace_append (hs.not_mem (by decide) (by decide)) r.1)
  unfold place?
  split
  · rename_i hnone
    constructor
    · intro h
      cases h
    · rintro ⟨s, n, ht, hs, -⟩
      rw [hcut ht hs] at hnone
      cases hnone
  · rename_i inner rest hsome
    simp only [Option.bind_eq_bind, Option.bind_eq_some_iff, Option.pure_def, Option.some.injEq, Prod.mk.injEq]
    constructor
    · rintro ⟨n, hn, _, harg, rfl, rfl⟩
      exact ⟨inner, n, (append_of_untilBrace hsome).1, number?_eq_some_iff.mp hn, harg⟩
    · rintro ⟨s, n, ht, hs, harg⟩
      obtain ⟨rfl, rfl⟩ := Prod.mk.inj (Option.some.inj (hsome.symm.trans (hcut ht hs)))
      exact ⟨n, number?_eq_some_iff.mpr hs, arg, harg, rfl, rfl⟩

theorem format_cons {c : Char} (hc : c ≠ '\x7b') (t : Text) : format args (c :: t) = c :: format args t := by
  rw [format, if_neg (by simpa using hc)]

theorem format_literal {a : Text} (ha : '\x7b' ∉ a) (t : Text) : format args (a ++ t) = a ++ format args t := by
  induction a with
  | nil => rfl
  | cons c a ih =>
    simp only [List.mem_cons, not_or] at ha
    rw [List.cons_append, format_cons (Ne.symm ha.1), ih ha.2, List.cons_append]

theorem format_brace {t : Text} (h : place? args t = none) : format args ('\x7b' :: t) = '\x7b' :: format args t := by
  rw [format, if_pos (beq_self_eq_true _), h]

theorem format_place {s arg : Text} {n : Nat} (hs : Numeral s n) (harg : args[n]? = some arg) (t : Text) :
    format args ('\x7b' :: (s ++ '\x7d' :: t)) = arg ++ format args t := by
  have hlt : t.length < (s ++ '\x7d' :: t).length := by
    rw [List.length_append, List.length_cons]
    omega
  have hplace : place? args (s ++ '\x7d' :: t) = some (arg, ⟨t, hlt⟩) := place?_eq_some.mpr ⟨s, n, rfl, hs, harg⟩
  rw [format, if_pos (beq_self_eq_true _), hplace]

theorem HasPlace.cons {count : Nat} {t : Text} (h : HasPlace count t) (c : Char) : HasPlace count (c :: t) := by
  obtain ⟨a, s, b, n, rfl, hs⟩ := h
  exact ⟨c :: a, s, b, n, rfl, hs⟩

theorem place?_eq_none {t : Text} (h : ¬HasPlace args.length ('\x7b' :: t)) : place? args t = none := by
  rw [Option.eq_none_iff_forall_ne_some]
  rintro ⟨arg, r⟩ hplace
  obtain ⟨s, n, ht, hs, harg⟩ := place?_eq_some.mp hplace
  exact h ⟨[], s, r.1, n, congrArg _ ht, hs, (List.getElem?_eq_some_iff.mp harg).1⟩

theorem format_of_not_hasPlace {t : Text} (h : ¬HasPlace args.length t) : format args t = t := by
  induction t with
  | nil => rw [format]
  | cons c t ih =>
    have htail := ih (fun ht => h (ht.cons c))
    by_cases hc : c = '\x7b'
    · subst hc
      rw [format_brace (place?_eq_none h), htail]
    · rw [format_cons hc, htail]

theorem place?_before_brace {a : Text} (ha : ¬HasPlace args.length ('\x7b' :: a)) (t : Text) :
    place? args (a ++ '\x7b' :: t) = none := by
  rw [Option.eq_none_iff_forall_ne_some]
  rintro ⟨arg, r⟩ hplace
  obtain ⟨s, n, ht, hs, harg⟩ := place?_eq_some.mp hplace
  have hbrace : '\x7b' ∉ s := hs.not_mem (by decide) (by decide)
  obtain ⟨c, rfl, hc⟩ | ⟨c, rfl, hc⟩ := List.append_eq_append_iff.mp ht
  · obtain ⟨rfl, -⟩ | ⟨c, rfl, -⟩ := List.cons_eq_append_iff.mp hc
    · simp at hc
    · simp at hbrace
  · obtain ⟨rfl, hc⟩ | ⟨c, rfl, -⟩ := List.cons_eq_append_iff.mp hc
    · simp at hc
    · exact ha ⟨[], s, c, n, rfl, hs, (List.getElem?_eq_some_iff.mp harg).1⟩

theorem format_before_brace {a : Text} (ha : ¬HasPlace args.length a) (t : Text) :
    format args (a ++ '\x7b' :: t) = a ++ format args ('\x7b' :: t) := by
  induction a with
  | nil => rfl
  | cons c a ih =>
    have htail := ih (fun h => ha (h.cons c))
    by_cases hc : c = '\x7b'
    · subst hc
      rw [List.cons_append, format_brace (place?_before_brace ha t), htail, List.cons_append]
    · rw [List.cons_append, format_cons hc, htail, List.cons_append]

theorem format_segments (args : List Text) (segments : List (Segment args.length)) :
    format args (segments.flatMap Segment.text) = segments.flatMap (Segment.filled args) := by
  induction segments with
  | nil => rw [List.flatMap_nil, format, List.flatMap_nil]
  | cons x segments ih =>
    rw [List.flatMap_cons, List.flatMap_cons, ← ih]
    cases x with
    | literal t plain => exact format_literal plain _
    | place s n reads =>
      rw [Segment.text, List.cons_append, List.append_assoc]
      exact format_place reads (List.getElem?_eq_getElem n.isLt) _

end Places

/-- In a template of literals and places every place is filled with its argument as it stands, whatever braces that has.
A text in which no number of an argument stands in braces is left as it is, whatever other braces it has. In any other
text the first place is filled and formatting goes on after it. -/
theorem format_fills_places (args : List Text) :
    (∀ segments : List (Segment args.length),
        format args (segments.flatMap Segment.text) = segments.flatMap (Segment.filled args)) ∧
      (∀ t, ¬HasPlace args.length t → format args t = t) ∧
      ∀ a s n t, ¬HasPlace args.length a → Numeral s n → (hn : n < args.length) →
        format args (a ++ '\x7b' :: (s ++ '\x7d' :: t)) = a ++ (args[n] ++ format args t) := by
  refine ⟨format_segments args, fun t => format_of_not_hasPlace, ?_⟩
  intro a s n t ha hs hn
  rw [format_before_brace ha, format_place hs (List.getElem?_eq_getElem hn)]

theorem numeral_digit : Numeral ['0'] 0 :=
  ⟨['0'], .inl rfl, by decide, List.all_eq_true.mp rfl, rfl, by decide⟩

theorem numeral_plus : Numeral ['+', '1'] 1 :=
  ⟨['1'], .inr rfl, by decide, List.all_eq_true.mp rfl, rfl, by decide⟩

def deceptive : List (Segment [['\x7b', '1', '\x7d'], ['b']].length) :=
  [.place ['0'] 0 numeral_digit, .literal ['\x7d'] (by decide), .place ['+', '1'] 1 numeral_plus]

theorem format_fills_places_deceptive :
    format [['\x7b', '1', '\x7d'], ['b']] ['\x7b', '0', '\x7d', '\x7d', '\x7b', '+', '1', '\x7d'] =
        ['\x7b', '1', '\x7d', '\x7d', 'b'] ∧
      ¬HasPlace 2 ['\x7b', '\x7b', '0'] ∧
      format [['\x7b', '1', '\x7d'], ['b']] ['\x7b', '\x7b', '0'] = ['\x7b', '\x7b', '0'] := by
  obtain ⟨hsegments, hplain, -⟩ := format_fills_places [['\x7b', '1', '\x7d'], ['b']]
  have hnone : ¬HasPlace 2 ['\x7b', '\x7b', '0'] := by
    rintro ⟨a, s, b, n, ht, -⟩
    have hmem : '\x7d' ∈ ['\x7b', '\x7b', '0'] := by simp [ht]
    exact absurd hmem (by decide)
  exact ⟨hsegments deceptive, hnone, hplain _ hnone⟩

end Lintel.Message
