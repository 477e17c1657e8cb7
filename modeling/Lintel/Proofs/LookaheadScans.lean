import Lintel.Proofs.TypeLookahead

/-!
The scans as loops over places in the input. A derivation of a scan has no bound on its steps, and a counter that would
go below zero has no step at all; every scan has a derivation, and one outcome.
-/

namespace Lintel.Grammar

inductive Scan where
  | type | suffixes | rank | name | dots | arguments
  | parens (opened : Nat)
  | modifiers

def parenStops (l : List Item) : Bool :=
  l.isEmpty || headKind l == .semicolon || headKind l == .lBrace || headKind l == .rBrace

def atModifier (l : List Item) : Bool :=
  l.head?.any (fun i => i.kind.isModifier && i.kind != .newKw)

/-- A scan that starts before some items ends before others, or finds nothing. -/
inductive Scans : Scan → List Item → Option (List Item) → Prop
  | type_builtin {l : List Item} {r : Option (List Item)} : (headKind l).isPredefinedType = true →
      Scans .suffixes l.tail r → Scans .type l r
  | type_named {l m : List Item} {r : Option (List Item)} : headKind l = .ident → Scans .name l (some m) →
      Scans .suffixes m r → Scans .type l r
  | type_unnamed {l : List Item} : headKind l = .ident → Scans .name l none → Scans .type l none
  | type_none {l : List Item} : (headKind l).isPredefinedType = false → headKind l ≠ .ident → Scans .type l none
  | suffixes_sign {l : List Item} {r : Option (List Item)} : headKind l = .question ∨ headKind l = .star →
      Scans .suffixes l.tail r → Scans .suffixes l r
  | suffixes_rank {l m : List Item} {r : Option (List Item)} : headKind l = .lBracket → Scans .rank l.tail (some m) →
      Scans .suffixes m r → Scans .suffixes l r
  | suffixes_bracket {l : List Item} : headKind l = .lBracket → Scans .rank l.tail none → Scans .suffixes l (some l)
  | suffixes_end {l : List Item} : headKind l ≠ .question → headKind l ≠ .star → headKind l ≠ .lBracket →
      Scans .suffixes l (some l)
  | rank_comma {l : List Item} {r : Option (List Item)} : headKind l = .comma → Scans .rank l.tail r → Scans .rank l r
  | rank_end {l : List Item} : headKind l = .rBracket → Scans .rank l (some l.tail)
  | rank_none {l : List Item} : headKind l ≠ .comma → headKind l ≠ .rBracket → Scans .rank l none
  | name_none {l : List Item} : headKind l ≠ .ident → Scans .name l none
  | name_arguments {l m : List Item} {r : Option (List Item)} : headKind l = .ident → secondKind l = .lt →
      Scans .arguments l.tail.tail (some m) → Scans .dots m r → Scans .name l r
  | name_angle {l : List Item} : headKind l = .ident → secondKind l = .lt → Scans .arguments l.tail.tail none →
      Scans .name l (some l.tail)
  | name_plain {l : List Item} {r : Option (List Item)} : headKind l = .ident → secondKind l ≠ .lt →
      Scans .dots l.tail r → Scans .name l r
  | dots_more {l : List Item} {r : Option (List Item)} : qualifies l = true → Scans .name l.tail r → Scans .dots l r
  | dots_end {l : List Item} : qualifies l = false → Scans .dots l (some l)
  | arguments_comma {l : List Item} {r : Option (List Item)} : headKind l = .comma → Scans .arguments l.tail r →
      Scans .arguments l r
  | arguments_end {l : List Item} : headKind l = .gt → Scans .arguments l (some l.tail)
  | arguments_none {l : List Item} : headKind l ≠ .comma → headKind l ≠ .gt → Scans .type l none →
      Scans .arguments l none
  | arguments_next {l m : List Item} {r : Option (List Item)} : headKind l ≠ .comma → headKind l ≠ .gt →
      Scans .type l (some m) → headKind m = .comma → Scans .arguments m.tail r → Scans .arguments l r
  | arguments_last {l m : List Item} : headKind l ≠ .comma → headKind l ≠ .gt → Scans .type l (some m) →
      headKind m = .gt → Scans .arguments l (some m.tail)
  | arguments_bad {l m : List Item} : headKind l ≠ .comma → headKind l ≠ .gt → Scans .type l (some m) →
      headKind m ≠ .comma → headKind m ≠ .gt → Scans .arguments l none
  | parens_open {n : Nat} {l : List Item} {r : Option (List Item)} : headKind l = .lParen →
      Scans (.parens (n + 1)) l.tail r → Scans (.parens n) l r
  | parens_close {n : Nat} {l : List Item} {r : Option (List Item)} : headKind l = .rParen →
      Scans (.parens (n + 1)) l.tail r → Scans (.parens (n + 2)) l r
  | parens_end {l : List Item} : headKind l = .rParen → Scans (.parens 1) l (some l.tail)
  | parens_none {n : Nat} {l : List Item} : parenStops l = true → Scans (.parens n) l none
  | parens_other {n : Nat} {l : List Item} {r : Option (List Item)} : parenStops l = false → headKind l ≠ .lParen →
      headKind l ≠ .rParen → Scans (.parens n) l.tail r → Scans (.parens n) l r
  | modifiers_more {l : List Item} {r : Option (List Item)} : atModifier l = true → Scans .modifiers l.tail r →
      Scans .modifiers l r
  | modifiers_end {l : List Item} : atModifier l = false → Scans .modifiers l (some l)

section Equations

theorem rankEnd?_head (l : List Item) : rankEnd? l =
    if headKind l == .comma then rankEnd? l.tail else if headKind l == .rBracket then some l.tail else none := by
  cases l with
  | nil => rfl
  | cons i l => exact rankEnd?_cons i l

theorem suffixEnd_head (l : List Item) : suffixEnd l =
    if headKind l == .question || headKind l == .star then suffixEnd l.tail
    else if headKind l == .lBracket then (rankEnd? l.tail).elim l suffixEnd else l := by
  cases l with
  | nil => exact suffixEnd_nil
  | cons i l => exact suffixEnd_cons i l

theorem typeEnd?_head (l : List Item) : typeEnd? l =
    if (headKind l).isPredefinedType then some (suffixEnd l.tail)
    else if headKind l == .ident then (nameEnd? l).map suffixEnd else none := by
  cases l with
  | nil => exact typeEnd?_nil
  | cons i l => exact typeEnd?_cons i l

theorem nameEnd?_head (l : List Item) : nameEnd? l =
    if headKind l == .ident then restOfName? (segmentEnd l.tail) else none := by
  cases l with
  | nil =>
    rw [nameEnd?, scanName]
    rfl
  | cons i l =>
    by_cases hi : i.kind = .ident
    · simp [nameEnd?_cons l hi, headKind, hi]
    · rw [nameEnd?, scanName.eq_def]
      simp [headKind, hi]

theorem argumentsEnd?_head (l : List Item) : argumentsEnd? l =
    if headKind l == .comma then argumentsEnd? l.tail
    else if headKind l == .gt then some l.tail
    else (typeEnd? l).bind (fun m => if headKind m == .comma then argumentsEnd? m.tail
      else if headKind m == .gt then some m.tail else none) := by
  cases l with
  | nil =>
    rw [argumentsEnd?, scanArguments, typeEnd?_nil]
    rfl
  | cons i l =>
    rw [argumentsEnd?_cons]
    congr 2
    rcases typeEnd? (i :: l) with _ | _ | ⟨j, m⟩
    · rfl
    · rfl
    · rfl

theorem scanParen_head (n : Nat) (l : List Item) : scanParen n l =
    if parenStops l then none
    else if headKind l == .lParen then scanParen (n + 1) l.tail
    else if headKind l == .rParen then
      match n with
      | 0 => some l.tail
      | d + 1 => scanParen d l.tail
    else scanParen n l.tail := by
  cases l with
  | nil => simp [scanParen, parenStops]
  | cons i l =>
    rw [scanParen.eq_def]
    simp only [parenStops, headKind, List.head?_cons, Option.elim_some, List.tail_cons, List.isEmpty_cons,
      Bool.false_or]
    cases n with
    | zero => split <;> simp_all
    | succ n => split <;> simp_all

theorem parenStops_of_parens {l : List Item} (h : headKind l = .lParen ∨ headKind l = .rParen) :
    parenStops l = false := by
  cases l with
  | nil => simp [headKind] at h
  | cons i l =>
    obtain h | h := h <;> simp [parenStops, h]

end Equations

def Scan.Answers : Scan → List Item → Option (List Item) → Prop
  | type, l, r => r = typeEnd? l
  | suffixes, l, r => r = some (suffixEnd l)
  | rank, l, r => r = rankEnd? l
  | name, l, r => r = nameEnd? l
  | dots, l, r => r = restOfName? l
  | arguments, l, r => r = argumentsEnd? l
  | parens 0, l, r => headKind l = .lParen → r = scanParen 0 l.tail
  | parens (n + 1), l, r => r = scanParen n l
  | modifiers, l, r => r = some (l.dropWhile (fun i => i.kind.isModifier && i.kind != .newKw))

theorem Scans.answers {x : Scan} {l : List Item} {r : Option (List Item)} (h : Scans x l r) : x.Answers l r := by
  induction h with
  | type_builtin hk _ ih =>
    rw [Scan.Answers, typeEnd?_head, if_pos hk]
    exact ih
  | type_named hk _ _ ihname ih =>
    simp only [Scan.Answers] at ihname ih ⊢
    rw [typeEnd?_head, ← ihname, ih, hk]
    rfl
  | type_unnamed hk _ ih =>
    simp only [Scan.Answers] at ih ⊢
    rw [typeEnd?_head, ← ih, hk]
    rfl
  | type_none hbuiltin hk => simp [Scan.Answers, typeEnd?_head, hbuiltin, hk]
  | suffixes_sign hk _ ih =>
    simp only [Scan.Answers] at ih ⊢
    rw [suffixEnd_head, if_pos (by simpa using hk), ih]
  | suffixes_rank hk _ _ ihrank ih =>
    simp only [Scan.Answers] at ihrank ih ⊢
    rw [suffixEnd_head, ← ihrank, ih, hk]
    rfl
  | suffixes_bracket hk _ ihrank =>
    simp only [Scan.Answers] at ihrank ⊢
    rw [suffixEnd_head, ← ihrank, hk]
    rfl
  | suffixes_end hquestion hstar hbracket => simp [Scan.Answers, suffixEnd_head, hquestion, hstar, hbracket]
  | rank_comma hk _ ih =>
    simp only [Scan.Answers] at ih ⊢
    rw [rankEnd?_head, ih, hk]
    rfl
  | rank_end hk => simp [Scan.Answers, rankEnd?_head, hk]
  | rank_none hcomma hk => simp [Scan.Answers, rankEnd?_head, hcomma, hk]
  | name_none hk => simp [Scan.Answers, nameEnd?_head, hk]
  | name_arguments hk hlt _ _ ihargs ih =>
    simp only [Scan.Answers] at ihargs ih ⊢
    simp [nameEnd?_head, segmentEnd, hk, ih, ← ihargs, show headKind (List.tail _) = .lt from hlt]
  | name_angle hk hlt _ ihargs =>
    simp only [Scan.Answers] at ihargs ⊢
    simp [nameEnd?_head, segmentEnd, restOfName?, qualifies, hk, ← ihargs, show headKind (List.tail _) = .lt from hlt]
  | name_plain hk hlt _ ih =>
    simp only [Scan.Answers] at ih ⊢
    simp [nameEnd?_head, segmentEnd, hk, ih, show headKind (List.tail _) ≠ .lt from hlt]
  | dots_more hk _ ih =>
    simp only [Scan.Answers] at ih ⊢
    rw [restOfName?, if_pos hk, ih]
  | dots_end hk => simp [Scan.Answers, restOfName?, hk]
  | arguments_comma hk _ ih =>
    simp only [Scan.Answers] at ih ⊢
    rw [argumentsEnd?_head, ih, hk]
    rfl
  | arguments_end hk => simp [Scan.Answers, argumentsEnd?_head, hk]
  | arguments_none hcomma hgt _ ihtype =>
    simp only [Scan.Answers] at ihtype ⊢
    rw [argumentsEnd?_head]
    simp [hcomma, hgt, ← ihtype]
  | arguments_next hcomma hgt _ hk _ ihtype ih =>
    simp only [Scan.Answers] at ihtype ih ⊢
    rw [argumentsEnd?_head, ih]
    simp [hcomma, hgt, ← ihtype, hk]
  | arguments_last hcomma hgt _ hk ihtype =>
    simp only [Scan.Answers] at ihtype ⊢
    rw [argumentsEnd?_head]
    simp [hcomma, hgt, ← ihtype, hk]
  | arguments_bad hcomma hgt _ hk hk' ihtype =>
    simp only [Scan.Answers] at ihtype ⊢
    rw [argumentsEnd?_head]
    simp [hcomma, hgt, ← ihtype, hk, hk']
  | @parens_open n l r hk _ ih =>
    cases n with
    | zero => exact fun _ => ih
    | succ n =>
      simp only [Scan.Answers] at ih ⊢
      rw [scanParen_head, parenStops_of_parens (.inl hk), ih, hk]
      rfl
  | parens_close hk _ ih =>
    simp only [Scan.Answers] at ih ⊢
    rw [scanParen_head, parenStops_of_parens (.inr hk), ih, hk]
    rfl
  | parens_end hk =>
    simp only [Scan.Answers]
    rw [scanParen_head, parenStops_of_parens (.inr hk), hk]
    rfl
  | @parens_none n l hstop =>
    cases n with
    | zero =>
      intro hk
      rw [parenStops_of_parens (.inl hk)] at hstop
      cases hstop
    | succ n =>
      simp only [Scan.Answers]
      rw [scanParen_head, if_pos hstop]
  | @parens_other n l r hstop hopen hclose _ ih =>
    cases n with
    | zero => exact fun hk => absurd hk hopen
    | succ n =>
      simp only [Scan.Answers] at ih ⊢
      rw [scanParen_head, hstop, ih]
      simp [hopen, hclose]
  | @modifiers_more l r hk _ ih =>
    cases l with
    | nil => cases hk
    | cons i l =>
      simp only [Scan.Answers, List.tail_cons] at ih ⊢
      rw [ih, List.dropWhile_cons_of_pos]
      simpa [atModifier] using hk
  | @modifiers_end l hk =>
    cases l with
    | nil => rfl
    | cons i l =>
      simp only [Scan.Answers]
      rw [List.dropWhile_cons_of_neg]
      simpa [atModifier] using hk

theorem length_tail_lt {l : List Item} {k : Kind} (h : headKind l = k) (hk : k ≠ .eof) : l.tail.length < l.length := by
  obtain ⟨i, m, rfl, -⟩ := exists_cons_of_headKind h hk
  exact Nat.lt_succ_self _

theorem ends_rank (l : List Item) : ∃ r, Scans .rank l r := by
  induction l with
  | nil => exact ⟨none, .rank_none nofun nofun⟩
  | cons i l ih =>
    by_cases hcomma : i.kind = .comma
    · obtain ⟨r, hr⟩ := ih
      exact ⟨r, .rank_comma hcomma hr⟩
    · by_cases hk : i.kind = .rBracket
      · exact ⟨_, .rank_end hk⟩
      · exact ⟨none, .rank_none hcomma hk⟩

theorem ends_suffixes (l : List Item) : ∃ r, Scans .suffixes l r := by
  by_cases hsign : headKind l = .question ∨ headKind l = .star
  · have hlt : l.tail.length < l.length := hsign.elim (length_tail_lt · (by decide)) (length_tail_lt · (by decide))
    obtain ⟨r, hr⟩ := ends_suffixes l.tail
    exact ⟨r, .suffixes_sign hsign hr⟩
  · by_cases hk : headKind l = .lBracket
    · have hlt := length_tail_lt hk (by decide)
      obtain ⟨none | m, hrank⟩ := ends_rank l.tail
      · exact ⟨_, .suffixes_bracket hk hrank⟩
      · have hm : m.length < l.tail.length := by
          obtain ⟨q, -, hq⟩ := Option.map_eq_some_iff.mp hrank.answers.symm
          exact hq ▸ q.2
        obtain ⟨r, hr⟩ := ends_suffixes m
        exact ⟨r, .suffixes_rank hk hrank hr⟩
    · exact ⟨_, .suffixes_end (fun h => hsign (.inl h)) (fun h => hsign (.inr h)) hk⟩
termination_by l.length

theorem ends_names (l : List Item) :
    (∃ r, Scans .name l r) ∧ (∃ r, Scans .type l r) ∧ (∃ r, Scans .arguments l r) ∧ ∃ r, Scans .dots l r := by
  have hname : ∃ r, Scans .name l r := by
    by_cases hk : headKind l = .ident
    · have hlt := length_tail_lt hk (by decide)
      by_cases hangle : secondKind l = .lt
      · have hlt' : l.tail.tail.length < l.tail.length := length_tail_lt hangle (by decide)
        obtain ⟨none | m, hargs⟩ := (ends_names l.tail.tail).2.2.1
        · exact ⟨_, .name_angle hk hangle hargs⟩
        · have hm : m.length < l.tail.tail.length := by
            obtain ⟨q, -, hq⟩ := Option.map_eq_some_iff.mp hargs.answers.symm
            exact hq ▸ q.2
          obtain ⟨r, hr⟩ := (ends_names m).2.2.2
          exact ⟨r, .name_arguments hk hangle hargs hr⟩
      · obtain ⟨r, hr⟩ := (ends_names l.tail).2.2.2
        exact ⟨r, .name_plain hk hangle hr⟩
    · exact ⟨none, .name_none hk⟩
  have htype : ∃ r, Scans .type l r := by
    by_cases hk : headKind l = .ident
    · obtain ⟨none | m, hm⟩ := hname
      · exact ⟨none, .type_unnamed hk hm⟩
      · obtain ⟨r, hr⟩ := ends_suffixes m
        exact ⟨r, .type_named hk hm hr⟩
    · cases hbuiltin : (headKind l).isPredefinedType with
      | true =>
        obtain ⟨r, hr⟩ := ends_suffixes l.tail
        exact ⟨r, .type_builtin hbuiltin hr⟩
      | false => exact ⟨none, .type_none hbuiltin hk⟩
  have hargs : ∃ r, Scans .arguments l r := by
    by_cases hcomma : headKind l = .comma
    · have hlt := length_tail_lt hcomma (by decide)
      obtain ⟨r, hr⟩ := (ends_names l.tail).2.2.1
      exact ⟨r, .arguments_comma hcomma hr⟩
    · by_cases hgt : headKind l = .gt
      · exact ⟨_, .arguments_end hgt⟩
      · obtain ⟨none | m, hm⟩ := htype
        · exact ⟨none, .arguments_none hcomma hgt hm⟩
        · have hlt : m.length < l.length := by
            obtain ⟨q, -, hq⟩ := Option.map_eq_some_iff.mp hm.answers.symm
            exact hq ▸ q.2
          by_cases hnext : headKind m = .comma
          · have hlt' := length_tail_lt hnext (by decide)
            obtain ⟨r, hr⟩ := (ends_names m.tail).2.2.1
            exact ⟨r, .arguments_next hcomma hgt hm hnext hr⟩
          · by_cases hlast : headKind m = .gt
            · exact ⟨_, .arguments_last hcomma hgt hm hlast⟩
            · exact ⟨none, .arguments_bad hcomma hgt hm hnext hlast⟩
  refine ⟨hname, htype, hargs, ?_⟩
  cases hmore : qualifies l with
  | true =>
    have hlt : l.tail.length < l.length := by
      cases l with
      | nil => cases hmore
      | cons i l => exact Nat.lt_succ_self _
    obtain ⟨r, hr⟩ := (ends_names l.tail).1
    exact ⟨r, .dots_more hmore hr⟩
  | false => exact ⟨_, .dots_end hmore⟩
termination_by l.length

theorem ends_parens (n : Nat) (l : List Item) : ∃ r, Scans (.parens (n + 1)) l r := by
  induction l generalizing n with
  | nil => exact ⟨none, .parens_none rfl⟩
  | cons i l ih =>
    cases hstop : parenStops (i :: l) with
    | true => exact ⟨none, .parens_none hstop⟩
    | false =>
      by_cases hopen : i.kind = .lParen
      · obtain ⟨r, hr⟩ := ih (n + 1)
        exact ⟨r, .parens_open hopen hr⟩
      · by_cases hclose : i.kind = .rParen
        · cases n with
          | zero => exact ⟨_, .parens_end hclose⟩
          | succ n =>
            obtain ⟨r, hr⟩ := ih n
            exact ⟨r, .parens_close hclose hr⟩
        · obtain ⟨r, hr⟩ := ih n
          exact ⟨r, .parens_other hstop hopen hclose hr⟩

theorem ends_modifiers (l : List Item) : ∃ r, Scans .modifiers l r := by
  induction l with
  | nil => exact ⟨_, .modifiers_end rfl⟩
  | cons i l ih =>
    cases hk : atModifier (i :: l) with
    | true =>
      obtain ⟨r, hr⟩ := ih
      exact ⟨r, .modifiers_more hk hr⟩
    | false => exact ⟨_, .modifiers_end hk⟩

def Scan.Starts : Scan → List Item → Prop
  | parens 0, l => headKind l = .lParen
  | _, _ => True

/-- Every scan ends, with one outcome, which is as it should be. -/
theorem scans_unique {x : Scan} {l : List Item} (h : x.Starts l) : ∃ r, x.Answers l r ∧ ∀ q, Scans x l q ↔ q = r := by
  have hends : ∃ q, Scans x l q := by
    cases x with
    | type => exact (ends_names l).2.1
    | suffixes => exact ends_suffixes l
    | rank => exact ends_rank l
    | name => exact (ends_names l).1
    | dots => exact (ends_names l).2.2.2
    | arguments => exact (ends_names l).2.2.1
    | parens n =>
      cases n with
      | zero =>
        obtain ⟨q, hq⟩ := ends_parens 0 l.tail
        exact ⟨q, .parens_open h hq⟩
      | succ n => exact ends_parens n l
    | modifiers => exact ends_modifiers l
  obtain ⟨r, hr⟩ := hends
  refine ⟨r, hr.answers, fun q => ⟨fun hq => ?_, fun hq => hq ▸ hr⟩⟩
  have hanswer := hr.answers
  have hanswer' := hq.answers
  cases x with
  | parens n =>
    cases n with
    | zero => exact (hanswer' h).trans (hanswer h).symm
    | succ n => exact hanswer'.trans hanswer.symm
  | _ => exact hanswer'.trans hanswer.symm

end Lintel.Grammar
