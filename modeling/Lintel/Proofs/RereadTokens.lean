import Lintel.Proofs.Relexing

namespace Lintel

def Token.isBlank (t : Token) : Bool :=
  t.kind == .whitespace || t.kind == .newline

theorem Token.isBlank_of_significant {t : Token} (h : t.isTrivia = false) : t.isBlank = false := by
  obtain ⟨k, text⟩ := t
  rw [isBlank, Bool.or_eq_false_iff, beq_eq_false_iff_ne, beq_eq_false_iff_ne]
  constructor
  · rintro rfl
    cases h
  · rintro rfl
    cases h

namespace Lexeme

open Cut

def isBlank (c : Char) : Bool :=
  isInlineBlank c || Literal.isLineEnd c

theorem isLineEnd_of_newline {ls : Bool} {c : Char} {t r text : Text}
    (h : step ls c t = ⟨⟨⟨.newline, text⟩, none⟩, r⟩) :
    Literal.isLineEnd c = true ∧ ∀ d ∈ text, Literal.isLineEnd d = true := by
  obtain ⟨-, hc, hall⟩ | ⟨hk, -⟩ | ⟨⟨hk, -⟩ | ⟨hk | hk, -⟩, -⟩ := step_trivia h (by decide)
  · exact ⟨hc, hall⟩
  · cases hk
  · cases hk
  · cases hk
  · cases hk

theorem isInlineBlank_of_whitespace {ls : Bool} {c : Char} {t r text : Text}
    (h : step ls c t = ⟨⟨⟨.whitespace, text⟩, none⟩, r⟩) :
    isInlineBlank c = true ∧ ∀ d ∈ text, isInlineBlank d = true := by
  obtain ⟨hk, -⟩ | ⟨-, hc, hall⟩ | ⟨⟨hk, -⟩ | ⟨hk | hk, -⟩, -⟩ := step_trivia h (by decide)
  · cases hk
  · exact ⟨hc, hall⟩
  · cases hk
  · cases hk
  · cases hk

theorem isLineEnd_of_step {ls : Bool} {c : Char} {t r text : Text} {k : Kind}
    (h : step ls c t = ⟨⟨⟨k, text⟩, none⟩, r⟩) (hk : k ≠ .newline) : Literal.isLineEnd c = false := by
  cases hc : Literal.isLineEnd c with
  | false => rfl
  | true =>
    obtain rfl | rfl : c = '\n' ∨ c = '\r' := by simpa [Literal.isLineEnd] using hc
    · exact absurd (congrArg (·.lexeme.kind) h).symm hk
    · exact absurd (congrArg (·.lexeme.kind) h).symm hk

theorem isBlank_of_step {ls : Bool} {c : Char} {t r text : Text} {k : Kind} (h : step ls c t = ⟨⟨⟨k, text⟩, none⟩, r⟩) :
    isBlank c = Token.isBlank ⟨k, text⟩ := by
  by_cases hspace : k = .whitespace
  · subst hspace
    rw [isBlank, (isInlineBlank_of_whitespace h).1]
    rfl
  by_cases hnewline : k = .newline
  · subst hnewline
    rw [isBlank, (isLineEnd_of_newline h).1, Bool.or_true]
    rfl
  rw [isBlank, isInlineBlank_of_step h hspace, isLineEnd_of_step h hnewline]
  simp [Token.isBlank, hspace, hnewline]

theorem blank_of_step {ls : Bool} {c : Char} {t r text : Text} {k : Kind} (h : step ls c t = ⟨⟨⟨k, text⟩, none⟩, r⟩)
    (hk : Token.isBlank ⟨k, text⟩ = true) : ∀ d ∈ text, isBlank d = true := by
  intro d hd
  obtain rfl | rfl : k = .whitespace ∨ k = .newline := by simpa [Token.isBlank] using hk
  · rw [isBlank, (isInlineBlank_of_whitespace h).2 d hd, Bool.true_or]
  · rw [isBlank, (isLineEnd_of_newline h).2 d hd, Bool.or_true]

theorem mem_lineKinds {k : Kind} (h : k.isTrivia = true) (hk : k ≠ .blockComment) : k ∈ lineKinds := by
  have hall : ∀ k ∈ [Kind.whitespace, .newline, .lineComment, .docComment, .directive, .blockComment],
      k ≠ .blockComment → k ∈ lineKinds := by decide
  exact hall k (Kind.mem_of_isTrivia h) hk

theorem kind_of_step {ls ls' : Bool} {c : Char} {t r r' : Text} {k k' : Kind} (hk : k.isTrivia = false)
    (h : step ls c (t ++ r) = ⟨⟨⟨k, c :: t⟩, none⟩, r⟩) (h' : step ls' c (t ++ r') = ⟨⟨⟨k', c :: t⟩, none⟩, r'⟩) :
    k' = k := by
  have hline : k' ∉ lineKinds := by
    intro hmem
    obtain ⟨-, hc, -⟩ | ⟨-, hc, -⟩ | ⟨⟨-, hc, -⟩ | ⟨-, rfl, hhead⟩, hrest⟩ := step_trivia h' hmem
    · rw [isLineEnd_of_step h (by rintro rfl; cases hk)] at hc
      cases hc
    · rw [isInlineBlank_of_step h (by rintro rfl; cases hk)] at hc
      cases hc
    · exact ne_hash_of_step h hk hc
    · cases t with
      | nil => exact absurd (hrest '/' hhead) (by decide)
      | cons d t =>
        obtain rfl : d = '/' := by simpa using hhead
        have hkind : lineCommentKind ('/' :: '/' :: (t ++ r)) = k := congrArg (·.lexeme.kind) h
        obtain heq | heq := lineCommentKind_eq ('/' :: '/' :: (t ++ r))
        · rw [← hkind, heq] at hk
          cases hk
        · rw [← hkind, heq] at hk
          cases hk
  have hhash : c ≠ '#' := ne_hash_of_step h hk
  have hends : ∀ {k s}, k ∉ lineKinds → EndsAfter ⟨k, c :: t⟩ s [] := by
    intro k s hk
    refine ⟨.of_gap (by simp), fun htrivia => .inl ?_, by simp, by simp [Literal.scales]⟩
    by_contra hne
    exact hk (mem_lineKinds htrivia hne)
  have hplain : k ∉ lineKinds := by
    intro hmem
    have hall : ∀ k ∈ lineKinds, k.isTrivia = true := by decide
    rw [hall k hmem] at hk
    cases hk
  have hold : step ls c (t ++ []) = ⟨⟨⟨k, c :: t⟩, none⟩, []⟩ := step_ends (hends hplain) (fun _ => rfl) h
  have hnew : step ls c (t ++ []) = ⟨⟨⟨k', c :: t⟩, none⟩, []⟩ :=
    step_ends (hends hline) (fun hc => absurd hc hhash) h'
  exact congrArg (·.lexeme.kind) (hnew.symm.trans hold)

theorem Reads.text_ne_nil {ls : Bool} {ts : List Token} {r : Text} (h : Reads ls ts r) : ∀ t ∈ ts, t.text ≠ [] := by
  induction ts generalizing ls with
  | nil => simp
  | cons a ts ih =>
    obtain ⟨c, u, hc, -, hts⟩ := h
    intro t ht
    obtain rfl | ht := List.mem_cons.mp ht
    · simp [hc]
    · exact ih hts t ht

theorem Reads.ends {ls : Bool} {ts : List Token} {r r' : Text} (h : Reads ls ts r)
    (hends : ∀ pre a post, ts = pre ++ a :: post → EndsAfter a (Token.textOf post ++ r) (Token.textOf post ++ r')) :
    Reads ls ts r' := by
  induction ts generalizing ls with
  | nil => trivial
  | cons a ts ih =>
    obtain ⟨c, u, hc, hstep, hts⟩ := h
    refine ⟨c, u, hc, ?_, ih hts (fun pre b post hsplit => hends (a :: pre) b post (by rw [hsplit]; rfl))⟩
    have hend := hends [] a ts rfl
    obtain ⟨k, text⟩ := a
    obtain rfl : text = c :: u := hc
    exact step_ends hend (fun _ => rfl) hstep

theorem Reads.not_scales {ls : Bool} {pre mid : List Token} {n : Token} {r : Text} (h : Reads ls (pre ++ n :: mid) r)
    (hn : n.isPlainNumber = true) : Literal.scales (Token.textOf mid ++ r) = false := by
  obtain ⟨-, c, u, hc, hstep, -⟩ := reads_append.mp h
  obtain ⟨k, text⟩ := n
  obtain rfl : text = c :: u := hc
  exact not_scales_of_step hstep hn

theorem ends_of_reads {ls : Bool} {a : Token} {r' : Text} (h : Reads ls [a] r') (r : Text) :
    Ends (a.text ++ r) (a.text ++ r') := by
  obtain ⟨c, u, hc, hstep, -⟩ := h
  rw [hc]
  refine ⟨.inl rfl, ?_⟩
  rw [List.cons_append, List.cons_append, Literal.divides_cons, Literal.divides_cons, Bool.and_eq_true,
    Bool.and_eq_true]
  rintro ⟨hdot, hdigit⟩
  refine ⟨hdot, ?_⟩
  cases u with
  | cons d u => exact hdigit
  | nil =>
    -- A dot that was read by itself has no digit after it.
    obtain ⟨k, text⟩ := a
    obtain rfl : text = [c] := hc
    obtain rfl : c = '.' := by simpa using hdot
    have hstep : step ls '.' r' = ⟨⟨⟨k, ['.']⟩, none⟩, r'⟩ := hstep
    rw [step_eq_bare (by decide)] at hstep
    cases r' with
    | nil => cases hdigit
    | cons d r' => exact absurd hdigit (by simp [not_digit_of_bare hstep d rfl])

/-- Whether tokens end in front of a text is up to the last one, apart from numbers that take an exponent. -/
theorem Reads.concat {ls : Bool} {pre : List Token} {a : Token} {r r' : Text} (h : Reads ls (pre ++ [a]) r)
    (ha : Reads (startsLineAfter ls pre) [a] r')
    (hscales : ∀ pre₁ n mid, pre = pre₁ ++ n :: mid → n.isPlainNumber = true →
      Literal.scales (Token.textOf mid ++ (a.text ++ r')) = false) : Reads ls (pre ++ [a]) r' := by
  refine reads_append.mpr ⟨?_, ha⟩
  have htext : Token.textOf [a] = a.text := by simp [Token.textOf]
  have hpre := (reads_append.mp h).1
  rw [htext] at hpre ⊢
  refine hpre.ends fun pre₁ n mid hsplit => .of_head ((ends_of_reads ha r).append _) ?_ (fun hn => ?_)
  · obtain ⟨c, u, hc, -⟩ := ha
    rw [hc]
    cases Token.textOf mid <;> rfl
  · rw [hscales pre₁ n mid hsplit hn]
    rintro ⟨⟩

theorem startsLine_mono {ls ls' : Bool} (h : ls = true → ls' = true) (k : Kind) (hk : startsLine ls k = true) :
    startsLine ls' k = true := by
  unfold startsLine at hk ⊢
  split at hk
  · rfl
  · exact h hk
  · cases hk

theorem Reads.mono {ls ls' : Bool} {ts : List Token} {r : Text} (h : Reads ls ts r) (hline : ls = true → ls' = true) :
    Reads ls' ts r := by
  induction ts generalizing ls ls' with
  | nil => trivial
  | cons a ts ih =>
    obtain ⟨c, u, hc, hstep, hts⟩ := h
    refine ⟨c, u, hc, step_near hc (.refl _) ?_ hstep, ih hts (startsLine_mono hline a.kind)⟩
    rintro rfl
    obtain ⟨k, text⟩ := a
    obtain ⟨rfl, -⟩ := lineStart_of_hash hstep
    exact hline rfl

theorem step_inlineBlank (ls : Bool) {c : Char} (hc : isInlineBlank c = true) (t : Text) :
    step ls c t = .ofCut .whitespace ((Cut.span isInlineBlank t).cons c) := by
  have hend : (c == '\n') = false ∧ (c == '\r') = false := by
    constructor
    · rw [beq_eq_false_iff_ne]
      rintro rfl
      cases hc
    · rw [beq_eq_false_iff_ne]
      rintro rfl
      cases hc
  rw [step, hend.1, hend.2, hc]
  rfl

theorem exists_blank (ls : Bool) {c : Char} {t r : Text} (hc : isBlank c = true)
    (hr : ∀ c ∈ r.head?, isBlank c = false) : ∃ k u v, t = u ++ v ∧ Token.isBlank ⟨k, c :: u⟩ = true ∧
      step ls c (u ++ (v ++ r)) = ⟨⟨⟨k, c :: u⟩, none⟩, v ++ r⟩ := by
  have hr' : ∀ c ∈ r.head?, isInlineBlank c = false ∧ c ≠ '\n' := by
    intro d hd
    obtain ⟨hblank, hend⟩ := Bool.or_eq_false_iff.mp (hr d hd)
    refine ⟨hblank, ?_⟩
    rintro rfl
    cases hend
  obtain hinline | hend := Bool.or_eq_true_iff.mp hc
  · refine ⟨.whitespace, t.takeWhile isInlineBlank, t.dropWhile isInlineBlank, List.takeWhile_append_dropWhile.symm,
      rfl, ?_⟩
    have hspan : Cut.span isInlineBlank (t.takeWhile isInlineBlank ++ (t.dropWhile isInlineBlank ++ r)) =
        ⟨t.takeWhile isInlineBlank, t.dropWhile isInlineBlank ++ r, true⟩ := by
      refine span_eq_iff.mpr ⟨rfl, fun d hd => List.mem_takeWhile_imp hd, fun d hd => ?_⟩
      cases hv : t.dropWhile isInlineBlank with
      | nil =>
        rw [hv] at hd
        exact (hr' d hd).1
      | cons e v =>
        rw [hv, List.cons_append, List.head?_cons, Option.mem_some] at hd
        have hnot := List.head?_dropWhile_not isInlineBlank t
        rw [hv] at hnot
        simpa [hd] using hnot
    rw [step_inlineBlank ls hinline, hspan]
    rfl
  · obtain rfl | rfl : c = '\n' ∨ c = '\r' := by simpa [Literal.isLineEnd] using hend
    · exact ⟨.newline, [], t, rfl, rfl, rfl⟩
    · have hstep : ∀ s, step ls '\r' s = .ofCut .newline ((Literal.oneIf (· == '\n') s).cons '\r') := fun _ => rfl
      by_cases hnext : t.head? = some '\n'
      · obtain ⟨v, rfl⟩ := List.head?_eq_some_iff.mp hnext
        exact ⟨.newline, ['\n'], v, rfl, rfl, rfl⟩
      · have hone : Literal.oneIf (· == '\n') ([] ++ (t ++ r)) = ⟨[], t ++ r, true⟩ := by
          refine Literal.oneIf_eq_iff.mpr (.inr ⟨rfl, fun d hd => beq_false_of_ne ?_⟩)
          cases t with
          | nil => exact (hr' d hd).2
          | cons e t =>
            rintro rfl
            exact hnext hd
        refine ⟨.newline, [], t, rfl, rfl, ?_⟩
        rw [hstep, hone]
        rfl

theorem exists_blanks (ls : Bool) {r : Text} (hr : ∀ c ∈ r.head?, isBlank c = false) (n : Nat) {t : Text}
    (hn : t.length ≤ n) (ht : ∀ c ∈ t, isBlank c = true) :
    ∃ ts, Token.textOf ts = t ∧ (∀ a ∈ ts, a.isBlank = true) ∧ Reads ls ts r := by
  induction n generalizing ls t with
  | zero =>
    obtain rfl := List.length_eq_zero_iff.mp (Nat.le_zero.mp hn)
    exact ⟨[], rfl, by simp, trivial⟩
  | succ n ih =>
    cases t with
    | nil => exact ⟨[], rfl, by simp, trivial⟩
    | cons c t =>
      obtain ⟨k, u, v, rfl, hk, hstep⟩ := exists_blank ls (t := t) (ht c (by simp)) hr
      obtain ⟨ts, htext, hblank, hreads⟩ := ih (startsLine ls k) (t := v)
        (by simp only [List.length_cons, List.length_append] at hn; omega)
        (fun d hd => ht d (by simp [hd]))
      refine ⟨⟨k, c :: u⟩ :: ts, ?_, ?_, c, u, rfl, ?_, hreads⟩
      · rw [← htext]
        simp [Token.textOf]
      · simpa using ⟨hk, hblank⟩
      · rwa [htext]

theorem startsLine_of_blank {ls : Bool} {c : Char} {t r text : Text} {k : Kind}
    (h : step ls c t = ⟨⟨⟨k, text⟩, none⟩, r⟩)
    (hk : Token.isBlank ⟨k, text⟩ = true) : startsLine ls k = (ls || text.any Literal.isLineEnd) := by
  obtain rfl | rfl : k = .whitespace ∨ k = .newline := by simpa [Token.isBlank] using hk
  · have hnone : text.any Literal.isLineEnd = false := by
      rw [List.any_eq_false]
      intro d hd hend
      have hblank := (isInlineBlank_of_whitespace h).2 d hd
      obtain rfl | rfl : d = '\n' ∨ d = '\r' := by simpa [Literal.isLineEnd] using hend
      · cases hblank
      · cases hblank
    rw [hnone, Bool.or_false]
    rfl
  · have hne := (step_whole ls c t).1
    rw [h] at hne
    obtain ⟨d, u, rfl⟩ := List.exists_cons_of_ne_nil hne
    rw [List.any_cons, (isLineEnd_of_newline h).2 d (by simp), Bool.true_or, Bool.or_true]
    rfl

theorem startsLineAfter_blanks {ls : Bool} {ts : List Token} {r : Text} (h : Reads ls ts r)
    (hblank : ∀ a ∈ ts, a.isBlank = true) :
    startsLineAfter ls ts = (ls || (Token.textOf ts).any Literal.isLineEnd) := by
  induction ts generalizing ls with
  | nil => simp [startsLineAfter, Token.textOf]
  | cons a ts ih =>
    obtain ⟨c, u, hc, hstep, hts⟩ := h
    have hfirst := startsLine_of_blank hstep (hblank a (by simp))
    have hrest := ih hts (fun b hb => hblank b (by simp [hb]))
    have htext : Token.textOf (a :: ts) = a.text ++ Token.textOf ts := by simp [Token.textOf]
    have hcons : startsLineAfter ls (a :: ts) = startsLineAfter (startsLine ls a.kind) ts := rfl
    rw [hcons, hrest, hfirst, htext, List.any_append, Bool.or_assoc]

end Lexeme

namespace Token

def shown (ts : List Token) : List Token :=
  ts.filter (!·.isBlank)

structure Told (t : Token) : Prop where
  head : ∃ c u, t.text = c :: u ∧ Lexeme.isBlank c = t.isBlank
  blank : t.isBlank = true → ∀ c ∈ t.text, Lexeme.isBlank c = true

theorem told_of_reads {ls : Bool} {ts : List Token} {r : Text} (h : Lexeme.Reads ls ts r) : ∀ t ∈ ts, t.Told := by
  induction ts generalizing ls with
  | nil => simp
  | cons a ts ih =>
    obtain ⟨c, u, hc, hstep, hts⟩ := h
    intro t ht
    obtain rfl | ht := List.mem_cons.mp ht
    · exact ⟨⟨c, u, hc, Lexeme.isBlank_of_step hstep⟩, Lexeme.blank_of_step hstep⟩
    · exact ih hts t ht

theorem exists_split {us ts pre post : List Token} {n : Token} (hus : ∀ t ∈ us, t.Told) (hts : ∀ t ∈ ts, t.Told)
    (htext : (textOf us).dropWhile Lexeme.isBlank = (textOf ts).dropWhile Lexeme.isBlank) (hshown : shown us = shown ts)
    (hn : n.isBlank = false) (hsplit : us = pre ++ n :: post) :
    ∃ pre' post', ts = pre' ++ n :: post' ∧ textOf post' = textOf post := by
  induction us generalizing pre ts with
  | nil => simp at hsplit
  | cons u us ih =>
    have hcons : ∀ (a : Token) as, textOf (a :: as) = a.text ++ textOf as := fun a as => by simp [textOf]
    have hus' : ∀ t ∈ us, t.Told := fun t ht => hus t (by simp [ht])
    cases hu : u.isBlank with
    | true =>
      cases pre with
      | nil =>
        obtain ⟨rfl, -⟩ := List.cons.inj hsplit
        rw [hu] at hn
        cases hn
      | cons p pre =>
        obtain ⟨rfl, hrest⟩ := List.cons.inj hsplit
        rw [hcons, List.dropWhile_append_of_pos ((hus u (by simp)).blank hu)] at htext
        rw [shown, List.filter_cons_of_neg (by simp [hu])] at hshown
        exact ih hus' hts htext hshown hrest
    | false =>
      have hshown' : shown ts = u :: shown us := by rw [← hshown, shown, List.filter_cons_of_pos (by simp [hu])]; rfl
      obtain ⟨bs, ts, rfl, hbs, -, htail⟩ := List.filter_eq_cons_iff.mp hshown'
      have hbs : ∀ b ∈ bs, b.isBlank = true := fun b hb => by simpa using hbs b hb
      have hblank : ∀ c ∈ textOf bs, Lexeme.isBlank c = true := by
        intro c hc
        obtain ⟨b, hb, hc⟩ := List.mem_flatMap.mp hc
        exact (hts b (by simp [hb])).blank (hbs b hb) c hc
      obtain ⟨c, v, hc, hhead⟩ := (hus u (by simp)).head
      have hsame : textOf us = textOf ts := by
        rw [Lexeme.textOf_append, List.dropWhile_append_of_pos hblank, hcons, hcons, hc, List.cons_append,
          List.cons_append,
          List.dropWhile_cons_of_neg (by simp [hhead, hu]), List.dropWhile_cons_of_neg (by simp [hhead, hu])] at htext
        simpa using htext
      cases pre with
      | nil =>
        obtain ⟨rfl, rfl⟩ := List.cons.inj hsplit
        exact ⟨bs, ts, rfl, hsame.symm⟩
      | cons p pre =>
        obtain ⟨rfl, hrest⟩ := List.cons.inj hsplit
        obtain ⟨pre', post', rfl, hpost⟩ := ih hus' (fun t ht => hts t (by simp [ht])) (by rw [hsame]) htail.symm hrest
        exact ⟨bs ++ u :: pre', post', by simp, hpost⟩

end Token

end Lintel
