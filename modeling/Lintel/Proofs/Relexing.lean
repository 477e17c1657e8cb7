import Lintel.Proofs.LexemeSteps
import Lintel.Proofs.SpacingFixes

namespace Lintel

namespace Lexeme

def Reads (lineStart : Bool) : List Token → Text → Prop
  | [], _ => True
  | t :: ts, r =>
    ∃ c u, t.text = c :: u ∧
      step lineStart c (u ++ (Token.textOf ts ++ r)) = ⟨⟨t, none⟩, Token.textOf ts ++ r⟩ ∧
      Reads (startsLine lineStart t.kind) ts r

def startsLineAfter (lineStart : Bool) (ts : List Token) : Bool :=
  ts.foldl (fun ls t => startsLine ls t.kind) lineStart

theorem lexFrom_eq_iff {ls : Bool} {t : Text} {ts : List Token} :
    lexFrom ls t = ts.map (Lexeme.mk · none) ↔ Token.textOf ts = t ∧ Reads ls ts [] := by
  induction ts generalizing ls t with
  | nil =>
    cases t with
    | nil => simp [lexFrom, Reads, Token.textOf]
    | cons c t => simp [lexFrom, Reads, Token.textOf]
  | cons a ts ih =>
    constructor
    · intro h
      cases t with
      | nil => simp [lexFrom] at h
      | cons c t =>
        rw [lexFrom, List.map_cons] at h
        obtain ⟨hlexeme, hrest⟩ := List.cons.inj h
        have hne := (step_whole ls c t).1
        have hwhole := (step_whole ls c t).2
        rw [hlexeme] at hrest hne hwhole
        obtain ⟨htext, hreads⟩ := ih.mp hrest
        obtain ⟨d, u, hd⟩ := List.exists_cons_of_ne_nil hne
        rw [← htext, hd, List.cons_append] at hwhole
        obtain ⟨rfl, rfl⟩ := List.cons.inj hwhole
        have hd : a.text = d :: u := hd
        refine ⟨?_, d, u, hd, ?_, hreads⟩
        · simp [Token.textOf, hd]
        · rw [List.append_nil]
          calc step ls d (u ++ Token.textOf ts)
              = ⟨(step ls d (u ++ Token.textOf ts)).lexeme, (step ls d (u ++ Token.textOf ts)).rest⟩ := rfl
            _ = ⟨⟨a, none⟩, Token.textOf ts⟩ := by rw [hlexeme, ← htext]
    · rintro ⟨rfl, c, u, hc, hstep, hreads⟩
      have htext : Token.textOf (a :: ts) = c :: (u ++ Token.textOf ts) := by simp [Token.textOf, hc]
      rw [List.append_nil] at hstep
      rw [htext, lexFrom, hstep, ih.mpr ⟨rfl, hreads⟩]
      rfl

theorem textOf_append (ts us : List Token) : Token.textOf (ts ++ us) = Token.textOf ts ++ Token.textOf us := by
  simp [Token.textOf]

theorem reads_append {ls : Bool} {ts us : List Token} {r : Text} :
    Reads ls (ts ++ us) r ↔ Reads ls ts (Token.textOf us ++ r) ∧ Reads (startsLineAfter ls ts) us r := by
  induction ts generalizing ls with
  | nil => simp [Reads, startsLineAfter]
  | cons t ts ih =>
    simp only [List.cons_append, Reads, textOf_append, List.append_assoc, ih]
    constructor
    · rintro ⟨c, u, hc, hstep, hts, hus⟩
      exact ⟨⟨c, u, hc, hstep, hts⟩, hus⟩
    · rintro ⟨⟨c, u, hc, hstep, hts⟩, hus⟩
      exact ⟨c, u, hc, hstep, hts, hus⟩

theorem step_near {ls ls' : Bool} {t : Token} {c : Char} {u r r' : Text} (hc : t.text = c :: u) (hnear : Near r r')
    (hline : c = '#' → ls' = ls) (h : step ls c (u ++ r) = ⟨⟨t, none⟩, r⟩) :
    step ls' c (u ++ r') = ⟨⟨t, none⟩, r'⟩ := by
  obtain ⟨k, text⟩ := t
  obtain rfl : text = c :: u := hc
  exact step_local hnear hline h

theorem Reads.near {ls : Bool} {ts : List Token} {r r' : Text} (h : Reads ls ts r) (hnear : Near r r') :
    Reads ls ts r' := by
  induction ts generalizing ls with
  | nil => trivial
  | cons t ts ih =>
    obtain ⟨c, u, hc, hstep, hts⟩ := h
    exact ⟨c, u, hc, step_near hc (hnear.append _) (fun _ => rfl) hstep, ih hts⟩

theorem startsLine_of_significant {k : Kind} (h : k.isTrivia = false) (ls : Bool) : startsLine ls k = false := by
  unfold startsLine
  split
  · exact absurd h (by decide)
  · exact absurd h (by decide)
  · rfl

theorem step_sign {t : Token} (h : t.IsSign) (ls : Bool) :
    ∃ c u, t.text = c :: u ∧ Letters.continuesName c = false ∧ step ls c u = ⟨⟨t, none⟩, []⟩ := by
  have hall : ∀ s ∈ Kind.signs, ∀ ls, s.1.toList.head?.any (!Letters.continuesName ·) = true ∧
      (lexFrom ls s.1.toList).head? = some ⟨⟨s.2, s.1.toList⟩, none⟩ := by decide +kernel
  obtain ⟨s, hs, hkind, htext⟩ := h
  obtain ⟨hhead, hlex⟩ := hall s hs ls
  rw [hkind, htext] at hlex
  rw [htext] at hhead
  cases ht : t.text with
  | nil => simp [ht] at hhead
  | cons c u =>
    rw [ht] at hhead hlex
    have hlexeme : (step ls c u).lexeme = ⟨t, none⟩ := by
      rw [lexFrom, List.head?_cons, ← ht] at hlex
      exact Option.some.inj hlex
    have hrest : (step ls c u).rest = [] := by
      have hwhole := (step_whole ls c u).2
      rw [hlexeme, ht] at hwhole
      simpa using hwhole
    refine ⟨c, u, rfl, by simpa using hhead, ?_⟩
    rw [← hlexeme, ← hrest]

end Lexeme

namespace Token

/-- A token as it is read. A tree may show a name as a keyword. -/
def asRead (t : Token) : Token :=
  if t.kind ∈ Kind.contextualWords.map (·.2) then ⟨.ident, t.text⟩ else t

@[simp] theorem text_asRead (t : Token) : t.asRead.text = t.text := by
  rw [asRead]
  split <;> rfl

theorem isTrivia_asRead (t : Token) : t.asRead.isTrivia = t.isTrivia := by
  rw [asRead]
  split
  · rename_i h
    have hall : ∀ k ∈ Kind.contextualWords.map (·.2), k.isTrivia = false := by decide
    simp only [isTrivia, hall _ h]
    rfl
  · rfl

theorem asRead_of_isTrivia {t : Token} (h : t.isTrivia = true) : t.asRead = t := by
  rw [asRead, if_neg]
  intro hk
  have hall : ∀ k ∈ Kind.contextualWords.map (·.2), k.isTrivia = false := by decide
  rw [isTrivia, hall _ hk] at h
  simp at h

end Token

def Cell.read (cs : List Cell) : List Token :=
  cs.map (·.toToken.asRead)

@[simp] theorem Cell.read_cons (c : Cell) (cs : List Cell) : read (c :: cs) = c.toToken.asRead :: read cs :=
  rfl

@[simp] theorem Cell.read_append (cs ds : List Cell) : read (cs ++ ds) = read cs ++ read ds :=
  List.map_append

theorem Cell.textOf_read_cons (c : Cell) (cs : List Cell) :
    Token.textOf (read (c :: cs)) = c.text ++ Token.textOf (read cs) := by
  simp [Token.textOf]

namespace KeywordSpacing

open Word Lexeme Cell

def Spelled (ws : List Word) : Prop :=
  ∀ w ∈ ws, w.head.kind ∈ kinds → (Kind.spelling? w.head.kind).map (·.toList) = some w.head.text

def Signed : List Word → Prop
  | [] => True
  | w :: ws => (ruling w ws = .clear → ∀ n ∈ ws.head?, n.head.toToken.IsSign) ∧ Signed ws

theorem spelling_keyword {t : Token} (hk : t.kind ∈ kinds) (ht : (Kind.spelling? t.kind).map (·.toList) = some t.text) :
    isSmallWord t.text = true ∧ 2 ≤ t.text.length ∧ (t.text.head? ≠ some 'e' ∧ t.text.head? ≠ some 'E') ∧
      t.asRead = ⟨(Kind.reservedWord? t.text).getD .ident, t.text⟩ := by
  have hall : ∀ k ∈ kinds, ∃ s ∈ Kind.spelling? k, isSmallWord s.toList = true ∧ 2 ≤ s.toList.length ∧
      (s.toList.head? ≠ some 'e' ∧ s.toList.head? ≠ some 'E') ∧
      Token.asRead ⟨k, s.toList⟩ = ⟨(Kind.reservedWord? s.toList).getD .ident, s.toList⟩ := by
    decide +kernel
  obtain ⟨k, text⟩ := t
  obtain ⟨s, hs, hword⟩ := hall k hk
  rw [show Kind.spelling? k = some s from hs] at ht
  obtain rfl : s.toList = text := Option.some.inj ht
  exact hword

theorem step_keyword {t : Token} (hk : t.kind ∈ kinds)
    (ht : (Kind.spelling? t.kind).map (·.toList) = some t.text) (ls : Bool) {r : Text}
    (hr : ∀ d ∈ r.head?, Letters.continuesName d = false) :
    ∃ c u, t.asRead.text = c :: u ∧ step ls c (u ++ r) = ⟨⟨t.asRead, none⟩, r⟩ := by
  obtain ⟨hsmall, hlen, -, hread⟩ := spelling_keyword hk ht
  cases htext : t.text with
  | nil =>
    rw [htext] at hlen
    simp at hlen
  | cons c u =>
    rw [htext] at hsmall hread
    exact ⟨c, u, by rw [Token.text_asRead, htext], by rw [hread]; exact step_word ls hsmall hr⟩

theorem respacedGap_of_not_mem {w : Word} (h : w.head.kind ∉ kinds) (rest : List Word) :
    respacedGap w rest = w.gap := by
  rw [respacedGap, ruling, spacingOf?, if_neg h]

theorem near_respaceAll {ws : List Word} (hspelled : Spelled ws) :
    Near (Token.textOf (read (flatten ws))) (Token.textOf (read (flatten (respaceAll ws)))) := by
  induction ws with
  | nil => exact .refl _
  | cons w ws ih =>
    rw [respaceAll, flatten_cons, flatten_cons, textOf_read_cons, textOf_read_cons]
    by_cases hk : w.head.kind ∈ kinds
    · obtain ⟨-, hlen, hmark, -⟩ := spelling_keyword hk (hspelled w (by simp) hk)
      refine Near.of_long _ _ hlen (fun he => ?_)
      exact absurd he (by simp [hmark])
    · rw [show (respace w ws).gap = w.gap from respacedGap_of_not_mem hk ws, read_append, read_append, textOf_append,
        textOf_append]
      exact ((ih (fun x hx => hspelled x (by simp [hx]))).append _).append _

theorem kind_of_not_barrier {c : Cell} (ht : c.isTrivia = true) (hblank : c.isBlank = false)
    (hbarrier : c.isBarrier = false) : c.kind = .blockComment := by
  obtain ⟨⟨k, text⟩, owner⟩ := c
  have hmem := Kind.mem_of_isTrivia ht
  simp only [List.mem_cons, List.not_mem_nil, or_false] at hmem
  obtain rfl | rfl | rfl | rfl | rfl | rfl := hmem
  · exact absurd hblank (by simp [Cell.isBlank])
  · exact absurd hblank (by simp [Cell.isBlank])
  · exact absurd hbarrier (by simp [Cell.isBarrier, Cell.isLineComment])
  · exact absurd hbarrier (by simp [Cell.isBarrier, Cell.isLineComment])
  · exact absurd hbarrier (by simp [Cell.isBarrier])
  · rfl

theorem step_blockComment {ls : Bool} {c : Char} {t r text : Text}
    (h : step ls c t = ⟨⟨⟨.blockComment, text⟩, none⟩, r⟩) (ls' : Bool) (r' : Text) :
    ∃ v, text = '/' :: '*' :: v ∧ step ls' '/' ('*' :: v ++ r') = ⟨⟨⟨.blockComment, text⟩, none⟩, r'⟩ := by
  rcases step_kind h with hk | ⟨-, v, -, rfl, hv⟩ | hk | hk | hk
  · exact absurd hk (by decide)
  · exact ⟨v, rfl, step_comment hv ls' r'⟩
  · exact absurd hk (by decide)
  · rw [Kind.reservedWord?, Option.map_eq_some_iff] at hk
    obtain ⟨w, hw, hkind⟩ := hk
    have hall : ∀ w ∈ Kind.reservedWords, w.2 ≠ .blockComment := by decide
    exact absurd hkind (hall w (List.mem_of_find?_eq_some hw))
  · obtain ⟨s, hs, hkind, -⟩ := hk
    have hall : ∀ s ∈ Kind.signs, s.2 ≠ .blockComment := by decide
    exact absurd hkind (hall s hs)

theorem reads_comments {gap : List Cell} {ls : Bool} {r : Text} (h : Reads ls (read gap) r)
    (hgap : ∀ c ∈ gap, c.isTrivia = true) (hbarrier : gap.any (·.isBarrier) = false) (ls' : Bool) (r' : Text) :
    Reads ls' (read (gap.filter (!·.isBlank))) r' ∧
      ∀ d ∈ (Token.textOf (read (gap.filter (!·.isBlank)))).head?, d = '/' := by
  induction gap generalizing ls ls' with
  | nil => simp [Reads, Cell.read, Token.textOf]
  | cons c gap ih =>
    obtain ⟨hc, hrest⟩ : c.isBarrier = false ∧ gap.any (·.isBarrier) = false := by
      simpa using hbarrier
    have htail := fun l h => @ih l h (fun d hd => hgap d (by simp [hd])) hrest
    rw [read_cons] at h
    obtain ⟨a, u, -, hstep, hreads⟩ := h
    cases hb : c.isBlank with
    | true =>
      rw [List.filter_cons_of_neg (by simp [hb])]
      exact htail _ hreads ls'
    | false =>
      have htrivia : c.toToken.isTrivia = true := hgap c (by simp)
      have hkind := kind_of_not_barrier htrivia hb hc
      have htoken : c.toToken.asRead = ⟨.blockComment, c.text⟩ := by
        rw [Token.asRead_of_isTrivia htrivia, ← hkind]
      rw [htoken] at hstep
      obtain ⟨v, hv, hstep'⟩ := step_blockComment hstep ls' (Token.textOf (read (gap.filter (!·.isBlank))) ++ r')
      rw [List.filter_cons_of_pos (by simp [hb]), textOf_read_cons, read_cons, htoken]
      exact ⟨⟨'/', '*' :: v, hv, hstep', (htail _ hreads _).1⟩, by simp [hv]⟩

theorem significant_head (w : Word) : w.head.toToken.asRead.isTrivia = false := by
  rw [Token.isTrivia_asRead]
  exact w.head_significant

theorem startsLine_head (w : Word) (ls : Bool) : startsLine ls w.head.toToken.asRead.kind = false :=
  startsLine_of_significant (significant_head w) ls

theorem not_blank_of_reads {gap : List Cell} {ws : List Word} {ls : Bool}
    (h : Reads ls (read (gap ++ flatten ws)) []) (hgap : gap.any (·.isBlank) = false) :
    ∀ c ∈ (Token.textOf (read (gap ++ flatten ws))).head?, isInlineBlank c = false := by
  have hkind : ∀ t ∈ (read (gap ++ flatten ws)).head?, t.kind ≠ .whitespace := by
    intro t ht
    cases gap with
    | nil =>
      cases ws with
      | nil => simp [flatten, Cell.read] at ht
      | cons w ws =>
        obtain rfl : w.head.toToken.asRead = t := Option.some.inj ht
        intro hk
        have hsig := significant_head w
        rw [Token.isTrivia, hk] at hsig
        exact absurd hsig (by decide)
    | cons g gap =>
      obtain rfl : g.toToken.asRead = t := Option.some.inj ht
      rw [Token.asRead]
      split
      · simp
      · intro hk
        simp [Cell.isBlank, hk] at hgap
  cases hr : read (gap ++ flatten ws) with
  | nil => simp [Token.textOf]
  | cons t ts =>
    rw [hr] at h hkind
    obtain ⟨c, u, hc, hstep, -⟩ := h
    have htext : (Token.textOf (t :: ts)).head? = some c := by simp [Token.textOf, hc]
    intro d hd
    obtain rfl : c = d := Option.some.inj (htext.symm.trans hd)
    exact isInlineBlank_of_step (k := t.kind) hstep (hkind t rfl)

theorem continuesName_of_signed {ws : List Word} (h : ∀ n ∈ ws.head?, n.head.toToken.IsSign) :
    ∀ d ∈ (Token.textOf (read (flatten (respaceAll ws)))).head?, Letters.continuesName d = false := by
  cases ws with
  | nil => simp [respaceAll, flatten, Cell.read, Token.textOf]
  | cons n ws =>
    obtain ⟨c, u, hc, hname, -⟩ := step_sign (h n rfl) false
    intro d hd
    rw [respaceAll, flatten_cons, textOf_read_cons, show (respace n ws).head = n.head from rfl, hc] at hd
    obtain rfl : c = d := Option.some.inj hd
    exact hname

theorem reads_respaceAll {ws : List Word} (hspelled : Spelled ws) (hsigned : Signed ws) {ls : Bool}
    (h : Reads ls (read (flatten ws)) []) (ls' : Bool) : Reads ls' (read (flatten (respaceAll ws))) [] := by
  induction ws generalizing ls ls' with
  | nil => trivial
  | cons w ws ih =>
    have hspelled' : Spelled ws := fun x hx => hspelled x (by simp [hx])
    have hnear := near_respaceAll hspelled'
    rw [flatten_cons, read_cons, read_append] at h
    obtain ⟨c, u, hc, hstep, htail⟩ := h
    rw [startsLine_head, reads_append, List.append_nil] at htail
    rw [textOf_append, List.append_nil] at hstep
    have hrest := ih hspelled' hsigned.2 htail.2
    have hgap := htail.1.near hnear
    rw [respaceAll, flatten_cons, read_cons, read_append]
    cases hr : ruling w ws with
    | fine | decline =>
      have hsame : (respace w ws).gap = w.gap := by simp [respace, respacedGap, hr]
      refine ⟨c, u, hc, ?_, ?_⟩
      · rw [hsame, textOf_append, List.append_nil]
        refine step_near hc (hnear.append _) (fun hhash => ?_) hstep
        exact absurd hhash (ne_hash_of_step (k := w.head.toToken.asRead.kind) hstep (significant_head w))
      · rw [startsLine_head, reads_append, hsame, List.append_nil]
        exact ⟨hgap, hrest _⟩
    | pad =>
      have hk := mem_kinds_of_ruling hr (by decide)
      have hnone : w.gap.any (·.isBlank) = false := by simpa [hr] using gap_of_ruling w ws
      have hsame : read (respace w ws).gap = ⟨.whitespace, [' ']⟩ :: read w.gap := by
        simp only [respace, respacedGap, hr, read_cons]
        rfl
      have hafter : Reads false (read w.gap ++ read (flatten (respaceAll ws))) [] := by
        rw [reads_append, List.append_nil]
        exact ⟨hgap, hrest _⟩
      have hstart := not_blank_of_reads (by rw [read_append]; exact hafter) hnone
      rw [read_append] at hstart
      rw [hsame, List.cons_append]
      obtain ⟨c, u, hc, hstep⟩ := step_keyword hk (hspelled w (by simp) hk) ls'
        (r := ' ' :: Token.textOf (read w.gap ++ read (flatten (respaceAll ws)))) (by simp; decide)
      refine ⟨c, u, hc, ?_, ' ', [], rfl, ?_, ?_⟩
      · rw [List.append_nil]
        exact hstep
      · rw [List.append_nil]
        exact step_space _ hstart
      · rw [startsLine_head]
        exact hafter
    | clear =>
      have hk := mem_kinds_of_ruling hr (by decide)
      have hnone : w.gap.any (·.isBarrier) = false := by
        have := gap_of_ruling w ws
        rw [hr] at this
        exact this.2
      have hsame : (respace w ws).gap = w.gap.filter (!·.isBlank) := by simp [respace, respacedGap, hr]
      obtain ⟨hcomments, hslash⟩ := reads_comments htail.1 w.gap_trivia hnone false
        (Token.textOf (read (flatten (respaceAll ws))))
      -- The keyword ends before a comment, a sign or the end of the text.
      have hends : ∀ d ∈ (Token.textOf (read (w.gap.filter (!·.isBlank)) ++ read (flatten (respaceAll ws)))).head?,
          Letters.continuesName d = false := by
        intro d hd
        rw [textOf_append, List.head?_append, Option.mem_def, Option.or_eq_some_iff] at hd
        obtain hd | ⟨-, hd⟩ := hd
        · rw [hslash d hd]
          decide
        · exact continuesName_of_signed (hsigned.1 hr) d hd
      obtain ⟨c, u, hc, hstep⟩ := step_keyword hk (hspelled w (by simp) hk) ls' hends
      rw [hsame]
      refine ⟨c, u, hc, ?_, ?_⟩
      · rw [List.append_nil]
        exact hstep
      · rw [startsLine_head, reads_append, List.append_nil]
        exact ⟨hcomments, hrest _⟩

theorem staysApart_of_isSign {t s : Token} (hk : t.kind ∈ kinds)
    (ht : (Kind.spelling? t.kind).map (·.toList) = some t.text) (hs : s.IsSign) :
    staysApart t.text s.text = true := by
  obtain ⟨d, v, hd, hname, hsign⟩ := step_sign hs false
  obtain ⟨c, u, hc, hword⟩ := step_keyword hk ht true (r := s.text) (by simp [hd, hname])
  have hline : startsLine true t.asRead.kind = false := by
    apply startsLine_of_significant
    have hall : ∀ k ∈ kinds, k.isTrivia = false := by decide
    have htrivia := Token.isTrivia_asRead t
    rwa [show t.isTrivia = false from hall _ hk] at htrivia
  have hlex : lex (t.text ++ s.text) = [t.asRead, s].map (Lexeme.mk · none) := by
    refine lexFrom_eq_iff.mpr ⟨by simp [Token.textOf], c, u, hc, ?_, d, v, hd, ?_, trivial⟩
    · simpa [Token.textOf] using hword
    · rw [hline]
      simpa [Token.textOf] using hsign
  simp [staysApart, hlex]

theorem clearable_of_signed {ws : List Word} (hspelled : Spelled ws) (hsigned : Signed ws) : Clearable ws := by
  induction ws with
  | nil => trivial
  | cons w ws ih =>
    refine ⟨fun hr n hn => ?_, ih (fun x hx => hspelled x (by simp [hx])) hsigned.2⟩
    have hk := mem_kinds_of_ruling hr (by decide)
    exact staysApart_of_isSign hk (hspelled w (by simp) hk) (hsigned.1 hr n hn)

theorem lex_respaceAll {t : Text} {lead : List Cell} {ws : List Word} (hspelled : Spelled ws) (hsigned : Signed ws)
    (h : lex t = (read (lead ++ flatten ws)).map (Lexeme.mk · none)) :
    lex (Token.textOf (read (lead ++ flatten (respaceAll ws)))) =
      (read (lead ++ flatten (respaceAll ws))).map (Lexeme.mk · none) := by
  obtain ⟨-, hreads⟩ := lexFrom_eq_iff.mp h
  rw [read_append, reads_append, List.append_nil] at hreads
  refine lexFrom_eq_iff.mpr ⟨rfl, ?_⟩
  rw [read_append, reads_append, List.append_nil]
  exact ⟨hreads.1.near (near_respaceAll hspelled), reads_respaceAll hspelled hsigned hreads.2 _⟩

end KeywordSpacing

namespace Group

theorem items_split_trivia {t : Token} (h : t.isTrivia = true) (ts : List Token) :
    items (split (t :: ts)).1 = items (split ts).1 := by
  rw [split]
  cases hs : (split ts).1 with
  | nil => simp [hs, h]
  | cons g gs =>
    simp only [hs, h, if_true, items]

theorem items_split_significant {t : Token} (h : t.isTrivia = false) (ts : List Token) :
    items (split (t :: ts)).1 =
      { t with joined := t.kind == .gt && ts.head?.any (fun u => u.kind == .gt || u.kind == .gtEq) } ::
        items (split ts).1 := by
  have hnext : (split ts).1.head?.any (fun g => g.before.isEmpty && (g.token.kind == .gt || g.token.kind == .gtEq)) =
      ts.head?.any (fun u => u.kind == .gt || u.kind == .gtEq) := by
    cases ts with
    | nil => rfl
    | cons u us =>
      cases hu : u.isTrivia with
      | false => simp [split, hu]
      | true =>
        have hkind : (u.kind == .gt || u.kind == .gtEq) = false := by
          rw [Bool.or_eq_false_iff, beq_eq_false_iff_ne, beq_eq_false_iff_ne]
          constructor
          · intro hk
            rw [Token.isTrivia, hk] at hu
            exact absurd hu (by decide)
          · intro hk
            rw [Token.isTrivia, hk] at hu
            exact absurd hu (by decide)
        rw [List.head?_cons, Option.any_some, hkind, split]
        cases hs : (split us).1 with
        | nil => simp [hs, hu]
        | cons g gs => simp [hs, hu]
  rw [split, h]
  simp only [Bool.false_eq_true, if_false, items, joins, hnext]

theorem items_split_append {ts : List Token} (h : ∀ t ∈ ts, t.isTrivia = true) (us : List Token) :
    items (split (ts ++ us)).1 = items (split us).1 := by
  induction ts with
  | nil => rfl
  | cons t ts ih =>
    rw [List.cons_append, items_split_trivia (h t (by simp)), ih (fun u hu => h u (by simp [hu]))]

end Group

namespace KeywordSpacing

open Word Cell

theorem isTrivia_read {gap : List Cell} (h : ∀ c ∈ gap, c.isTrivia = true) : ∀ t ∈ read gap, t.isTrivia = true := by
  intro t ht
  obtain ⟨c, hc, rfl⟩ := List.mem_map.mp ht
  rw [Token.isTrivia_asRead]
  exact h c hc

theorem items_split_word (w : Word) (ts : List Token) :
    Group.items (Group.split (read w.cells ++ ts)).1 =
      { w.head.toToken.asRead with
        joined := w.head.toToken.asRead.kind == .gt &&
          (read w.gap ++ ts).head?.any (fun u => u.kind == .gt || u.kind == .gtEq) } ::
        Group.items (Group.split ts).1 := by
  rw [cells, read_cons, List.cons_append, Group.items_split_significant (significant_head w),
    Group.items_split_append (isTrivia_read w.gap_trivia)]

theorem items_respaceAll (ws : List Word) :
    Group.items (Group.split (read (flatten (respaceAll ws)))).1 =
      Group.items (Group.split (read (flatten ws))).1 := by
  induction ws with
  | nil => rfl
  | cons w ws ih =>
    have hhead : (read (flatten (respaceAll ws))).head? = (read (flatten ws)).head? := by
      cases ws <;> rfl
    have hnew : read (flatten (respaceAll (w :: ws))) = read (respace w ws).cells ++ read (flatten (respaceAll ws)) :=
      read_append _ _
    have hold : read (flatten (w :: ws)) = read w.cells ++ read (flatten ws) :=
      read_append _ _
    rw [hnew, hold, items_split_word, items_split_word, ih, show (respace w ws).head = w.head from rfl]
    by_cases hk : w.head.kind ∈ kinds
    · have hgt : (w.head.toToken.asRead.kind == .gt) = false := by
        rw [beq_eq_false_iff_ne, Token.asRead]
        split
        · simp
        · intro hgt
          rw [hgt] at hk
          exact absurd hk (by decide)
      rw [hgt, Bool.false_and, Bool.false_and]
    · rw [show (respace w ws).gap = w.gap from respacedGap_of_not_mem hk ws, List.head?_append, List.head?_append,
        hhead]

end KeywordSpacing

end Lintel
