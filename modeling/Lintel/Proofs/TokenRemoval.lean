import Lintel.Proofs.FaultlessText
import Lintel.Proofs.OrderedBatch
import Lintel.Proofs.RereadTokens
import Lintel.Proofs.Surgery

/-!
Taking a token out of a text. A space is left where the tokens around it would be read as one. So what remains is read
as it was, unless a slash comes to stand in front of a comment, or a number in front of what looks like an exponent.
-/

namespace Lintel

namespace Literal

theorem scales_of_gap {w r r' : Text} (hr' : ∀ c ∈ r'.head?, c ∈ gaps) (h : scales (w ++ r') = true) :
    scales (w ++ r) = true := by
  have hnone : gaps.any (fun c => c == 'e' || c == 'E' || c.isDigit || c == '+' || c == '-') = false := by decide
  have hgap : ∀ c ∈ r'.head?, (c == 'e' || c == 'E') = false ∧ c.isDigit = false ∧ (c == '+' || c == '-') = false := by
    intro c hc
    have hnot := List.any_eq_false.mp hnone c (hr' c hc)
    simp only [Bool.or_eq_true, not_or, Bool.not_eq_true] at hnot
    simp [hnot]
  rcases w with _ | ⟨m, _ | ⟨s, _ | ⟨d, w⟩⟩⟩
  · rcases r' with _ | ⟨c, _ | ⟨d, r'⟩⟩
    · cases h
    · cases h
    · simp [scales, (hgap c rfl).1] at h
  · rcases r' with _ | ⟨c, r'⟩
    · cases h
    · have hc := hgap c rfl
      simp [scales, hc.2.1, hc.2.2] at h
  · rcases r' with _ | ⟨c, r'⟩
    · simp only [List.cons_append, List.nil_append, scales, List.head?_nil, Option.any_none, Bool.and_false,
        Bool.or_false] at h ⊢
      rw [Bool.and_eq_true] at h ⊢
      exact ⟨h.1, by rw [h.2, Bool.true_or]⟩
    · have hc := hgap c rfl
      simp only [List.cons_append, List.nil_append, scales, List.head?_cons, Option.any_some, hc.2.1, Bool.and_false,
        Bool.or_false] at h ⊢
      rw [Bool.and_eq_true] at h ⊢
      exact ⟨h.1, by rw [h.2, Bool.true_or]⟩
  · exact h

end Literal

namespace Lexeme

theorem mem_gaps_of_isBlank {c : Char} (h : isBlank c = true) : c ∈ gaps := by
  simp only [isBlank, isInlineBlank, Literal.isLineEnd, Bool.or_eq_true, beq_iff_eq] at h
  simp only [gaps, List.mem_cons, List.not_mem_nil, or_false]
  tauto

theorem Reads.before_gap {ls : Bool} {ts : List Token} {r r' : Text} (h : Reads ls ts r)
    (hgap : ∀ c ∈ r'.head?, c ∈ gaps)
    (halike : ∀ a ∈ ts.getLast?, a.isTrivia = true → a.kind = .blockComment ∨ r'.head? = r.head?)
    (hslash : ∀ a ∈ ts.getLast?, a.text = ['/'] → r'.head? ≠ some '/') : Reads ls ts r' := by
  refine h.ends fun pre a post hsplit => ?_
  have hscales : Literal.scales (Token.textOf post ++ r') = true → Literal.scales (Token.textOf post ++ r) = true :=
    Literal.scales_of_gap hgap
  cases post with
  | nil =>
    have hlast : ts.getLast? = some a := by simp [hsplit]
    exact ⟨.of_gap hgap, halike a hlast, fun ha hr' => absurd hr' (hslash a hlast ha), fun _ => hscales⟩
  | cons b post =>
    obtain ⟨c, u, hc⟩ := List.exists_cons_of_ne_nil (h.text_ne_nil b (by simp [hsplit]))
    have htext : Token.textOf (b :: post) = c :: (u ++ Token.textOf post) := by simp [Token.textOf, hc]
    exact .of_head ((Ends.of_gap hgap).append _) (by rw [htext]; rfl) (fun _ => hscales)

theorem blockComment_of_step {ls : Bool} {c : Char} {t r text : Text} {k : Kind}
    (h : step ls c t = ⟨⟨⟨k, text⟩, none⟩, r⟩)
    (hk : k.isTrivia = true) (hblank : Token.isBlank ⟨k, text⟩ = false) :
    k = .blockComment ∨ ∀ d ∈ r.head?, Literal.isLineEnd d = true := by
  by_cases hcomment : k = .blockComment
  · exact .inl hcomment
  · obtain ⟨rfl, -⟩ | ⟨rfl, -⟩ | ⟨-, hend⟩ := step_trivia h (mem_lineKinds hk hcomment)
    · cases hblank
    · cases hblank
    · exact .inr hend

theorem Reads.last {ls : Bool} {ts : List Token} {r : Text} (h : Reads ls ts r) {a : Token} (ha : a ∈ ts.getLast?) :
    ∃ ls' c u, a.text = c :: u ∧ step ls' c (u ++ r) = ⟨⟨a, none⟩, r⟩ := by
  obtain ⟨pre, rfl⟩ := List.getLast?_eq_some_iff.mp ha
  obtain ⟨-, c, u, hc, hstep, -⟩ := reads_append.mp h
  exact ⟨_, c, u, hc, hstep⟩

end Lexeme

namespace Token

open Lexeme

theorem lex_of_staysApart {left right : Text} (h : staysApart left right = true) :
    ∃ k₁ k₂, lex (left ++ right) = [⟨k₁, left⟩, ⟨k₂, right⟩].map (Lexeme.mk · none) := by
  rw [staysApart, Bool.and_eq_true, beq_iff_eq, List.all_eq_true] at h
  obtain ⟨hfault, htexts⟩ := h
  obtain ⟨l₁, rest, hrest, rfl, htail⟩ := List.map_eq_cons_iff.mp htexts
  obtain ⟨l₂, end₂, rfl, rfl, hnil⟩ := List.map_eq_cons_iff.mp htail
  obtain rfl := List.map_eq_nil_iff.mp hnil
  rw [hrest] at hfault ⊢
  have hnone : ∀ l ∈ [l₁, l₂], l = ⟨⟨l.kind, l.text⟩, none⟩ := by
    intro l hl
    obtain ⟨⟨k, text⟩, fault⟩ := l
    obtain rfl : fault = none := by simpa using hfault _ hl
    rfl
  refine ⟨l₁.kind, l₂.kind, ?_⟩
  rw [List.map_cons, List.map_cons, List.map_nil, ← hnone l₁ (by simp), ← hnone l₂ (by simp)]

theorem append_inj_size {ls rs ls' rs' : List Token} (h : ls ++ rs = ls' ++ rs')
    (hsize : (textOf ls).size = (textOf ls').size) (hne : ∀ t ∈ ls' ++ rs', t.text ≠ []) : ls = ls' ∧ rs = rs' := by
  have hnil : ∀ ms : List Token, (∀ t ∈ ms, t ∈ ls' ++ rs') → (textOf ms).size = 0 → ms = [] := by
    intro ms hmem hms
    cases ms with
    | nil => rfl
    | cons m ms =>
      rw [Text.size_eq_zero] at hms
      exact absurd (List.flatMap_eq_nil_iff.mp hms m (by simp)) (hne m (hmem m (by simp)))
  obtain ⟨ms, rfl, rfl⟩ | ⟨ms, rfl, rfl⟩ := List.append_eq_append_iff.mp h
  · rw [textOf_append, Text.size_append] at hsize
    obtain rfl := hnil ms (fun t ht => by simp [ht]) (by omega)
    simp
  · rw [textOf_append, Text.size_append] at hsize
    obtain rfl := hnil ms (fun t ht => by simp [ht]) (by omega)
    simp

theorem textOf_cons (t : Token) (ts : List Token) : textOf (t :: ts) = t.text ++ textOf ts := by
  simp [textOf]

def fuses (ls rs : List Token) : Bool :=
  ls.getLast?.any fun a => rs.head?.any fun b => !a.isTrivia && !b.isTrivia && !staysApart a.text b.text

def seam (ls rs : List Token) : Text :=
  if fuses ls rs then [' '] else []

def Rereads (t : Text) (ts : List Token) : Prop :=
  ∃ us, lex t = us.map (Lexeme.mk · none) ∧ shown us = shown ts

def SlashMeetsComment (ls rs : List Token) : Prop :=
  ∃ a ∈ ls.getLast?, ∃ b ∈ rs.head?, a.text = ['/'] ∧ b.kind.isComment = true

def NumberMeetsExponent (ls : List Token) (r : Text) : Prop :=
  ∃ pre n mid, ls = pre ++ n :: mid ∧ n.isPlainNumber = true ∧ Literal.scales (textOf mid ++ r) = true

theorem rereads_of_reads {ls rs : List Token} (ms : List Token) (hls : Reads true ls (textOf ms ++ textOf rs))
    (hms : Reads (startsLineAfter true ls) ms (textOf rs)) (hrs : Reads (startsLineAfter true (ls ++ ms)) rs [])
    (hblank : ∀ m ∈ ms, m.isBlank = true) : Rereads (textOf ls ++ (textOf ms ++ textOf rs)) (ls ++ rs) := by
  refine ⟨ls ++ ms ++ rs, lexFrom_eq_iff.mpr ⟨by simp [textOf_append], ?_⟩, ?_⟩
  · refine reads_append.mpr ⟨reads_append.mpr ⟨?_, ?_⟩, hrs⟩
    · rwa [List.append_nil]
    · rwa [List.append_nil]
  · have hnone : shown ms = [] := by simpa [shown] using hblank
    simp only [shown, List.filter_append] at hnone ⊢
    rw [hnone, List.append_nil]

theorem not_blank_head {rs : List Token} (htold : ∀ t ∈ rs, t.Told) (hfirst : ∀ b ∈ rs.head?, b.isBlank = false) :
    ∀ c ∈ (textOf rs).head?, Lexeme.isBlank c = false := by
  intro c hc
  cases rs with
  | nil => cases hc
  | cons b rs =>
    obtain ⟨d, u, hd, hblank⟩ := (htold b (by simp)).head
    obtain rfl : d = c := by simpa [textOf_cons, hd] using hc
    rw [hblank, hfirst b rfl]

theorem exists_blank_suffix (ls : List Token) :
    ∃ ls₀ bs, ls = ls₀ ++ bs ∧ (∀ b ∈ bs, b.isBlank = true) ∧ ∀ a ∈ ls₀.getLast?, a.isBlank = false := by
  induction ls using List.reverseRecOn with
  | nil => exact ⟨[], [], rfl, by simp, by simp⟩
  | append_singleton ls a ih =>
    cases ha : a.isBlank with
    | false => exact ⟨ls ++ [a], [], by simp, by simp, by simp [ha]⟩
    | true =>
      obtain ⟨ls₀, bs, rfl, hbs, hlast⟩ := ih
      refine ⟨ls₀, bs ++ [a], by simp, ?_, hlast⟩
      simpa [or_imp, forall_and, ha] using hbs

theorem isTrivia_of_isComment {t : Token} (h : t.kind.isComment = true) : t.isTrivia = true ∧ t.isBlank = false := by
  obtain ⟨k, text⟩ := t
  unfold Kind.isComment at h
  split at h
  · rename_i hk
    obtain rfl : k = .lineComment := hk
    exact ⟨rfl, rfl⟩
  · rename_i hk
    obtain rfl : k = .blockComment := hk
    exact ⟨rfl, rfl⟩
  · rename_i hk
    obtain rfl : k = .docComment := hk
    exact ⟨rfl, rfl⟩
  · cases h

theorem isBlank_of_isPlainNumber {t : Token} (h : t.isPlainNumber = true) : t.isBlank = false := by
  obtain ⟨k, text⟩ := t
  obtain ⟨rfl | rfl, -⟩ : (k = .intLiteral ∨ k = .realLiteral) ∧ Literal.isPlain text = true := by
    simpa [isPlainNumber] using h
  · rfl
  · rfl

theorem significant_of_fuses {ls rs : List Token} (h : fuses ls rs = true) :
    (∀ a ∈ ls.getLast?, a.isTrivia = false) ∧ ∀ b ∈ rs.head?, b.isTrivia = false := by
  rw [fuses] at h
  cases hl : ls.getLast? with
  | none => simp [hl] at h
  | some a =>
    cases hr : rs.head? with
    | none => simp [hl, hr] at h
    | some b =>
      have hboth : (a.isTrivia = false ∧ b.isTrivia = false) ∧ staysApart a.text b.text = false := by
        simpa [hl, hr] using h
      simpa using hboth.1

section Removal

variable {ls rs : List Token} {x : Token} (h : Reads true (ls ++ x :: rs) []) (hx : x.isTrivia = false)

include h

theorem reads_left : Reads true ls (x.text ++ textOf rs) := by
  have hleft := (reads_append.mp h).1
  rwa [List.append_nil, textOf_cons] at hleft

include hx

theorem reads_right : Reads false rs [] := by
  obtain ⟨-, -, -, -, -, hright⟩ := reads_append.mp h
  rwa [startsLine_of_significant hx] at hright

theorem not_lineEnd_head (r : Text) : ¬∀ d ∈ (x.text ++ r).head?, Literal.isLineEnd d = true := by
  intro hend
  obtain ⟨e, w, he, hblank⟩ := (told_of_reads h x (by simp)).head
  have hline : Literal.isLineEnd e = true := hend e (by simp [he])
  rw [isBlank_of_significant hx, Lexeme.isBlank, hline, Bool.or_true] at hblank
  cases hblank

theorem rereads_space (ha : ∀ a ∈ ls.getLast?, a.isTrivia = false) (hb : ∀ b ∈ rs.head?, b.isTrivia = false) :
    Rereads (textOf ls ++ ([' '] ++ textOf rs)) (ls ++ rs) := by
  have hright := reads_right h hx
  have hspace : step (startsLineAfter true ls) ' ' (textOf rs) = ⟨⟨⟨.whitespace, [' ']⟩, none⟩, textOf rs⟩ := by
    refine step_space _ fun c hc => ?_
    have hblank := not_blank_head (told_of_reads hright) (fun b hmem => isBlank_of_significant (hb b hmem)) c hc
    exact (Bool.or_eq_false_iff.mp hblank).1
  refine rereads_of_reads [⟨.whitespace, [' ']⟩] ?_ ⟨' ', [], rfl, hspace, trivial⟩ (hright.mono nofun) (by decide)
  refine (reads_left h).before_gap (by simp [textOf, gaps]) (fun a hlast htrivia => ?_) (by simp [textOf])
  rw [ha a hlast] at htrivia
  cases htrivia

section Blanks

variable {ls₀ bs cs rs₀ : List Token} (hls : ls = ls₀ ++ bs) (hrs : rs = cs ++ rs₀)
  (hbs : ∀ b ∈ bs, b.isBlank = true) (hcs : ∀ c ∈ cs, c.isBlank = true)

include hls hrs hbs hcs

omit hbs hcs in
theorem told_between : ∀ t ∈ bs ++ cs, t.Told := by
  intro t ht
  obtain ht | ht := List.mem_append.mp ht
  · exact told_of_reads (reads_left h) t (by simp [hls, ht])
  · exact told_of_reads (reads_right h hx) t (by simp [hrs, ht])

theorem blank_between : ∀ c ∈ textOf (bs ++ cs), Lexeme.isBlank c = true := by
  intro c hc
  obtain ⟨t, ht, hc⟩ := List.mem_flatMap.mp hc
  refine (told_between h hx hls hrs t ht).blank ?_ c hc
  obtain ht | ht := List.mem_append.mp ht
  · exact hbs t ht
  · exact hcs t ht

theorem reads_before_blanks (hlast : ∀ a ∈ ls₀.getLast?, a.isBlank = false) (hne : bs ++ cs ≠ []) :
    Reads true ls₀ (textOf (bs ++ cs) ++ textOf rs₀) := by
  have hleft : Reads true ls₀ (textOf bs ++ (x.text ++ textOf rs)) := by
    have hreads := reads_left h
    rw [hls] at hreads
    exact (reads_append.mp hreads).1
  obtain ⟨c, u, hc⟩ : ∃ c u, textOf (bs ++ cs) = c :: u := by
    obtain ⟨t, ts, hts⟩ := List.exists_cons_of_ne_nil hne
    obtain ⟨c, u, hc, -⟩ := (told_between h hx hls hrs t (by simp [hts])).head
    exact ⟨c, u ++ textOf ts, by rw [hts, textOf_cons, hc]; rfl⟩
  have hblank : Lexeme.isBlank c = true := blank_between h hx hls hrs hbs hcs c (by simp [hc])
  have hslash : c ≠ '/' := by
    rintro rfl
    cases hblank
  rw [hc]
  refine hleft.before_gap (by simpa using mem_gaps_of_isBlank hblank) (fun a ha htrivia => ?_) (by simp [hslash])
  obtain ⟨f, d, v, -, hstep⟩ := hleft.last ha
  obtain hcomment | hend := blockComment_of_step hstep htrivia (hlast a ha)
  · exact .inl hcomment
  · -- The line ends here already, so the blanks after the comment are those before.
    refine .inr ?_
    cases bs with
    | nil =>
      exact absurd hend (not_lineEnd_head h hx _)
    | cons b bs =>
      obtain ⟨e, w, he, -⟩ := (told_between h hx hls hrs b (by simp)).head
      rw [← hc, List.cons_append, textOf_cons, textOf_cons, he]
      rfl

theorem rereads_blanks (hlast : ∀ a ∈ ls₀.getLast?, a.isBlank = false) (hfirst : ∀ b ∈ rs₀.head?, b.isBlank = false)
    (hne : bs ++ cs ≠ []) : Rereads (textOf ls ++ textOf rs) (ls ++ rs) := by
  have hright : Reads false cs (textOf rs₀) ∧ Reads (startsLineAfter false cs) rs₀ [] := by
    have hreads := reads_right h hx
    rw [hrs] at hreads
    simpa using reads_append.mp hreads
  obtain ⟨ms, hms, hmblank, hmreads⟩ := exists_blanks (startsLineAfter true ls₀)
    (not_blank_head (told_of_reads hright.2) hfirst) _ (Nat.le_refl _) (blank_between h hx hls hrs hbs hcs)
  obtain ⟨us, hlex, hshown⟩ : Rereads (textOf ls₀ ++ (textOf ms ++ textOf rs₀)) (ls₀ ++ rs₀) := by
    refine rereads_of_reads ms ?_ hmreads (hright.2.mono fun hline => ?_) hmblank
    · rw [hms]
      exact reads_before_blanks h hx hls hrs hbs hcs hlast hne
    · have hflag : startsLineAfter true (ls₀ ++ ms) = startsLineAfter (startsLineAfter true ls₀) ms := List.foldl_append
      rw [startsLineAfter_blanks hright.1 hcs, Bool.false_or] at hline
      rw [hflag, startsLineAfter_blanks hmreads hmblank, hms, textOf_append, List.any_append, hline, Bool.or_true,
        Bool.or_true]
  have hnone : ∀ ts : List Token, (∀ t ∈ ts, t.isBlank = true) → ts.filter (!·.isBlank) = [] := by
    intro ts hts
    simpa using hts
  refine ⟨us, ?_, ?_⟩
  · rw [← hlex, hms, hls, hrs]
    simp [textOf_append]
  · rw [hshown, hls, hrs]
    simp [shown, hnone bs hbs, hnone cs hcs]

end Blanks

section Meeting

variable (hlast : ∀ a ∈ ls.getLast?, a.isBlank = false) (hfirst : ∀ b ∈ rs.head?, b.isBlank = false)

include hlast

theorem kind_of_last {a : Token} (ha : a ∈ ls.getLast?) (htrivia : a.isTrivia = true) : a.kind = .blockComment := by
  obtain ⟨f, d, v, -, hstep⟩ := (reads_left h).last ha
  obtain hcomment | hend := blockComment_of_step hstep htrivia (hlast a ha)
  · exact hcomment
  · exact absurd hend (not_lineEnd_head h hx _)

omit hlast

include hfirst

theorem isComment_of_first {b : Token} (hb : b ∈ rs.head?) (htrivia : b.isTrivia = true) :
    b.kind.isComment = true ∧ (textOf rs).head? = some '/' := by
  have hright := reads_right h hx
  obtain ⟨rs, rfl⟩ := List.head?_eq_some_iff.mp hb
  obtain ⟨c, u, hc, hstep, -⟩ := hright
  have hblank := hfirst b rfl
  obtain ⟨k, text⟩ := b
  have hhead : (textOf (⟨k, text⟩ :: rs)).head? = some c := by
    rw [textOf_cons, hc]
    rfl
  rw [hhead]
  by_cases hk : k = .blockComment
  · subst hk
    obtain ⟨v, hv, -⟩ := KeywordSpacing.step_blockComment hstep true []
    obtain ⟨rfl, -⟩ := List.cons.inj (hc.symm.trans hv)
    exact ⟨rfl, rfl⟩
  · obtain ⟨rfl, -⟩ | ⟨rfl, -⟩ | ⟨⟨-, -, hline⟩ | ⟨hk, rfl, -⟩, -⟩ := step_trivia hstep (mem_lineKinds htrivia hk)
    · cases hblank
    · cases hblank
    · cases hline
    · obtain rfl | rfl := hk
      · exact ⟨rfl, rfl⟩
      · exact ⟨rfl, rfl⟩

omit hfirst

theorem reads_of_staysApart {pre rs₀ : List Token} {a b : Token} (hls : ls = pre ++ [a]) (hrs : rs = b :: rs₀)
    (ha : a.isTrivia = false) (hapart : staysApart a.text b.text = true)
    (hscales : a.isPlainNumber = true → Literal.scales (textOf rs) = false) (f : Bool) : Reads f [a] (textOf rs) := by
  obtain ⟨k₁, k₂, hlex⟩ := lex_of_staysApart hapart
  obtain ⟨-, c, u, hc, hapart, -⟩ := lexFrom_eq_iff.mp hlex
  have hc : a.text = c :: u := hc
  have hapart : step true c (u ++ b.text) = ⟨⟨⟨k₁, a.text⟩, none⟩, b.text⟩ := by simpa [textOf] using hapart
  obtain ⟨f', d, v, hd, hstep⟩ := (reads_left h).last (a := a) (by simp [hls])
  obtain ⟨rfl, rfl⟩ := List.cons.inj (hc.symm.trans hd)
  have hb : Reads false [b] (textOf rs₀) := by
    have hright := reads_right h hx
    rw [hrs, ← List.singleton_append] at hright
    simpa using (reads_append.mp hright).1
  obtain ⟨k, text⟩ := a
  obtain rfl : text = c :: u := hc
  obtain rfl : k₁ = k := kind_of_step ha hstep hapart
  refine ⟨c, u, rfl, ?_, trivial⟩
  have hends : EndsAfter ⟨k₁, c :: u⟩ b.text (textOf rs) := by
    obtain ⟨d, v, hd, -⟩ := id hb
    have hend := ends_of_reads hb []
    rw [List.append_nil, ← textOf_cons, ← hrs] at hend
    refine .of_head hend ?_ fun hn => ?_
    · rw [hrs, textOf_cons, hd]
      rfl
    · rw [hscales hn]
      rintro ⟨⟩
  exact step_ends hends (fun hhash => absurd hhash (ne_hash_of_step hstep ha)) hapart

include hfirst hlast

theorem reads_meeting (hfuse : fuses ls rs = false) (hslash : ¬SlashMeetsComment ls rs)
    (hnumber : ¬NumberMeetsExponent ls (textOf rs)) : Reads true ls (textOf rs) := by
  have hleft := reads_left h
  obtain rfl | ⟨pre, a, rfl⟩ := List.eq_nil_or_concat' ls
  · trivial
  have ha : a ∈ (pre ++ [a]).getLast? := by simp
  cases htrivia : a.isTrivia with
  | true =>
    have hkind := kind_of_last h hx hlast ha htrivia
    obtain ⟨f, c, u, -, hstep⟩ := hleft.last ha
    obtain ⟨k, text⟩ := a
    obtain rfl : k = .blockComment := hkind
    obtain ⟨v, rfl, hcomment⟩ := KeywordSpacing.step_blockComment hstep (startsLineAfter true pre) (textOf rs)
    refine hleft.concat ⟨'/', '*' :: v, rfl, hcomment, trivial⟩ fun pre₁ n mid hsplit hn => ?_
    -- No exponent goes on in a comment.
    have hwhole : Reads true (pre₁ ++ n :: (mid ++ [⟨.blockComment, '/' :: '*' :: v⟩])) (x.text ++ textOf rs) := by
      simpa [hsplit] using hleft
    have hnot := hwhole.not_scales hn
    by_contra hscales
    rw [Bool.not_eq_false] at hscales
    rw [textOf_append, List.append_assoc, Literal.scales_of_gap (by simp [gaps]) hscales] at hnot
    cases hnot
  | false =>
    have halike : ∀ a' ∈ (pre ++ [a]).getLast?, a'.isTrivia = true → a'.kind = .blockComment ∨
        (textOf rs).head? = (x.text ++ textOf rs).head? := by
      intro a' ha' ht
      exact .inl (kind_of_last h hx hlast ha' ht)
    cases rs with
    | nil => exact hleft.before_gap (by simp [textOf]) halike (by simp [textOf])
    | cons b rs =>
      cases hb : b.isTrivia with
      | true =>
        obtain ⟨hcomment, hhead⟩ := isComment_of_first h hx hfirst rfl hb
        refine hleft.before_gap (by simp [hhead, gaps]) halike fun a' ha' htext _ => ?_
        exact hslash ⟨a', ha', b, rfl, htext, hcomment⟩
      | false =>
        have hapart : staysApart a.text b.text = true := by
          simpa [fuses, htrivia, hb] using hfuse
        have hscales : ∀ pre₁ n mid, pre ++ [a] = pre₁ ++ n :: mid → n.isPlainNumber = true →
            Literal.scales (textOf mid ++ textOf (b :: rs)) = false := by
          intro pre₁ n mid hsplit hn
          by_contra hscales
          exact hnumber ⟨pre₁, n, mid, hsplit, hn, by simpa using hscales⟩
        refine hleft.concat (reads_of_staysApart h hx rfl rfl htrivia hapart ?_ _) fun pre₁ n mid hsplit hn => ?_
        · exact hscales pre a [] rfl
        · have hnone := hscales pre₁ n (mid ++ [a]) (by simp [hsplit]) hn
          simpa [textOf] using hnone

end Meeting

theorem rereads_of_not_meets (hslash : ¬SlashMeetsComment ls rs)
    (hnumber : ¬NumberMeetsExponent ls (seam ls rs ++ textOf rs)) :
    Rereads (textOf ls ++ (seam ls rs ++ textOf rs)) (ls ++ rs) := by
  cases hfuse : fuses ls rs with
  | true =>
    obtain ⟨ha, hb⟩ := significant_of_fuses hfuse
    rw [seam, if_pos hfuse]
    exact rereads_space h hx ha hb
  | false =>
    rw [seam, if_neg (by simp [hfuse]), List.nil_append] at hnumber ⊢
    obtain ⟨ls₀, bs, hls, hbs, hlast⟩ := exists_blank_suffix ls
    have hrs : rs = rs.takeWhile isBlank ++ rs.dropWhile isBlank := List.takeWhile_append_dropWhile.symm
    have hcs : ∀ c ∈ rs.takeWhile isBlank, c.isBlank = true := fun c hc => List.mem_takeWhile_imp hc
    have hfirst : ∀ b ∈ (rs.dropWhile isBlank).head?, b.isBlank = false := by
      intro b hb
      have hnot := List.head?_dropWhile_not isBlank rs
      rw [Option.mem_def.mp hb] at hnot
      simpa using hnot
    by_cases hne : bs ++ rs.takeWhile isBlank = []
    · obtain ⟨rfl, hnone⟩ := List.append_eq_nil_iff.mp hne
      rw [List.append_nil] at hls
      rw [hnone, List.nil_append] at hrs
      rw [← hls] at hlast
      rw [← hrs] at hfirst
      have hleft := reads_meeting h hx hlast hfirst hfuse hslash hnumber
      exact rereads_of_reads [] hleft trivial ((reads_right h hx).mono nofun) (by simp)
    · exact rereads_blanks h hx hls hrs hbs hcs hlast hfirst hne

omit hx in
theorem reads_of_rereads (hagain : Rereads (textOf ls ++ textOf rs) (ls ++ rs)) {pre post : List Token} {n : Token}
    (hsplit : ls ++ rs = pre ++ n :: post) (hn : n.isBlank = false) : ∃ f, Reads f [n] (textOf post) := by
  obtain ⟨us, hlex, hshown⟩ := hagain
  obtain ⟨htext, hreads⟩ := lexFrom_eq_iff.mp hlex
  have htold : ∀ t ∈ ls ++ rs, t.Told := by
    intro t ht
    refine told_of_reads h t ?_
    simp only [List.mem_append, List.mem_cons] at ht ⊢
    tauto
  obtain ⟨pre', post', rfl, hpost⟩ := exists_split htold (told_of_reads hreads)
    (by rw [htext, textOf_append]) hshown.symm
    hn hsplit
  obtain ⟨c, u, hc, hstep, -⟩ := (reads_append.mp hreads).2
  rw [List.append_nil, hpost] at hstep
  exact ⟨_, c, u, hc, hstep, trivial⟩

theorem not_rereads_of_slash (hslash : SlashMeetsComment ls rs) : ¬Rereads (textOf ls ++ textOf rs) (ls ++ rs) := by
  intro hagain
  obtain ⟨a, ha, b, hb, htext, hcomment⟩ := hslash
  have hhead : (textOf rs).head? = some '/' := by
    obtain ⟨htrivia, hblank⟩ := isTrivia_of_isComment hcomment
    refine (isComment_of_first h hx (fun b' hb' => ?_) hb htrivia).2
    rwa [Option.mem_unique hb' hb]
  obtain ⟨pre, rfl⟩ := List.getLast?_eq_some_iff.mp ha
  have hblank : a.isBlank = false := by
    obtain ⟨c, u, hc, hblank⟩ := (told_of_reads h a (by simp)).head
    obtain ⟨rfl, -⟩ := List.cons.inj (hc.symm.trans htext)
    exact hblank.symm
  obtain ⟨f, c, u, hc, hstep, -⟩ := reads_of_rereads h hagain (List.append_assoc pre [a] rs) hblank
  obtain ⟨rfl, rfl⟩ := List.cons.inj (hc.symm.trans htext)
  obtain ⟨k, text⟩ := a
  obtain rfl : text = ['/'] := htext
  exact (not_comment_of_slash hstep).1 hhead

omit hx in
theorem not_rereads_of_number (hnumber : NumberMeetsExponent ls (textOf rs)) :
    ¬Rereads (textOf ls ++ textOf rs) (ls ++ rs) := by
  intro hagain
  obtain ⟨pre, n, mid, rfl, hn, hscales⟩ := hnumber
  obtain ⟨f, hreads⟩ := reads_of_rereads h hagain (List.append_assoc pre (n :: mid) rs) (isBlank_of_isPlainNumber hn)
  have hreads : Reads f ([] ++ n :: []) (textOf (mid ++ rs)) := hreads
  have hnot := hreads.not_scales hn
  rw [textOf_append] at hnot
  exact absurd (hscales.symm.trans hnot) (by decide)

theorem rereads_iff : Rereads (textOf ls ++ (seam ls rs ++ textOf rs)) (ls ++ rs) ↔
    ¬SlashMeetsComment ls rs ∧ ¬NumberMeetsExponent ls (seam ls rs ++ textOf rs) := by
  refine ⟨fun hagain => ?_, fun hnot => rereads_of_not_meets h hx hnot.1 hnot.2⟩
  cases hfuse : fuses ls rs with
  | true =>
    obtain ⟨-, hb⟩ := significant_of_fuses hfuse
    rw [seam, if_pos hfuse] at hagain ⊢
    constructor
    · rintro ⟨a, -, b, hmem, -, hcomment⟩
      have htrivia := (isTrivia_of_isComment hcomment).1
      rw [hb b hmem] at htrivia
      cases htrivia
    · rintro ⟨pre, n, mid, rfl, hn, hscales⟩
      have hnot := (reads_left h).not_scales hn
      rw [Literal.scales_of_gap (by simp [gaps]) hscales] at hnot
      cases hnot
  | false =>
    rw [seam, if_neg (by simp [hfuse]), List.nil_append] at hagain ⊢
    exact ⟨fun hslash => not_rereads_of_slash h hx hslash hagain, fun hnumber => not_rereads_of_number h hnumber hagain⟩

end Removal

end Token

theorem Cell.size_textOf_read (cs : List Cell) : (Token.textOf (read cs)).size = extent cs := by
  induction cs with
  | nil => rfl
  | cons c cs ih => rw [textOf_read_cons, Text.size_append, extent_cons, ih]

namespace Zipper

open Token

theorem mem_leaves {root : Tree} {z : Zipper} (h : z ∈ (ofRoot root).tokens) : z ∈ leaves root := by
  obtain ⟨hmem, htoken⟩ := List.mem_filter.mp h
  have hflat := flatMap_preorderOf (f := fun y => if y.isToken then [y] else [])
    (fun y hy => if_neg (by simpa [isNode, Tree.isNode_eq, isToken] using hy)) [] root
  have hz : z ∈ (preorderOf [] root).flatMap (fun y => if y.isToken then [y] else []) :=
    List.mem_flatMap.mpr ⟨z, hmem, by simp [htoken]⟩
  rw [hflat] at hz
  obtain ⟨y, hy, hzy⟩ := List.mem_flatMap.mp hz
  split at hzy
  · rwa [List.mem_singleton.mp hzy]
  · cases hzy

theorem removeToken?_of_above {z : Zipper} {f : Frame} {fs : List Frame} (h : z.above = f :: fs) :
    ∃ tree, z.removeToken? false = some (tree, if z.removalJoins then [' '] else []) := by
  rw [removeToken?, h]
  refine ⟨_, congrArg some (Prod.ext rfl ?_)⟩
  cases z.removalJoins <;> rfl

theorem removalJoins_leaf {k : Kind} {ds : List Tree} (hfill : Tree.FilledAll ds) {ls rs : List Zipper} {z : Zipper}
    (h : leaves (.node k ds) = ls ++ z :: rs) :
    z.removalJoins = fuses (Cell.read (ls.map cell)) (Cell.read (rs.map cell)) := by
  have htok : ∀ y ∈ ls ++ z :: rs, y.isToken = true := by
    rw [← h]
    exact fun y hy => (root_leavesOf [] _ y hy).2
  have htrivia : ∀ y ∈ ls ++ z :: rs, y.cell.toToken.asRead.isTrivia = y.isTrivia := by
    intro y hy
    rw [isTrivia_asRead]
    exact isTrivia_cell (htok y hy)
  rw [removalJoins, prevToken?_leaf hfill h, nextToken?_leaf hfill h, fuses, Cell.read, Cell.read, List.map_map,
    List.map_map, List.getLast?_map, List.head?_map]
  cases hl : ls.getLast? with
  | none => rfl
  | some l =>
    cases hr : rs.head? with
    | none => rfl
    | some r =>
      have hl' := htrivia l (by simp [List.mem_of_getLast? hl])
      have hr' := htrivia r (by simp [List.mem_of_mem_head? hr])
      simp [hl', hr']
      rfl

end Zipper

namespace Batch

open Token Zipper

theorem apply_single (source : Source) (f : Finding) {p : Part} {target : Target} {tree : Tree} {text : Text}
    (hresolve : p.resolve source.tree 0 = .ok target) (hfold : p.fold target = some (tree, text)) :
    apply source [⟨f, [p]⟩] false = .ok
      { source := { source with tree }, applied := [f], edits := [⟨f.rule, p.span, text⟩]
        offsets := deltas [⟨f.rule, p.span, text⟩] } := by
  have hmade := step_eq (g := { tree := source.tree }) rfl hresolve hfold f.rule
  have hrun : ∀ {g}, step { tree := source.tree } (f.rule, p) = .ok g →
      [(f.rule, p)].reverse.foldlM step { tree := source.tree } = .ok g := by
    intro g hg
    rw [List.reverse_singleton, List.foldlM_cons, hg]
    rfl
  have hrow : (tagged [⟨f, [p]⟩]).Perm [(f.rule, p)] := .refl _
  exact apply_ordered hrow (List.pairwise_singleton _ _) (by simp) (by simp) (by simp [hresolve, Except.toOption])
    (hrun hmade)

/-- A significant token of a text without faults can be taken out. What remains is read as it was, unless a slash
comes to stand in front of a comment or a number in front of an exponent. -/
theorem apply_removeToken_rereads_iff {t : Text} (h : (parse t).faults = []) {z : Zipper}
    (hz : z ∈ (ofRoot (parse t).tree).tokens) (hsig : z.isTrivia = false) (f : Finding) (path : Option String) :
    ∃ ls x rs r, lex t = (ls ++ x :: rs).map (Lexeme.mk · none) ∧ (textOf ls).size = z.start ∧ x.text = z.text ∧
      apply (.ofText t path) [({ finding := f } : Edit).removeToken z] false = .ok r ∧ r.applied = [f] ∧
      r.edits = [⟨f.rule, z.span, seam ls rs⟩] ∧ r.source.text = textOf ls ++ (seam ls rs ++ textOf rs) ∧
      (Rereads r.source.text (ls ++ rs) ↔
        ¬SlashMeetsComment ls rs ∧ ¬NumberMeetsExponent ls (seam ls rs ++ textOf rs)) := by
  obtain ⟨ds, htree, hfill, hcells⟩ := (KeywordSpacing.layout_parse h).exists_children
  obtain ⟨ls, rs, hleaves⟩ := List.append_of_mem (htree ▸ mem_leaves hz)
  obtain ⟨hroot, htoken⟩ := root_leavesOf [] _ z (by rw [← leaves, hleaves]; simp)
  have hroot : z.root = .node .compilationUnit ds := hroot
  -- The tokens of the text are those of the leaves.
  have hlex : lex t = (Cell.read (ls.map cell) ++ z.cell.toToken.asRead :: Cell.read (rs.map cell)).map
    (Lexeme.mk · none) := by
    have hread := read_cells_parse h
    rw [htree, cells_leaf hleaves, Cell.read_append, Cell.read_cons] at hread
    rw [hread]
    exact lex_of_faultless h
  obtain ⟨htext, hreads⟩ := Lexeme.lexFrom_eq_iff.mp hlex
  have hx : z.cell.toToken.asRead.isTrivia = false := by
    rw [isTrivia_asRead, ← hsig]
    exact isTrivia_cell htoken
  have hpos : 0 < z.cell.text.size :=
    (KeywordSpacing.layout_parse h).full z.cell (by rw [htree, cells_leaf hleaves]; simp)
  -- The part can be made.
  have hstart : z.start = Cell.extent (ls.map cell) := congrArg Span.start (span_leaf hfill hleaves)
  have hresolve := Part.resolve_removal hfill hleaves hpos
  rw [Part.removal, ← span_leaf hfill hleaves, ← htree] at hresolve
  obtain ⟨frame, frames, habove⟩ := exists_frame hroot htoken
  obtain ⟨tree, hremove⟩ := removeToken?_of_above habove
  rw [removalJoins_leaf hfill hleaves, ← seam] at hremove
  have hmade := apply_single (.ofText t path) f hresolve hremove
  have hsize : (textOf (Cell.read (ls.map cell))).size = z.start := by
    rw [hstart, Cell.size_textOf_read]
  have hnew : tree.text = textOf (Cell.read (ls.map cell)) ++
      (seam (Cell.read (ls.map cell)) (Cell.read (rs.map cell)) ++ textOf (Cell.read (rs.map cell))) := by
    obtain ⟨before, gone, after, hold, hbefore, hgone, hnew⟩ := z.rewrites_removeToken? (htree ▸ hroot) rfl hremove
    rw [text_parse, ← htext, Lexeme.textOf_append, textOf_cons, List.append_assoc] at hold
    obtain ⟨rfl, hrest⟩ := Text.append_inj_size hold (hsize.trans hbefore.symm)
    obtain ⟨-, rfl⟩ := Text.append_inj_size hrest (by rw [text_asRead, hgone]; rfl)
    rw [hnew, List.append_assoc]
  refine ⟨_, _, _, _, hlex, hsize, text_asRead _, hmade, rfl, rfl, hnew, ?_⟩
  have htext' : Source.text { Source.ofText t path with tree } = tree.text := rfl
  rw [htext', hnew]
  exact rereads_iff hreads hx

def taking (z : Zipper) : Edit :=
  ({ finding := { rule := "a", span := z.span } } : Edit).removeToken z

def separated : Text :=
  "f(1,e+5);".toList

def beforeComma : List Token :=
  [⟨.ident, ['f']⟩, ⟨.lParen, ['(']⟩, ⟨.intLiteral, ['1']⟩]

def afterComma : List Token :=
  [⟨.ident, ['e']⟩, ⟨.plus, ['+']⟩, ⟨.intLiteral, ['5']⟩, ⟨.rParen, [')']⟩, ⟨.semicolon, [';']⟩]

theorem apply_removeToken_rereads_iff_exponent : (parse separated).faults = [] ∧
    ∃ z ∈ (ofRoot (parse separated).tree).tokens, z.isTrivia = false ∧
      lex separated = (beforeComma ++ ⟨.comma, [',']⟩ :: afterComma).map (Lexeme.mk · none) ∧
      ∃ r, apply (.ofText separated none) [taking z] false = .ok r ∧ r.source.text = "f(1e+5);".toList ∧
        ¬Rereads r.source.text (beforeComma ++ afterComma) := by
  obtain ⟨hclean, hfind, hlex⟩ : (parse separated).faults = [] ∧
      (ofRoot (parse separated).tree).tokens.any (fun z => !z.isTrivia && z.start == 3) = true ∧
      lex separated = (beforeComma ++ ⟨.comma, [',']⟩ :: afterComma).map (Lexeme.mk · none) := by
    decide +kernel
  obtain ⟨z, hz, hall⟩ := List.any_eq_true.mp hfind
  obtain ⟨hsig, hstart⟩ : z.isTrivia = false ∧ z.start = 3 := by simpa using hall
  obtain ⟨ls, x, rs, r, hread, hsize, -, hmade, -, -, htext, hiff⟩ :=
    apply_removeToken_rereads_iff hclean hz hsig { rule := "a", span := z.span } none
  obtain ⟨rfl, hrest⟩ : ls = beforeComma ∧ x :: rs = ⟨.comma, [',']⟩ :: afterComma := by
    refine append_inj_size (List.map_injective_iff.mpr (fun _ _ h => congrArg Lexeme.toToken h) (hread.symm.trans hlex))
      (hsize.trans hstart) (by decide)
  obtain ⟨rfl, rfl⟩ := List.cons.inj hrest
  refine ⟨hclean, z, hz, hsig, hlex, r, hmade, ?_, fun hagain => ?_⟩
  · rw [htext]
    decide +kernel
  · refine (hiff.mp hagain).2 ⟨[⟨.ident, ['f']⟩, ⟨.lParen, ['(']⟩], ⟨.intLiteral, ['1']⟩, [], rfl, by decide, ?_⟩
    decide +kernel

def quotient : Text :=
  "x=a/b/*c*/;".toList

/-- A slash that comes to stand in front of a comment takes the rest of the line into it. -/
theorem exists_comment_swallowed : (parse quotient).faults = [] ∧
    (lex quotient).map (·.toToken) = [⟨.ident, ['x']⟩, ⟨.eq, ['=']⟩, ⟨.ident, ['a']⟩, ⟨.slash, ['/']⟩, ⟨.ident, ['b']⟩,
      ⟨.blockComment, "/*c*/".toList⟩, ⟨.semicolon, [';']⟩] ∧
    ∃ z ∈ (ofRoot (parse quotient).tree).tokens, z.isTrivia = false ∧ z.text = ['b'] ∧
      ∃ r, apply (.ofText quotient none) [taking z] false = .ok r ∧ r.source.text = "x=a//*c*/;".toList ∧
        (lex r.source.text).map (·.toToken) =
          [⟨.ident, ['x']⟩, ⟨.eq, ['=']⟩, ⟨.ident, ['a']⟩, ⟨.lineComment, "//*c*/;".toList⟩] := by
  obtain ⟨hclean, hlex, hagain, hfind⟩ : (parse quotient).faults = [] ∧
      (lex quotient).map (·.toToken) =
        [⟨.ident, ['x']⟩, ⟨.eq, ['=']⟩, ⟨.ident, ['a']⟩, ⟨.slash, ['/']⟩, ⟨.ident, ['b']⟩,
        ⟨.blockComment, "/*c*/".toList⟩, ⟨.semicolon, [';']⟩] ∧
      (lex "x=a//*c*/;".toList).map (·.toToken) =
        [⟨.ident, ['x']⟩, ⟨.eq, ['=']⟩, ⟨.ident, ['a']⟩, ⟨.lineComment, "//*c*/;".toList⟩] ∧
      (ofRoot (parse quotient).tree).tokens.any (fun z => !z.isTrivia && z.text == ['b'] &&
        (apply (.ofText quotient none) [taking z] false).toOption.any (·.source.text == "x=a//*c*/;".toList)) =
          true := by
    decide +kernel
  refine ⟨hclean, hlex, ?_⟩
  obtain ⟨z, hz, hall⟩ := List.any_eq_true.mp hfind
  simp only [Bool.and_eq_true, Bool.not_eq_true', beq_iff_eq] at hall
  obtain ⟨⟨hsig, htext⟩, hresult⟩ := hall
  cases hr : apply (.ofText quotient none) [taking z] false with
  | error e =>
    rw [hr] at hresult
    cases hresult
  | ok r =>
    rw [hr] at hresult
    have hnew : r.source.text = "x=a//*c*/;".toList := beq_iff_eq.mp hresult
    refine ⟨z, hz, hsig, htext, r, hr, hnew, ?_⟩
    rw [hnew]
    exact hagain

end Batch

end Lintel
