import Lintel.Proofs.TokenRemoval

namespace Lintel

namespace Lexeme

open Cut

theorem space_mem_gaps (r : Text) : ∀ d ∈ (' ' :: r).head?, d ∈ gaps := by
  rintro d ⟨⟩
  decide

theorem step_newline_space {ls : Bool} {c : Char} {u r : Text}
    (h : step ls c (u ++ r) = ⟨⟨⟨.newline, c :: u⟩, none⟩, r⟩) :
    step ls c (u ++ ' ' :: r) = ⟨⟨⟨.newline, c :: u⟩, none⟩, ' ' :: r⟩ := by
  obtain rfl | rfl : c = '\n' ∨ c = '\r' := by simpa [Literal.isLineEnd] using (isLineEnd_of_newline h).1
  · obtain rfl : u = [] := (List.cons.inj (congrArg (·.lexeme.text) h)).2.symm
    rfl
  · have hnext : Literal.oneIf (· == '\n') (u ++ r) = ⟨u, r, true⟩ →
        Literal.oneIf (· == '\n') (u ++ ' ' :: r) = ⟨u, ' ' :: r, true⟩ := by
      rw [Literal.oneIf_eq_iff, Literal.oneIf_eq_iff]
      rintro (hone | ⟨rfl, -⟩)
      · exact .inl hone
      · exact .inr ⟨rfl, by simp⟩
    exact Step.ofCut_cons_append hnext (fun _ => Literal.closed_oneIf _) h

theorem step_before_space {ls : Bool} {a : Token} {c : Char} {u r : Text} (hc : a.text = c :: u)
    (hblank : a.kind ≠ .whitespace) (hline : a.kind ∉ [.lineComment, .docComment, .directive])
    (h : step ls c (u ++ r) = ⟨⟨a, none⟩, r⟩) : step ls c (u ++ ' ' :: r) = ⟨⟨a, none⟩, ' ' :: r⟩ := by
  obtain ⟨k, text⟩ := a
  obtain rfl : text = c :: u := hc
  by_cases hnewline : k = .newline
  · subst hnewline
    exact step_newline_space h
  have hkind : k.isTrivia = true → k = .blockComment := by
    intro htrivia
    have hmem := Kind.mem_of_isTrivia htrivia
    simp only [List.mem_cons, List.not_mem_nil, or_false, not_or] at hmem hline
    tauto
  have hscales := Literal.scales_of_gap (w := []) (r := r) (space_mem_gaps r)
  exact step_ends ⟨.of_gap (space_mem_gaps r), fun htrivia => .inl (hkind htrivia), by simp, fun _ => hscales⟩
    (fun _ => rfl) h

theorem Reads.before_space {ls : Bool} {pre : List Token} {a : Token} {r : Text} (h : Reads ls (pre ++ [a]) r)
    (hblank : a.kind ≠ .whitespace) (hline : a.kind ∉ [.lineComment, .docComment, .directive]) :
    Reads ls (pre ++ [a]) (' ' :: r) := by
  obtain ⟨-, c, u, hc, hstep, -⟩ := reads_append.mp h
  refine h.concat ⟨c, u, hc, step_before_space hc hblank hline hstep, trivial⟩ fun pre₁ n mid hsplit hn => ?_
  have hold : Literal.scales (Token.textOf (mid ++ [a]) ++ r) = false := by
    rw [hsplit, List.append_assoc] at h
    exact h.not_scales hn
  have htext : Token.textOf (mid ++ [a]) = Token.textOf mid ++ a.text := by simp [Token.textOf]
  rw [← List.append_assoc, ← htext, Bool.eq_false_iff]
  intro hscales
  rw [Literal.scales_of_gap (space_mem_gaps r) hscales] at hold
  cases hold

theorem Reads.cons_space {ls : Bool} {a : Token} {ts : List Token} {r : Text} (h : Reads ls (a :: ts) r)
    (hblank : a.kind ≠ .whitespace) : Reads ls (⟨.whitespace, [' ']⟩ :: a :: ts) r := by
  refine ⟨' ', [], rfl, step_space ls fun d hd => ?_, h⟩
  obtain ⟨c, u, hc, hstep, -⟩ := h
  obtain rfl : c = d := by simpa [Token.textOf, hc] using hd
  exact isInlineBlank_of_step (k := a.kind) hstep hblank

end Lexeme

open Lexeme Token in
theorem lex_space_tokens {t : Text} {pre post : List Token} {l r : Token}
    (h : lex t = (pre ++ l :: r :: post).map (Lexeme.mk · none)) (hl : l.kind ≠ .whitespace) (hr : r.kind ≠ .whitespace)
    (hline : l.kind ∉ [.lineComment, .docComment, .directive]) :
    t = textOf (pre ++ [l]) ++ textOf (r :: post) ∧
      lex (textOf (pre ++ [l]) ++ ' ' :: textOf (r :: post)) =
        (pre ++ l :: ⟨.whitespace, [' ']⟩ :: r :: post).map (Lexeme.mk · none) := by
  obtain ⟨htext, hreads⟩ := lexFrom_eq_iff.mp h
  rw [List.append_cons] at htext hreads
  rw [textOf_append] at htext
  obtain ⟨hbefore, hafter⟩ := reads_append.mp hreads
  rw [List.append_nil] at hbefore
  have hspaced : textOf (⟨.whitespace, [' ']⟩ :: r :: post) = ' ' :: textOf (r :: post) := by simp [textOf]
  rw [List.append_cons pre l (_ :: r :: post)]
  refine ⟨htext.symm, lexFrom_eq_iff.mpr ⟨by rw [textOf_append, hspaced], reads_append.mpr ⟨?_, hafter.cons_space hr⟩⟩⟩
  rw [List.append_nil, hspaced]
  exact hbefore.before_space hl hline

/-- A space between two tokens that are no blanks is read as a blank, and all tokens are read as before, unless the
first of the two takes the rest of its line. -/
theorem lex_space_between {t : Text} (hclean : Parse.lexFaults (lex t) = []) {pre post : List Lexeme} {l r : Lexeme}
    (hsplit : lex t = pre ++ l :: r :: post) (hl : l.kind ≠ .whitespace) (hr : r.kind ≠ .whitespace)
    (hline : l.kind ∉ [.lineComment, .docComment, .directive]) :
    let boundary := Text.size ((pre ++ [l]).flatMap (·.text))
    let spaced := t.takeBytes boundary ++ ' ' :: t.dropBytes boundary
    Parse.lexFaults (lex spaced) = [] ∧ lex spaced = pre ++ l :: ⟨⟨.whitespace, [' ']⟩, none⟩ :: r :: post := by
  intro boundary spaced
  have hmap := eq_map_of_lexFaults hclean
  generalize (lex t).map (·.toToken) = ts at hmap
  -- The tokens of the text are those of the lexemes on both sides.
  obtain ⟨pre, rest, rfl, rfl, hrest⟩ := List.map_eq_append_iff.mp (hmap.symm.trans hsplit)
  obtain ⟨l, rest, rfl, rfl, hpost⟩ := List.map_eq_cons_iff.mp hrest
  obtain ⟨r, post, rfl, rfl, rfl⟩ := List.map_eq_cons_iff.mp hpost
  obtain ⟨htext, hlex⟩ := lex_space_tokens hmap hl hr hline
  have hboundary : boundary = (Token.textOf (pre ++ [l])).size := by
    simp [boundary, Token.textOf, List.flatMap_map]
  have hspaced : spaced = Token.textOf (pre ++ [l]) ++ ' ' :: Token.textOf (r :: post) := by
    simp only [spaced]
    rw [hboundary, htext, Text.takeBytes_append, Text.dropBytes_append]
  rw [hspaced, hlex]
  refine ⟨lexFaults_eq_nil.mpr fun x hx => ?_, by simp⟩
  obtain ⟨token, -, rfl⟩ := List.mem_map.mp hx
  rfl

def scaledMember : Text :=
  "x=1.e+5;".toList

def beforeMember : List Lexeme :=
  [⟨⟨.ident, ['x']⟩, none⟩, ⟨⟨.eq, ['=']⟩, none⟩]

def afterMember : List Lexeme :=
  [⟨⟨.ident, ['e']⟩, none⟩, ⟨⟨.plus, ['+']⟩, none⟩, ⟨⟨.intLiteral, ['5']⟩, none⟩, ⟨⟨.semicolon, [';']⟩, none⟩]

theorem lex_space_between_member : Parse.lexFaults (lex scaledMember) = [] ∧
    lex scaledMember = beforeMember ++ ⟨⟨.intLiteral, ['1']⟩, none⟩ :: ⟨⟨.dot, ['.']⟩, none⟩ :: afterMember ∧
    Parse.lexFaults (lex "x=1 .e+5;".toList) = [] ∧
    lex "x=1 .e+5;".toList = beforeMember ++ ⟨⟨.intLiteral, ['1']⟩, none⟩ :: ⟨⟨.whitespace, [' ']⟩, none⟩ ::
      ⟨⟨.dot, ['.']⟩, none⟩ :: afterMember := by
  have hsplit : lex scaledMember =
      beforeMember ++ ⟨⟨.intLiteral, ['1']⟩, none⟩ :: ⟨⟨.dot, ['.']⟩, none⟩ :: afterMember := by decide +kernel
  have hclean : Parse.lexFaults (lex scaledMember) = [] := by
    rw [hsplit]
    rfl
  have hspaced : Text.takeBytes 3 scaledMember ++ ' ' :: Text.dropBytes 3 scaledMember = "x=1 .e+5;".toList := by
    decide +kernel
  refine ⟨hclean, hsplit, ?_⟩
  rw [← hspaced]
  exact lex_space_between hclean hsplit (by decide) (by decide) (by decide)

end Lintel
