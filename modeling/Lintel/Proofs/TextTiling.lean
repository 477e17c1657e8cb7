import Lintel.Proofs.ScannerRefinement
import Lintel.Proofs.TextCuts

namespace Lintel.Scanner

variable {t u : Text} {i : Nat} {c : Char}

def foundBy (i : Nat) (s : Lexeme.Step) : Found :=
  ⟨s.lexeme.kind, i + s.lexeme.text.size, s.lexeme.fault.map (fun f => ⟨.lexer f, ⟨i, s.lexeme.text.size⟩⟩)⟩

theorem foundBy_ofCut (i : Nat) (kind : Kind) (k : Cut) :
    foundBy i (.ofCut kind k) = ⟨kind, i + k.taken.size, none⟩ := by
  simp [foundBy, Lexeme.Step.ofCut]

theorem foundBy_cons (i : Nat) (kind : Kind) (k : Cut) (c : Char) :
    foundBy i (.ofCut kind (k.cons c)) = ⟨kind, i + c.utf8Size + k.taken.size, none⟩ := by
  rw [foundBy_ofCut, Cut.cons, Text.size_cons, Nat.add_assoc]

theorem foundBy_open (i : Nat) (kind : Kind) (k : Cut) (f : LexFault) :
    foundBy i (.ofCut kind k (some f)) = ⟨kind, i + k.taken.size, (ending i i k).2.map (⟨.lexer f, ·⟩)⟩ := by
  simp only [foundBy, Lexeme.Step.ofCut, ending, Span.between_add]
  split <;> rfl

theorem foundBy_quoted {kind : Kind} {k : Cut} {f : LexFault} (hc : c.utf8Size = 1) :
    foundBy i (.ofCut kind (k.cons c) (some f)) =
      ⟨kind, (ending (i + 1) (i + 1) k).1,
      (ending (i + 1) (i + 1) k).2.map (fun a => ⟨.lexer f, .between i a.stop⟩)⟩ := by
  rw [foundBy_open, ending_cons, hc]
  simp only [ending, Cut.cons, Text.size_cons, hc, Nat.add_assoc]
  split
  · rfl
  · rw [Option.map_some, Option.map_some, Span.stop_between (by omega)]

theorem not_digit_of_startsName (h : Letters.startsName c = true) : c.isDigit = false ∧ c ≠ '.' := by
  refine ⟨?_, ?_⟩
  · rw [Bool.eq_false_iff]
    intro hdigit
    have hcode : 48 ≤ c.toNat ∧ c.toNat ≤ 57 := by
      simpa [Char.isDigit, UInt32.le_iff_toNat_le] using hdigit
    have hmark : c ≠ '_' := by
      rintro rfl
      exact absurd hcode.2 (by decide)
    have halpha : c.isAlpha = true := by
      simpa [Letters.startsName, Letters.isAlphabetic, hmark, show c.toNat < 128 by omega] using h
    have hval : c.val.toNat ≤ 57 := hcode.2
    obtain hupper | hlower := Bool.or_eq_true_iff.mp halpha
    · have hle : 65 ≤ c.val.toNat := UInt32.le_iff_toNat_le.mp (of_decide_eq_true hupper).1
      omega
    · have hle : 97 ≤ c.val.toNat := UInt32.le_iff_toNat_le.mp (of_decide_eq_true (Bool.and_eq_true_iff.mp hlower).1)
      omega
  · rintro rfl
    cases h

theorem sign_eq (hc : Letters.startsName c = false) : sign i c (c :: u) = foundBy i (Lexeme.plain c u) := by
  rw [sign, Lexeme.plain, if_neg (by simp [hc]), Lexeme.sign?]
  cases hs : Kind.signs.find? (fun s => s.1.toList.isPrefixOf (c :: u)) with
  | none =>
    simp only [Option.map_none, foundBy, Text.size_cons, Text.size_nil, Nat.add_zero, Span.between_add]
    rfl
  | some s => simp only [Option.map_some, foundBy_ofCut]

theorem word_eq (h : At t i (c :: u)) (hc : Letters.startsName c = true) :
    plain t i c (c :: u) = some (foundBy i (Lexeme.plain c u)) := by
  have hword : (Cut.span Letters.continuesName (c :: u)).taken = c :: u.takeWhile Letters.continuesName :=
    List.takeWhile_cons_of_pos (Lexeme.continuesName_of_startsName hc)
  have hslice := h
  rw [← Cut.span_whole Letters.continuesName (c :: u), hword] at hslice
  rw [plain, if_pos hc, skipWhile_eq _ h, show (c :: u).takeWhile Letters.continuesName = _ from hword]
  simp only [Option.bind_eq_bind, Option.bind_some, hslice.slice?_eq, Lexeme.plain, if_pos hc, foundBy_ofCut]
  rfl

theorem plain_eq (h : At t i (c :: u)) (hname : ¬ (c == '@' && u.head?.any Letters.startsName) = true) :
    plain t i c (c :: u) = some (foundBy i (Lexeme.bare c u)) := by
  rw [Lexeme.bare, if_neg hname]
  cases hc : Letters.startsName c with
  | true =>
    obtain ⟨hdigit, hdot⟩ := not_digit_of_startsName hc
    rw [word_eq h hc, if_neg (by simp [hdigit, hdot])]
  | false =>
    have hnumber : (number t i).bind (fun n => some ⟨n.1, n.2, none⟩) =
        some (foundBy i (.ofCut (Literal.number (c :: u)).1 (Literal.number (c :: u)).2)) := by
      rw [number_eq h, foundBy_ofCut]
      rfl
    rw [plain, if_neg (by simp [hc])]
    cases hdigit : c.isDigit with
    | true => exact hnumber
    | false =>
      by_cases hdot : c = '.'
      · subst hdot
        have hat : At t (i + 1) u := h.cons
        simp only [Bool.false_eq_true, if_false, beq_self_eq_true, if_true, hat.char?_eq, Option.bind_eq_bind,
          Option.bind_some, Bool.false_or, Bool.true_and]
        split
        · exact hnumber
        · exact congrArg some (sign_eq hc)
      · simp only [Bool.false_eq_true, if_false, beq_eq_false_iff_ne.mpr hdot, Bool.false_or, Bool.false_and]
        exact congrArg some (sign_eq hc)

theorem startsPair (a b c : Char) (u : Text) :
    (c == a && [a, b].isPrefixOf (c :: u)) = (c == a && u.head? == some b) := by
  by_cases hc : c = a
  · subst hc
    cases u with
    | nil => simp [List.isPrefixOf]
    | cons d u => simp [List.isPrefixOf, BEq.comm (a := b)]
  · simp only [beq_eq_false_iff_ne.mpr hc, Bool.false_and]

theorem lineCommentKind_eq (r : Text) :
    (if "///".toList.isPrefixOf r && !"////".toList.isPrefixOf r then Kind.docComment else .lineComment) =
      Lexeme.lineCommentKind r := by
  fun_cases Lexeme.lineCommentKind r with
  | case1 u => rfl
  | case2 u hne =>
    have hfour : "////".toList.isPrefixOf ('/' :: '/' :: '/' :: u) = false := by
      rw [Bool.eq_false_iff]
      intro hpre
      obtain ⟨v, hv⟩ := List.isPrefixOf_iff_prefix.mp hpre
      exact hne v (by simpa using hv.symm)
    rw [hfour]
    rfl
  | case3 r _ hne =>
    have hthree : "///".toList.isPrefixOf r = false := by
      rw [Bool.eq_false_iff]
      intro hpre
      obtain ⟨v, rfl⟩ := List.isPrefixOf_iff_prefix.mp hpre
      exact hne v rfl
    rw [hthree]
    rfl

theorem lineEnd_cons (h : At t i (c :: u)) (hc : Literal.isLineEnd c = false) :
    lineEnd t i = some (i + c.utf8Size + (Literal.restOfLine u).taken.size) := by
  have htaken : (Literal.restOfLine (c :: u)).taken = c :: (Literal.restOfLine u).taken := by
    rw [Literal.restOfLine, Cut.span, List.takeWhile_cons, if_pos (by rw [hc]; rfl)]
    rfl
  rw [lineEnd_eq h, htaken, Text.size_cons, Nat.add_assoc]

theorem comment_eq (h : At t i ('/' :: '*' :: u)) : comment t i =
    some (foundBy i (.ofCut .blockComment (((Literal.blockComment u).cons '*').cons '/') (some .openComment))) := by
  have hat : At t (i + 2) u := h.cons.cons
  have hfind := find?_commentEnd u
  have hsize : i + (((Literal.blockComment u).cons '*').cons '/').taken.size =
      i + 2 + (Literal.blockComment u).taken.size := by
    rw [Cut.cons, Cut.cons, Text.size_cons, Text.size_cons, ← Nat.add_assoc, ← Nat.add_assoc]
    rfl
  rw [foundBy_open, ending_cons, ending_cons, ending, hsize, comment, hat.rest?_eq]
  simp only [Option.bind_eq_bind, Option.bind_some]
  by_cases hclosed : (Literal.blockComment u).closed = true
  · rw [if_pos hclosed] at hfind ⊢
    obtain ⟨n, hn, hsize⟩ := Option.map_eq_some_iff.mp hfind
    rw [hn, ← hsize]
    rfl
  · rw [if_neg hclosed] at hfind ⊢
    rw [Option.map_eq_none_iff.mp hfind, taken_of_open u (by simpa using hclosed), hat.size_eq]
    rfl

theorem literal_eq {kind : Kind} (hc : c.utf8Size = 1) (h : At t i (c :: u)) : literal kind c t i =
    some (foundBy i (.ofCut kind ((Literal.quoted c u).cons c) (some .openLiteral))) := by
  have hat : At t (i + 1) u := by
    rw [← hc]
    exact h.cons
  rw [literal, quoted_eq hat, foundBy_quoted hc]
  rfl

theorem startsSigned {f : Literal.StringForm × Text} (h : Literal.stringForm? (c :: u) = some f) :
    (c == '@' || c == '$') = true := by
  unfold Literal.stringForm? at h
  split at h
  · rename_i heq
    cases heq
    rfl
  · rename_i heq
    cases heq
    rfl
  · rename_i heq
    cases heq
    rfl
  · rename_i heq
    cases heq
    rfl
  · cases h

theorem within_eq (h : At t i (c :: u)) : within t i c (c :: u) = some (foundBy i (Lexeme.within c u)) := by
  have hcomment : (c == '/' && "/*".toList.isPrefixOf (c :: u)) = (c == '/' && u.head? == some '*') :=
    startsPair '/' '*' c u
  rw [within, hcomment, Lexeme.within]
  split
  · rename_i hc
    simp only [Bool.and_eq_true, beq_iff_eq] at hc
    obtain ⟨rfl, hu⟩ := hc
    obtain ⟨u, rfl⟩ := List.head?_eq_some_iff.mp hu
    exact comment_eq h
  split
  · rename_i hc
    obtain rfl : c = '"' := by simpa using hc
    exact literal_eq rfl h
  split
  · rename_i hc
    obtain rfl : c = '\'' := by simpa using hc
    exact literal_eq rfl h
  rw [opensString_eq]
  cases hform : Literal.stringForm? (c :: u) with
  | some f =>
    obtain ⟨form, opening⟩ := f
    rw [startsSigned hform, signedString_eq hform h]
    simp only [Option.isSome_some, Bool.and_self, if_true, Option.bind_eq_bind, Option.bind_some, foundBy_open]
    rfl
  | none =>
    rw [Option.isSome_none, Bool.and_false, if_neg Bool.false_ne_true]
    split
    · rename_i hc
      rw [h.cons.char?_eq]
      simp only [Option.bind_eq_bind, Option.bind_some]
      split
      · rename_i hname
        rw [skipWhile_eq _ h.cons, Lexeme.bare, if_pos (by rw [hc, hname]; rfl), foundBy_cons]
        rfl
      · rename_i hname
        exact plain_eq h (by simp [hname])
    · rename_i hc
      exact plain_eq h (by simp [hc])

theorem next_eq (h : At t i (c :: u)) (lineStart : Bool) :
    next t i lineStart c (c :: u) = some (foundBy i (Lexeme.step lineStart c u)) := by
  have hcomment : (c == '/' && "//".toList.isPrefixOf (c :: u)) = (c == '/' && u.head? == some '/') :=
    startsPair '/' '/' c u
  rw [next, hcomment, Lexeme.step_eq]
  split
  · rfl
  split
  · have hnewline : (u.head? == some '\n') = u.head?.any (· == '\n') := by cases u <;> rfl
    simp only [h.cons.char?_eq, Option.bind_eq_bind, Option.bind_some, foundBy_cons,
      size_oneIf (ascii_eq '\n' (by decide)), hnewline]
    split <;> rfl
  split
  · rw [skipWhile_eq _ h.cons, foundBy_cons]
    rfl
  split
  · rename_i hc
    simp only [Bool.and_eq_true, beq_iff_eq] at hc
    rw [lineEnd_cons h (by rw [hc.1]; rfl), foundBy_cons]
    rfl
  split
  · rename_i hc
    simp only [Bool.and_eq_true, beq_iff_eq] at hc
    rw [lineEnd_cons h (by rw [hc.1]; rfl), foundBy_cons, ← lineCommentKind_eq]
    rfl
  · exact within_eq h

def placed (i : Nat) : List Lexeme → List Placed
  | [] => []
  | l :: ls => ⟨l.toToken, ⟨i, l.text.size⟩⟩ :: placed (i + l.text.size) ls

theorem toToken_placed (i : Nat) (ls : List Lexeme) : (placed i ls).map (·.toToken) = ls.map (·.toToken) := by
  induction ls generalizing i with
  | nil => rfl
  | cons l ls ih => exact congrArg _ (ih _)

theorem lexFaults_cons (i : Nat) (l : Lexeme) (ls : List Lexeme) : Parse.lexFaults.go i (l :: ls) =
    (l.fault.map (fun f => (⟨.lexer f, ⟨i, l.text.size⟩⟩ : LocatedFault))).toList ++
      Parse.lexFaults.go (i + l.text.size) ls := by
  rw [Parse.lexFaults.go]
  cases l.fault <;> rfl

theorem At.step (h : At t i (c :: u)) (lineStart : Bool) :
    At t i ((Lexeme.step lineStart c u).lexeme.text ++ (Lexeme.step lineStart c u).rest) := by
  rwa [(Lexeme.step_whole lineStart c u).2]

theorem scan_go_eq {r : Text} {n : Nat} (h : At t i r) (hn : r.length < n) (lineStart : Bool) :
    scan.go t n i lineStart =
      some (placed i (Lexeme.lexFrom lineStart r), Parse.lexFaults.go i (Lexeme.lexFrom lineStart r)) := by
  fun_induction Lexeme.lexFrom lineStart r generalizing i n with
  | case1 lineStart =>
    obtain ⟨n, rfl⟩ := Nat.exists_eq_add_of_lt hn
    rw [scan.go, if_neg (by simp [h.size_eq])]
    rfl
  | case2 lineStart c u s =>
    rename_i ih
    obtain ⟨n, rfl⟩ := Nat.exists_eq_add_of_lt hn
    have hlt : i < t.size := by
      have := c.utf8Size_pos
      rw [h.size_eq, Text.size_cons]
      omega
    have hstep := h.step lineStart
    have hrest : scan.go t ((c :: u).length + n) (i + (Lexeme.step lineStart c u).lexeme.text.size)
        (Lexeme.startsLine lineStart (Lexeme.step lineStart c u).lexeme.kind) = _ :=
      ih hstep.append (Nat.lt_add_right n (Lexeme.step_rest_length lineStart c u))
    rw [scan.go, if_pos hlt, h.rest?_eq, lexFaults_cons]
    simp only [Option.bind_eq_bind, Option.bind_some, next_eq h]
    simp only [foundBy, hstep.slice?_eq, Option.bind_some, hrest, Span.between_add]
    rfl

inductive Tiles : Nat → Nat → List Span → Prop
  | nil (i : Nat) : Tiles i i []
  | cons {i j : Nat} {a : Span} {as : List Span} : a.start = i → 0 < a.length → Tiles a.stop j as → Tiles i j (a :: as)

theorem tiles_placed {r : Text} (h : At t i r) (lineStart : Bool) :
    Tiles i t.size ((placed i (Lexeme.lexFrom lineStart r)).map (·.span)) ∧
    ∀ p ∈ placed i (Lexeme.lexFrom lineStart r), p.text ≠ [] ∧ slice? t p.span.start p.span.stop = some p.text := by
  fun_induction Lexeme.lexFrom lineStart r generalizing i with
  | case1 lineStart =>
    have hsize : t.size = i := h.size_eq
    rw [hsize]
    exact ⟨.nil i, List.forall_mem_nil _⟩
  | case2 lineStart c u s =>
    rename_i ih
    have hne := (Lexeme.step_whole lineStart c u).1
    have hstep := h.step lineStart
    obtain ⟨htiles, hslices⟩ := ih hstep.append
    have hpos : 0 < (Lexeme.step lineStart c u).lexeme.text.size :=
      Nat.pos_of_ne_zero fun hzero => hne (Text.size_eq_zero.mp hzero)
    exact ⟨.cons rfl hpos htiles, List.forall_mem_cons.mpr ⟨⟨hne, hstep.slice?_eq⟩, hslices⟩⟩

theorem stop_le_of_mem_lexFaults {ls : List Lexeme} {f : LocatedFault} (hf : f ∈ Parse.lexFaults.go i ls) :
    f.span.stop ≤ i + Text.size (ls.flatMap (·.text)) := by
  induction ls generalizing i with
  | nil => cases hf
  | cons l ls ih =>
    rw [lexFaults_cons, List.mem_append] at hf
    rw [List.flatMap_cons, Text.size_append]
    obtain hf | hf := hf
    · obtain ⟨_, -, rfl⟩ := Option.map_eq_some_iff.mp (Option.mem_toList.mp hf)
      change i + l.text.size ≤ _
      omega
    · have := ih hf
      omega

/-- Scanning a text by the offsets of its bytes comes to an end and takes no slice that is out of range or parts a
character. It finds the tokens and the faults of the lexer. The tokens tile the text: none is empty, each starts where
the one before it ends, from the start of the text to its end, and each has the text of its span. Every fault lies
within the text. -/
theorem scan_tiles (t : Text) :
    ∃ tokens faults, scan t = some (tokens, faults) ∧
      tokens.map (·.toToken) = (lex t).map (·.toToken) ∧ faults = Parse.lexFaults (lex t) ∧
      Tiles 0 t.size (tokens.map (·.span)) ∧
      (∀ p ∈ tokens, p.text ≠ [] ∧ slice? t p.span.start p.span.stop = some p.text) ∧
      Token.textOf (tokens.map (·.toToken)) = t ∧
      ∀ f ∈ faults, f.span.stop ≤ t.size := by
  obtain ⟨htiles, hslices⟩ := tiles_placed (At.zero t) true
  refine ⟨_, _, scan_go_eq (At.zero t) (At.zero t).length_lt true, toToken_placed 0 _, rfl, htiles, hslices, ?_,
    fun f hf => ?_⟩
  · rw [toToken_placed]
    exact textOf_lex t
  · have hstop := stop_le_of_mem_lexFaults hf
    rwa [Lexeme.text_lexFrom, Nat.zero_add] at hstop

end Lintel.Scanner
