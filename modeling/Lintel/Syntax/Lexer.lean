import Lintel.Syntax.Literal
import Lintel.Syntax.Spelling
import Lintel.Text.Letters

namespace Lintel

namespace Lexeme

structure Step where
  lexeme : Lexeme
  rest : Text

def Step.ofCut (kind : Kind) (k : Cut) (open? : Option LexFault := none) : Step :=
  ⟨{ kind, text := k.taken, fault := if k.closed then none else open? }, k.rest⟩

def isInlineBlank (c : Char) : Bool :=
  c == ' ' || c == '\t' || c == '\x0b' || c == '\x0c'

/-- A comment that starts with exactly three strokes is documentation. -/
def lineCommentKind : Text → Kind
  | '/' :: '/' :: '/' :: '/' :: _ => .lineComment
  | '/' :: '/' :: '/' :: _ => .docComment
  | _ => .lineComment

def sign? (t : Text) : Option (Kind × Cut) :=
  (Kind.signs.find? (fun s => s.1.toList.isPrefixOf t)).map fun s =>
    (s.2, ⟨s.1.toList, t.drop s.1.toList.length, true⟩)

def plain (c : Char) (t : Text) : Step :=
  if Letters.startsName c then
    let word := (Cut.span Letters.continuesName t).cons c
    .ofCut ((Kind.reservedWord? word.taken).getD .ident) word
  else
    match sign? (c :: t) with
    | some (kind, k) => .ofCut kind k
    | none => ⟨{ kind := .error, text := [c], fault := some (.strayCharacter c) }, t⟩

/-- The first lexeme of the text `c :: t`. A directive stands only at the start of a line. -/
def step (lineStart : Bool) (c : Char) (t : Text) : Step :=
  if c == '\n' then ⟨{ kind := .newline, text := [c] }, t⟩
  else if c == '\r' then .ofCut .newline ((Literal.oneIf (· == '\n') t).cons c)
  else if isInlineBlank c then .ofCut .whitespace ((Cut.span isInlineBlank t).cons c)
  else if c == '#' && lineStart then .ofCut .directive ((Literal.restOfLine t).cons c)
  else if c == '/' && t.head? == some '/' then
    .ofCut (lineCommentKind (c :: t)) ((Literal.restOfLine t).cons c)
  else if c == '/' && t.head? == some '*' then
    .ofCut .blockComment (((Literal.blockComment (t.drop 1)).cons '*').cons c) (some .openComment)
  else if c == '"' then
    .ofCut .stringLiteral ((Literal.quoted '"' t).cons c) (some .openLiteral)
  else if c == '\'' then
    .ofCut .charLiteral ((Literal.quoted '\'' t).cons c) (some .openLiteral)
  else
    match Literal.stringForm? (c :: t) with
    | some (form, opening) =>
      let body := Literal.special form ⟨0, false⟩ ((c :: t).drop opening.length)
      .ofCut .stringLiteral { body with taken := opening ++ body.taken } (some .openString)
    | none =>
      if c == '@' && t.head?.any Letters.startsName then
        .ofCut .ident ((Cut.span Letters.continuesName t).cons c)
      else if c.isDigit || (c == '.' && t.head?.any Char.isDigit) then
        let (kind, k) := Literal.number (c :: t)
        .ofCut kind k
      else plain c t

theorem sign_ne_nil {s : String × Kind} (hs : s ∈ Kind.signs) : s.1.toList ≠ [] := by
  have hall : ∀ s ∈ Kind.signs, s.1.toList ≠ [] := by decide
  exact hall s hs

theorem sign?_whole {t : Text} {kind : Kind} {k : Cut} (h : sign? t = some (kind, k)) :
    k.taken ≠ [] ∧ k.Whole t := by
  simp only [sign?, Option.map_eq_some_iff] at h
  obtain ⟨s, hs, he⟩ := h
  have hmem := List.mem_of_find?_eq_some hs
  have hpre := List.find?_some hs
  obtain ⟨rfl, rfl⟩ := Prod.mk.inj he
  refine ⟨sign_ne_nil hmem, ?_⟩
  simp only [Cut.Whole]
  obtain ⟨u, rfl⟩ := List.isPrefixOf_iff_prefix.1 hpre
  simp

def Step.Reads (s : Step) (t : Text) : Prop :=
  s.lexeme.text ≠ [] ∧ s.lexeme.text ++ s.rest = t

theorem Step.reads_ofCut {k : Cut} {t : Text} (kind : Kind) (f : Option LexFault)
    (hne : k.taken ≠ []) (hw : k.Whole t) : (Step.ofCut kind k f).Reads t :=
  ⟨hne, hw⟩

theorem Step.reads_cons {k : Cut} {t : Text} (kind : Kind) (f : Option LexFault) (c : Char)
    (hw : k.Whole t) : (Step.ofCut kind (k.cons c) f).Reads (c :: t) :=
  Step.reads_ofCut kind f (by simp [Cut.cons]) (hw.cons c)

theorem Step.reads_ite {p : Prop} [Decidable p] {s s' : Step} {t : Text} (hs : p → s.Reads t)
    (hs' : ¬p → s'.Reads t) : (if p then s else s').Reads t :=
  iteInduction (motive := fun s => Step.Reads s t) hs hs'

theorem plain_reads (c : Char) (t : Text) : (plain c t).Reads (c :: t) := by
  refine Step.reads_ite (fun _ => ?_) (fun _ => ?_)
  · exact Step.reads_cons _ _ _ (Cut.span_whole _ _)
  · split
    · rename_i kind k hs
      exact Step.reads_ofCut _ _ (sign?_whole hs).1 (sign?_whole hs).2
    · exact ⟨List.cons_ne_nil _ _, rfl⟩

theorem step_reads (lineStart : Bool) (c : Char) (t : Text) : (step lineStart c t).Reads (c :: t) := by
  refine Step.reads_ite (fun _ => ⟨List.cons_ne_nil _ _, rfl⟩) (fun _ => ?_)
  refine Step.reads_ite (fun _ => Step.reads_cons _ _ _ (Literal.oneIf_whole _ _)) (fun _ => ?_)
  refine Step.reads_ite (fun _ => Step.reads_cons _ _ _ (Cut.span_whole _ _)) (fun _ => ?_)
  refine Step.reads_ite (fun _ => Step.reads_cons _ _ _ (Cut.span_whole _ _)) (fun _ => ?_)
  refine Step.reads_ite (fun _ => Step.reads_cons _ _ _ (Cut.span_whole _ _)) (fun _ => ?_)
  refine Step.reads_ite (fun h => ?_) (fun _ => ?_)
  · obtain ⟨u, rfl⟩ : ∃ u, t = '*' :: u := by
      cases t with
      | nil => simp at h
      | cons d u => simp at h; exact ⟨u, by rw [h.2]⟩
    exact Step.reads_cons _ _ _ ((Literal.blockComment_whole u).cons '*')
  refine Step.reads_ite (fun _ => Step.reads_cons _ _ _ (Literal.quoted_whole _ _)) (fun _ => ?_)
  refine Step.reads_ite (fun _ => Step.reads_cons _ _ _ (Literal.quoted_whole _ _)) (fun _ => ?_)
  split
  · rename_i form opening hf
    obtain ⟨hne, ho⟩ := Literal.stringForm?_opening hf
    refine Step.reads_ofCut _ _ (by simp [hne]) ?_
    have hb := Literal.special_whole form ⟨0, false⟩ ((c :: t).drop opening.length)
    simp only [Cut.Whole, List.append_assoc] at hb ⊢
    rw [hb, ho]
  · refine Step.reads_ite (fun _ => Step.reads_cons _ _ _ (Cut.span_whole _ _)) (fun _ => ?_)
    refine Step.reads_ite (fun h => ?_) (fun _ => plain_reads c t)
    exact Step.reads_ofCut _ _ (Literal.number_taken_ne_nil h) (Literal.number_whole _)

theorem step_whole (lineStart : Bool) (c : Char) (t : Text) :
    (step lineStart c t).lexeme.text ≠ [] ∧
      (step lineStart c t).lexeme.text ++ (step lineStart c t).rest = c :: t :=
  step_reads lineStart c t

theorem step_rest_length (lineStart : Bool) (c : Char) (t : Text) :
    (step lineStart c t).rest.length < (c :: t).length := by
  obtain ⟨hne, hw⟩ := step_whole lineStart c t
  have hl := congrArg List.length hw
  have := List.length_pos_iff.2 hne
  simp only [List.length_append] at hl
  omega

def startsLine (lineStart : Bool) : Kind → Bool
  | .newline => true
  | .whitespace => lineStart
  | _ => false

def lexFrom (lineStart : Bool) : Text → List Lexeme
  | [] => []
  | c :: t =>
    let s := step lineStart c t
    s.lexeme :: lexFrom (startsLine lineStart s.lexeme.kind) s.rest
termination_by t => t.length
decreasing_by exact step_rest_length lineStart c t

end Lexeme

def lex (t : Text) : List Lexeme :=
  Lexeme.lexFrom true t

theorem Lexeme.text_lexFrom (lineStart : Bool) (t : Text) :
    (lexFrom lineStart t).flatMap (·.text) = t := by
  fun_induction lexFrom lineStart t with
  | case1 => rfl
  | case2 lineStart c t s ih =>
    simp only [List.flatMap_cons, ih]
    exact (step_whole lineStart c t).2

theorem textOf_lex (t : Text) : Token.textOf ((lex t).map (·.toToken)) = t := by
  rw [Token.textOf, List.flatMap_map]
  exact Lexeme.text_lexFrom true t

end Lintel
