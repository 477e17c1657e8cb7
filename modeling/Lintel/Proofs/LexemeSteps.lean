import Lintel.Proofs.LexemeLocality
import Mathlib.Data.List.Find

namespace Lintel

def Token.IsSign (t : Token) : Prop :=
  ∃ s ∈ Kind.signs, s.2 = t.kind ∧ s.1.toList = t.text

theorem Kind.mem_of_isTrivia {k : Kind} (h : k.isTrivia = true) :
    k ∈ [whitespace, newline, lineComment, docComment, directive, blockComment] := by
  have hall : (Kind.all.filter isTrivia).all
      [whitespace, newline, lineComment, docComment, directive, blockComment].contains = true := by
    decide +kernel
  exact List.contains_iff_mem.mp (List.all_eq_true.mp hall k (List.mem_filter.mpr ⟨k.mem_all, h⟩))

def Token.isPlainNumber (t : Token) : Bool :=
  (t.kind == .intLiteral || t.kind == .realLiteral) && Literal.isPlain t.text

structure EndsAfter (a : Token) (r r' : Text) : Prop extends Ends r r' where
  alike : a.isTrivia = true → a.kind = .blockComment ∨ r'.head? = r.head?
  slash : a.text = ['/'] → r'.head? = some '/' → r.head? = some '/'
  scales : a.isPlainNumber = true → Literal.scales r' = true → Literal.scales r = true

theorem EndsAfter.of_head {a : Token} {r r' : Text} (hends : Ends r r') (hhead : r'.head? = r.head?)
    (hscales : a.isPlainNumber = true → Literal.scales r' = true → Literal.scales r = true) : EndsAfter a r r' :=
  ⟨hends, fun _ => .inr hhead, fun _ hslash => hhead ▸ hslash, hscales⟩

theorem Near.endsAfter {r r' : Text} (h : Near r r') (a : Token) : EndsAfter a r r' :=
  .of_head h.ends h.head? (fun _ hscales => h.scales ▸ hscales)

namespace Lexeme

open Cut

theorem Step.ofCut_eq_iff {kind k : Kind} {cut : Cut} {open? : Option LexFault} {t r : Text}
    (h : open? = none → cut.closed = true) :
    Step.ofCut kind cut open? = ⟨⟨⟨k, t⟩, none⟩, r⟩ ↔ kind = k ∧ cut = ⟨t, r, true⟩ := by
  obtain ⟨taken, rest, closed⟩ := cut
  cases closed with
  | true => simp [Step.ofCut, and_assoc]
  | false =>
    have hopen : open? ≠ none := by
      intro hnone
      simpa using h hnone
    simp [Step.ofCut, hopen]

theorem Step.ofCut_cons_append {kind k : Kind} {f : Text → Cut} {open? : Option LexFault} {c : Char} {t r r' : Text}
    (hf : f (t ++ r) = ⟨t, r, true⟩ → f (t ++ r') = ⟨t, r', true⟩)
    (hclosed : open? = none → ∀ s, (f s).closed = true)
    (h : Step.ofCut kind ((f (t ++ r)).cons c) open? = ⟨⟨⟨k, c :: t⟩, none⟩, r⟩) :
    Step.ofCut kind ((f (t ++ r')).cons c) open? = ⟨⟨⟨k, c :: t⟩, none⟩, r'⟩ := by
  have hcons : ∀ s, open? = none → ((f s).cons c).closed = true := fun s hnone => hclosed hnone s
  obtain ⟨rfl, hcut⟩ := (Step.ofCut_eq_iff (hcons _)).mp h
  obtain ⟨u, hu, hcut⟩ := Literal.cons_eq_mk hcut
  obtain ⟨-, rfl⟩ := List.cons.inj hu
  refine (Step.ofCut_eq_iff (hcons _)).mpr ⟨rfl, ?_⟩
  rw [hf hcut]
  rfl

theorem signs_pairwise : Kind.signs.Pairwise (fun s s' => ¬s.1.toList <+: s'.1.toList) := by
  decide +kernel

theorem exists_shorter_sign {s : String × Kind} (hs : s ∈ Kind.signs) {a d : Char} {t u : Text}
    (h : s.1.toList = a :: t ++ d :: u) : ∃ s' ∈ Kind.signs, s'.1.toList = a :: t ++ [d] := by
  have hall : ∀ s ∈ Kind.signs, ∀ n ≤ s.1.toList.length, 0 < n → ∃ s' ∈ Kind.signs, s'.1.toList =
    s.1.toList.take n := by
    decide +kernel
  obtain ⟨s', hs', htake⟩ := hall s hs (t.length + 2) (by simp [h]) (by omega)
  refine ⟨s', hs', ?_⟩
  rw [htake, h, List.cons_append, List.take_succ_cons, List.take_length_add_append]
  rfl

theorem sign?_ends {t r r' : Text} {k : Kind} (hends : Ends r r') (h : sign? (t ++ r) = some (k, ⟨t, r, true⟩)) :
    sign? (t ++ r') = some (k, ⟨t, r', true⟩) := by
  obtain ⟨a, t, rfl⟩ := List.exists_cons_of_ne_nil (sign?_whole h).1
  rw [sign?, Option.map_eq_some_iff] at h ⊢
  obtain ⟨s, hfind, he⟩ := h
  obtain ⟨rfl, hs⟩ : s.2 = k ∧ s.1.toList = a :: t := ⟨congrArg Prod.fst he, congrArg (fun p => p.2.taken) he⟩
  obtain ⟨-, before, after, hsplit, hbefore⟩ := List.find?_eq_some_iff_append.mp hfind
  refine ⟨s, List.find?_eq_some_iff_append.mpr ⟨by simp [hs], before, after, hsplit, ?_⟩, ?_⟩
  · intro x hx
    rw [Bool.not_eq_true', ← Bool.not_eq_true, List.isPrefixOf_iff_prefix]
    intro hpre
    have hpairs := signs_pairwise
    rw [hsplit, List.pairwise_append, List.pairwise_cons] at hpairs
    have hnot : ¬x.1.toList <+: a :: t := hs ▸ hpairs.2.2 x hx s (by simp)
    have hmem : ∀ y, y ∈ Kind.signs ↔ y ∈ before ∨ y = s ∨ y ∈ after := by simp [hsplit]
    -- An earlier sign could only be a longer one.
    obtain ⟨u, hu⟩ := (List.prefix_or_prefix_of_prefix hpre (List.prefix_append _ _)).resolve_left hnot
    cases u with
    | nil => exact hnot (by simp [← hu])
    | cons d u =>
      have hd : r'.head? = some d := by
        obtain ⟨v, hv⟩ := hpre
        rw [← hu, List.append_assoc, List.append_cancel_left_eq, List.cons_append] at hv
        rw [← hv]
        rfl
      obtain hhead | hgap := hends.head
      · obtain ⟨y, hy, hyd⟩ := exists_shorter_sign ((hmem x).mpr (.inl hx)) hu.symm
        have hyr : y.1.toList <+: a :: t ++ r := by
          obtain ⟨r₂, rfl⟩ := List.head?_eq_some_iff.mp (hhead.symm.trans hd)
          exact ⟨r₂, by simp [hyd]⟩
        obtain hy | rfl | hy := (hmem y).mp hy
        · have hno := hbefore y hy
          rw [Bool.not_eq_true', ← Bool.not_eq_true, List.isPrefixOf_iff_prefix] at hno
          exact hno hyr
        · simp [hs] at hyd
        · exact hpairs.2.1.1 y hy ⟨[d], by simp [hs, hyd]⟩
      · have hall : Kind.signs.all (fun s => s.1.toList.tail.all (fun c => !gaps.contains c)) = true := by decide
        have hnot := List.all_eq_true.mp (List.all_eq_true.mp hall x ((hmem x).mpr (.inl hx))) d (by simp [← hu])
        exact absurd (hgap d hd) (by simpa using hnot)
  · rw [hs, List.drop_left]

theorem sign?_eq_none {c : Char} (hc : ∀ s ∈ Kind.signs, s.1.toList.head? ≠ some c) (t : Text) :
    sign? (c :: t) = none := by
  rw [sign?, Option.map_eq_none_iff, List.find?_eq_none]
  intro s hs hpre
  obtain ⟨u, hu⟩ := List.isPrefixOf_iff_prefix.mp hpre
  cases hs' : s.1.toList with
  | nil => exact sign_ne_nil hs hs'
  | cons a v =>
    rw [hs', List.cons_append] at hu
    exact hc s hs (by rw [hs', (List.cons.inj hu).1]; rfl)

theorem lineCommentKind_eq_ite (t : Text) : lineCommentKind t =
    if List.replicate 3 '/' <+: t ∧ ¬List.replicate 4 '/' <+: t then .docComment else .lineComment := by
  unfold lineCommentKind
  split
  · rename_i u
    rw [if_neg (fun h => h.2 ⟨u, rfl⟩)]
  · rename_i u hfour
    rw [if_pos ⟨⟨u, rfl⟩, fun ⟨v, hv⟩ => hfour v (List.cons.inj (List.cons.inj (List.cons.inj hv).2).2).2.symm⟩]
  · rename_i _ hthree
    rw [if_neg]
    rintro ⟨⟨u, rfl⟩, -⟩
    exact hthree u rfl

theorem strokes_prefix_append {r : Text} (hr : r.head? ≠ some '/') (n : Nat) (t : Text) :
    List.replicate n '/' <+: t ++ r ↔ List.replicate n '/' <+: t := by
  induction n generalizing t with
  | zero => simp
  | succ n ih =>
    rw [List.replicate_succ]
    cases t with
    | nil =>
      refine ⟨fun ⟨u, hu⟩ => absurd ?_ hr, fun h => absurd (List.prefix_nil.mp h) (List.cons_ne_nil _ _)⟩
      rw [← List.nil_append r, ← hu]
      rfl
    | cons a t => rw [List.cons_append, List.cons_prefix_cons, List.cons_prefix_cons, ih]

theorem lineCommentKind_append {r : Text} (hr : r.head? ≠ some '/') (t : Text) :
    lineCommentKind (t ++ r) = lineCommentKind t := by
  simp only [lineCommentKind_eq_ite, strokes_prefix_append hr]

theorem restOfLine_append {t r r' : Text} (hhead : r'.head? = r.head?)
    (h : Literal.restOfLine (t ++ r) = ⟨t, r, true⟩) :
    Literal.restOfLine (t ++ r') = ⟨t, r', true⟩ :=
  span_alike hhead h

theorem stringForm?_append {form : Literal.StringForm} {s opening : Text}
    (h : Literal.stringForm? s = some (form, opening)) (r : Text) :
    Literal.stringForm? (opening ++ r) = some (form, opening) := by
  unfold Literal.stringForm? at h
  split at h
  · obtain ⟨rfl, rfl⟩ := Prod.mk.inj (Option.some.inj h)
    rfl
  · obtain ⟨rfl, rfl⟩ := Prod.mk.inj (Option.some.inj h)
    rfl
  · obtain ⟨rfl, rfl⟩ := Prod.mk.inj (Option.some.inj h)
    rfl
  · obtain ⟨rfl, rfl⟩ := Prod.mk.inj (Option.some.inj h)
    rfl
  · cases h

theorem stringForm?_eq_none {c : Char} {t : Text} (h : c ∈ ['@', '$'] → ∃ d u, t = d :: u ∧ d ∉ ['@', '$', '"']) :
    Literal.stringForm? (c :: t) = none := by
  unfold Literal.stringForm?
  split
  · simp_all
  · simp_all
  · simp_all
  · simp_all
  · rfl

theorem special_ends {form : Literal.StringForm} {hole : Literal.Hole} {opening u t r r' : Text} {k : Kind}
    (hends : Ends r r')
    (h : Step.ofCut .stringLiteral
      { Literal.special form hole u with taken := opening ++ (Literal.special form hole u).taken }
      (some .openString) = ⟨⟨⟨k, t⟩, none⟩, r⟩) :
    ∃ v, t = opening ++ v ∧ k = .stringLiteral ∧ Literal.special form hole (v ++ r') = ⟨v, r', true⟩ := by
  obtain ⟨rfl, hcut⟩ := (Step.ofCut_eq_iff (by simp)).mp h
  obtain ⟨v, r₂, closed, hbody⟩ : ∃ v r₂ closed, Literal.special form hole u = ⟨v, r₂, closed⟩ := ⟨_, _, _, rfl⟩
  rw [hbody] at hcut
  obtain ⟨rfl, rfl, rfl⟩ : opening ++ v = t ∧ r₂ = r ∧ closed = true := by simpa using hcut
  have hquote : r'.head? = some '"' → r₂.head? = some '"' := by
    intro hr'
    obtain hhead | hgap := hends.head
    · rwa [← hhead]
    · exact absurd (hgap '"' hr') (by decide)
  exact ⟨v, rfl, rfl, (Literal.special_append hquote hbody).2⟩

theorem continuesName_of_startsName {c : Char} (h : Letters.startsName c = true) : Letters.continuesName c = true := by
  rw [Letters.startsName] at h
  rw [Letters.continuesName, h, Bool.true_or]

theorem continuesName_gaps : gaps.any Letters.continuesName = false := by
  decide

theorem plain_ends {c : Char} {t r r' : Text} {k : Kind} (hends : Ends r r')
    (h : plain c (t ++ r) = ⟨⟨⟨k, c :: t⟩, none⟩, r⟩) : plain c (t ++ r') = ⟨⟨⟨k, c :: t⟩, none⟩, r'⟩ := by
  unfold plain at h ⊢
  split at h
  · rename_i hc
    rw [if_pos hc]
    -- The kind of a word depends on its text, which is not known before it is cut.
    obtain ⟨hk, hcut⟩ := (Step.ofCut_eq_iff (fun _ => rfl)).mp h
    obtain ⟨u, hu, hspan⟩ := Literal.cons_eq_mk hcut
    obtain ⟨-, rfl⟩ := List.cons.inj hu
    rw [hspan] at hk
    refine (Step.ofCut_eq_iff (fun _ => rfl)).mpr ?_
    rw [local_span continuesName_gaps hends hspan]
    exact ⟨hk, rfl⟩
  · rename_i hc
    rw [if_neg hc]
    split at h
    · rename_i kind cut hsign
      have hclosed : cut.closed = true := by
        rw [sign?, Option.map_eq_some_iff] at hsign
        obtain ⟨s, -, hs⟩ := hsign
        obtain ⟨-, rfl⟩ := Prod.mk.inj hs
        rfl
      obtain ⟨rfl, rfl⟩ := (Step.ofCut_eq_iff (fun _ => hclosed)).mp h
      rw [← List.cons_append] at hsign ⊢
      rw [sign?_ends hends hsign]
      rfl
    · simp at h

theorem kind_number (s : Text) : (Literal.number s).1 = .intLiteral ∨ (Literal.number s).1 = .realLiteral := by
  have hdecimal : ∀ s, (Literal.decimal s).1 = .intLiteral ∨ (Literal.decimal s).1 = .realLiteral := by
    intro s
    rw [Literal.decimal_eq]
    split
    · exact .inr rfl
    · split
      · exact .inr rfl
      · exact .inl rfl
  cases hten : Literal.inTens s with
  | true => exact Literal.number_of_inTens hten ▸ hdecimal s
  | false =>
    obtain ⟨x, u, rfl, hx⟩ := Literal.exists_base hten
    exact .inl (by rw [Literal.number_of_base hx])

theorem number_dot {d : Char} (hd : d.isDigit = true) (r : Text) :
    (Literal.number ('.' :: d :: r)).2.taken ≠ ['.'] := by
  have hfront : Literal.decimalFront ('.' :: d :: r) = (Cut.span Literal.isDigitOrMark (d :: r)).cons '.' := by
    have hfraction : Literal.fraction ('.' :: d :: r) = (Cut.span Literal.isDigitOrMark (d :: r)).cons '.' := if_pos hd
    have hwhole : Literal.decimalWhole ('.' :: d :: r) = ⟨[], '.' :: d :: r, true⟩ := rfl
    rw [Literal.decimalFront, hwhole, Cut.andThen, hfraction]
    rfl
  rw [Literal.number_of_inTens rfl, Literal.decimal_eq]
  split <;> simp [Literal.decimalScaled, hfront, Cut.andThen, Cut.cons, Cut.span, Literal.isDigitOrMark, hd]

def bare (c : Char) (t : Text) : Step :=
  if c == '@' && t.head?.any Letters.startsName then
    .ofCut .ident ((Cut.span Letters.continuesName t).cons c)
  else if c.isDigit || (c == '.' && t.head?.any Char.isDigit) then
    .ofCut (Literal.number (c :: t)).1 (Literal.number (c :: t)).2
  else plain c t

def lineKinds : List Kind :=
  [.newline, .whitespace, .directive, .lineComment, .docComment]

def within (c : Char) (t : Text) : Step :=
  if c == '/' && t.head? == some '*' then
    .ofCut .blockComment (((Literal.blockComment (t.drop 1)).cons '*').cons c) (some .openComment)
  else if c == '"' then
    .ofCut .stringLiteral ((Literal.quoted '"' t).cons c) (some .openLiteral)
  else if c == '\'' then
    .ofCut .charLiteral ((Literal.quoted '\'' t).cons c) (some .openLiteral)
  else
    match Literal.stringForm? (c :: t) with
    | some (form, opening) =>
      .ofCut .stringLiteral
        { Literal.special form ⟨0, false⟩ ((c :: t).drop opening.length) with
          taken := opening ++ (Literal.special form ⟨0, false⟩ ((c :: t).drop opening.length)).taken }
        (some .openString)
    | none => bare c t

theorem step_eq (ls : Bool) (c : Char) (t : Text) : step ls c t =
    if c == '\n' then ⟨{ kind := .newline, text := [c] }, t⟩
    else if c == '\r' then .ofCut .newline ((Literal.oneIf (· == '\n') t).cons c)
    else if isInlineBlank c then .ofCut .whitespace ((Cut.span isInlineBlank t).cons c)
    else if c == '#' && ls then .ofCut .directive ((Literal.restOfLine t).cons c)
    else if c == '/' && t.head? == some '/' then .ofCut (lineCommentKind (c :: t)) ((Literal.restOfLine t).cons c)
    else within c t :=
  rfl

theorem exists_name_of_bare {c : Char} {t r : Text} {k : Kind} (hc : c ∈ ['@', '$'])
    (h : bare c (t ++ r) = ⟨⟨⟨k, c :: t⟩, none⟩, r⟩) : ∃ d u, t = d :: u ∧ Letters.startsName d = true := by
  obtain ⟨hdigit, hstart, hsign⟩ : (c.isDigit || c == '.') = false ∧ Letters.startsName c = false ∧
      ∀ s ∈ Kind.signs, s.1.toList.head? ≠ some c := by
    obtain rfl | rfl : c = '@' ∨ c = '$' := by simpa using hc
    · decide
    · decide
  rw [Bool.or_eq_false_iff] at hdigit
  rw [bare] at h
  split at h
  · rename_i hname
    obtain ⟨-, hcut⟩ := (Step.ofCut_eq_iff (fun _ => rfl)).mp h
    obtain ⟨u, hu, hspan⟩ := Literal.cons_eq_mk hcut
    obtain ⟨-, rfl⟩ := List.cons.inj hu
    obtain ⟨-, -, hr⟩ := span_eq_iff.mp hspan
    cases t with
    | cons d u => exact ⟨d, u, rfl, by simpa using (Bool.and_eq_true_iff.mp hname).2⟩
    | nil =>
      cases r with
      | nil => simp at hname
      | cons d r =>
        have hd : Letters.startsName d = true := (Bool.and_eq_true_iff.mp hname).2
        exact absurd (continuesName_of_startsName hd) (by rw [hr d rfl]; decide)
  · rw [if_neg (by simp [hdigit.1, hdigit.2]), plain, if_neg (by simp [hstart]), sign?_eq_none hsign] at h
    simp at h

theorem not_digit_of_bare {r : Text} {k : Kind} (h : bare '.' r = ⟨⟨⟨k, ['.']⟩, none⟩, r⟩) :
    ∀ d ∈ r.head?, d.isDigit = false := by
  intro d hd
  cases hdigit : d.isDigit with
  | false => rfl
  | true =>
    obtain ⟨u, rfl⟩ := List.head?_eq_some_iff.mp hd
    rw [bare, if_neg (by simp), if_pos (by simp [hdigit])] at h
    exact absurd (congrArg (fun s => s.lexeme.text) h) (number_dot hdigit u)

theorem bare_ends {c : Char} {t r r' : Text} {k : Kind} (hends : EndsAfter ⟨k, c :: t⟩ r r')
    (h : bare c (t ++ r) = ⟨⟨⟨k, c :: t⟩, none⟩, r⟩) : bare c (t ++ r') = ⟨⟨⟨k, c :: t⟩, none⟩, r'⟩ := by
  have hname : (c == '@' && (t ++ r').head?.any Letters.startsName) =
    (c == '@' && (t ++ r).head?.any Letters.startsName) := by
    by_cases hc : c = '@'
    · obtain ⟨d, u, rfl, -⟩ := exists_name_of_bare (by simp [hc]) h
      rfl
    · rw [beq_false_of_ne hc, Bool.false_and, Bool.false_and]
  have hbare := h
  rw [bare] at h ⊢
  rw [hname]
  split at h
  · rename_i hc
    rw [if_pos hc]
    exact Step.ofCut_cons_append (f := Cut.span _) (fun h => local_span continuesName_gaps hends.toEnds h)
      (fun _ _ => rfl) h
  rename_i hc
  rw [if_neg hc]
  have hnumber : (c.isDigit || (c == '.' && (t ++ r').head?.any Char.isDigit)) =
      (c.isDigit || (c == '.' && (t ++ r).head?.any Char.isDigit)) := by
    cases t with
    | cons d t => rfl
    | nil =>
      by_cases hdot : c = '.'
      · subst hdot
        have hr := not_digit_of_bare hbare
        have hr' := hends.not_head (by decide) hr
        have hnone : ∀ s : Text, (∀ d ∈ s.head?, d.isDigit = false) → s.head?.any Char.isDigit = false := by
          intro s hs
          cases s with
          | nil => rfl
          | cons d s => exact hs d rfl
        rw [List.nil_append, List.nil_append, hnone r hr, hnone r' hr']
      · rw [beq_false_of_ne hdot, Bool.false_and, Bool.false_and]
  rw [hnumber]
  split at h
  · rename_i hc
    rw [if_pos hc]
    obtain ⟨hk, hcut⟩ := (Step.ofCut_eq_iff (fun _ => Literal.closed_number _)).mp h
    have hscales : Literal.isPlain (c :: t) = true → Literal.scales r' = true → Literal.scales r = true := by
      intro hplain
      refine hends.scales ?_
      have hkind := kind_number (c :: (t ++ r))
      rw [hk] at hkind
      rw [Token.isPlainNumber, hplain]
      obtain rfl | rfl := hkind <;> rfl
    have hnumber := Literal.number_ends (t := c :: t) hends.toEnds hscales (by simp) (Prod.ext hk hcut)
    exact (Step.ofCut_eq_iff (fun _ => Literal.closed_number _)).mpr (Prod.mk.inj hnumber)
  · rename_i hc
    rw [if_neg hc]
    exact plain_ends hends.toEnds h

theorem lineCommentKind_eq (t : Text) : lineCommentKind t = .lineComment ∨ lineCommentKind t = .docComment := by
  unfold lineCommentKind
  split
  · exact .inl rfl
  · exact .inr rfl
  · exact .inl rfl

theorem plain_kind {c : Char} {t r text : Text} {k : Kind} (h : plain c t = ⟨⟨⟨k, text⟩, none⟩, r⟩) :
    k = .ident ∨ Kind.reservedWord? text = some k ∨ Token.IsSign ⟨k, text⟩ := by
  unfold plain at h
  split at h
  · obtain ⟨rfl, hcut⟩ := (Step.ofCut_eq_iff (fun _ => rfl)).mp h
    rw [hcut]
    cases hw : Kind.reservedWord? text with
    | none => exact .inl rfl
    | some k => exact .inr (.inl rfl)
  · split at h
    · rename_i kind cut hsign
      rw [sign?, Option.map_eq_some_iff] at hsign
      obtain ⟨s, hs, he⟩ := hsign
      obtain ⟨rfl, rfl⟩ := Prod.mk.inj he
      obtain ⟨rfl, hcut⟩ := (Step.ofCut_eq_iff (fun _ => rfl)).mp h
      exact .inr (.inr ⟨s, List.mem_of_find?_eq_some hs, rfl, congrArg Cut.taken hcut⟩)
    · simp at h

def openers : List Char :=
  ['\n', '\r', ' ', '\t', '\x0b', '\x0c', '#', '/', '"', '\'', '@', '$']

theorem step_eq_bare {c : Char} (hc : c ∉ openers) (ls : Bool) (t : Text) : step ls c t = bare c t := by
  have hne : ∀ d ∈ openers, (c == d) = false := by
    intro d hd
    rw [beq_eq_false_iff_ne]
    rintro rfl
    exact hc hd
  have hform : Literal.stringForm? (c :: t) = none := by
    refine stringForm?_eq_none (fun hmem => absurd ?_ hc)
    obtain rfl | rfl : c = '@' ∨ c = '$' := by simpa using hmem
    · decide
    · decide
  rw [step, isInlineBlank, hne '\n' (by decide), hne '\r' (by decide), hne ' ' (by decide), hne '\t' (by decide),
    hne '\x0b' (by decide), hne '\x0c' (by decide), hne '#' (by decide), hne '/' (by decide), hne '"' (by decide),
    hne '\'' (by decide), hform]
  rfl

theorem not_scales_of_step {ls : Bool} {c : Char} {t r : Text} {k : Kind}
    (h : step ls c (t ++ r) = ⟨⟨⟨k, c :: t⟩, none⟩, r⟩) (hn : Token.isPlainNumber ⟨k, c :: t⟩ = true) :
    Literal.scales r = false := by
  obtain ⟨hkind, hplain⟩ : (k = .intLiteral ∨ k = .realLiteral) ∧ Literal.isPlain (c :: t) = true := by
    simpa [Token.isPlainNumber] using hn
  have hc : c ∉ openers := by
    intro hc
    have hnone : openers.any (fun d => Literal.isDigitOrMark d || d == '.') = false := by decide
    exact List.any_eq_false.mp hnone c hc (List.all_eq_true.mp hplain c (by simp))
  rw [step_eq_bare hc, bare, if_neg (by rintro hat; exact hc (by simp_all [openers]))] at h
  split at h
  · obtain ⟨hk, hcut⟩ := (Step.ofCut_eq_iff (fun _ => Literal.closed_number _)).mp h
    exact Literal.not_scales_of_number (t := c :: t) hplain (Prod.ext hk hcut)
  · have hnone : k ≠ .intLiteral ∧ k ≠ .realLiteral := by
      rcases plain_kind h with rfl | hword | ⟨s, hs, hkind, -⟩
      · decide
      · rw [Kind.reservedWord?, Option.map_eq_some_iff] at hword
        obtain ⟨w, hw, rfl⟩ := hword
        have hall : ∀ w ∈ Kind.reservedWords, w.2 ≠ .intLiteral ∧ w.2 ≠ .realLiteral := by decide
        exact hall w (List.mem_of_find?_eq_some hw)
      · have hkind : s.2 = k := hkind
        have hall : ∀ s ∈ Kind.signs, s.2 ≠ .intLiteral ∧ s.2 ≠ .realLiteral := by decide
        exact hkind ▸ hall s hs
    obtain rfl | rfl := hkind
    · exact absurd rfl hnone.1
    · exact absurd rfl hnone.2

theorem not_comment_of_slash {ls : Bool} {r : Text} {k : Kind} (h : step ls '/' r = ⟨⟨⟨k, ['/']⟩, none⟩, r⟩) :
    r.head? ≠ some '/' ∧ r.head? ≠ some '*' := by
  constructor
  · intro hr
    obtain ⟨u, rfl⟩ := List.head?_eq_some_iff.mp hr
    have hcut : ((Literal.restOfLine ('/' :: u)).cons '/').taken = ['/'] := congrArg (fun s => s.lexeme.text) h
    rw [Literal.restOfLine, Cut.span, List.takeWhile_cons_of_pos (by decide)] at hcut
    cases hcut
  · intro hr
    obtain ⟨u, rfl⟩ := List.head?_eq_some_iff.mp hr
    have hcut : (((Literal.blockComment u).cons '*').cons '/').taken = ['/'] := congrArg (fun s => s.lexeme.text) h
    cases hcut

theorem slash_ends {ls : Bool} {t r r' : Text} {k : Kind} (hends : EndsAfter ⟨k, '/' :: t⟩ r r')
    (h : step ls '/' (t ++ r) = ⟨⟨⟨k, '/' :: t⟩, none⟩, r⟩) {c : Char} (hc : c = '/' ∨ c = '*') :
    (t ++ r').head? = some c ↔ (t ++ r).head? = some c := by
  cases t with
  | cons d t => rfl
  | nil =>
    have hnot := not_comment_of_slash h
    obtain rfl | rfl := hc
    · exact ⟨hends.slash rfl, fun hr => absurd hr hnot.1⟩
    · refine ⟨fun hr' => ?_, fun hr => absurd hr hnot.2⟩
      obtain hhead | hgap := hends.head
      · exact hhead ▸ hr'
      · exact absurd (hgap '*' hr') (by decide)

theorem within_ends {c : Char} {t r r' : Text} {k : Kind} (hends : EndsAfter ⟨k, c :: t⟩ r r')
    (hstar : (c == '/' && (t ++ r').head? == some '*') = (c == '/' && (t ++ r).head? == some '*'))
    (h : within c (t ++ r) = ⟨⟨⟨k, c :: t⟩, none⟩, r⟩) : within c (t ++ r') = ⟨⟨⟨k, c :: t⟩, none⟩, r'⟩ := by
  rw [within] at h ⊢
  rw [hstar]
  split at h
  · rename_i hc
    rw [if_pos hc]
    obtain ⟨rfl, hcut⟩ := (Step.ofCut_eq_iff (by simp)).mp h
    obtain ⟨v, rfl, hbody⟩ : ∃ v, t = '*' :: v ∧ Literal.blockComment (v ++ r) = ⟨v, r, true⟩ := by
      obtain ⟨u, hu, hstar⟩ := Literal.cons_eq_mk hcut
      obtain ⟨v, rfl, hbody⟩ := Literal.cons_eq_mk hstar
      obtain ⟨-, rfl⟩ := List.cons.inj hu
      exact ⟨v, rfl, hbody⟩
    refine (Step.ofCut_eq_iff (by simp)).mpr ⟨rfl, ?_⟩
    rw [List.cons_append, List.drop_one, List.tail_cons, (Literal.blockComment_append hbody r').2]
    rfl
  rename_i hc
  rw [if_neg hc]
  split at h
  · rename_i hc
    rw [if_pos hc]
    exact Step.ofCut_cons_append (fun h => Literal.quoted_append h r') (by simp) h
  rename_i hc
  rw [if_neg hc]
  split at h
  · rename_i hc
    rw [if_pos hc]
    exact Step.ofCut_cons_append (fun h => Literal.quoted_append h r') (by simp) h
  rename_i hc
  rw [if_neg hc]
  split at h
  · rename_i form opening hopen
    obtain ⟨v, ht, rfl, hbody⟩ := special_ends hends.toEnds h
    have hopen' : Literal.stringForm? (c :: (t ++ r')) = some (form, opening) := by
      rw [← List.cons_append, ht, List.append_assoc]
      exact stringForm?_append hopen _
    rw [hopen']
    refine (Step.ofCut_eq_iff (by simp)).mpr ⟨rfl, ?_⟩
    rw [← List.cons_append, ht, List.append_assoc, List.drop_left, hbody]
  · have hform : Literal.stringForm? (c :: (t ++ r')) = none := by
      refine stringForm?_eq_none (fun hc => ?_)
      obtain ⟨d, u, rfl, hd⟩ := exists_name_of_bare hc h
      refine ⟨d, u ++ r', rfl, fun hmem => ?_⟩
      have hnone : ['@', '$', '"'].any Letters.startsName = false := by decide
      exact List.any_eq_false.mp hnone d hmem hd
    rw [hform]
    exact bare_ends hends h

theorem step_ends {ls ls' : Bool} {c : Char} {t r r' : Text} {k : Kind} (hends : EndsAfter ⟨k, c :: t⟩ r r')
    (hline : c = '#' → ls' = ls) (h : step ls c (t ++ r) = ⟨⟨⟨k, c :: t⟩, none⟩, r⟩) :
    step ls' c (t ++ r') = ⟨⟨⟨k, c :: t⟩, none⟩, r'⟩ := by
  have hhash : (c == '#' && ls') = (c == '#' && ls) := by
    by_cases hc : c = '#'
    · rw [hline hc]
    · rw [beq_false_of_ne hc, Bool.false_and, Bool.false_and]
  have hcomment : ∀ d, d = '/' ∨ d = '*' →
      (c == '/' && (t ++ r').head? == some d) = (c == '/' && (t ++ r).head? == some d) := by
    intro d hd
    by_cases hc : c = '/'
    · subst hc
      rw [Bool.eq_iff_iff]
      simpa using slash_ends hends h hd
    · rw [beq_false_of_ne hc, Bool.false_and, Bool.false_and]
  have halike : k ∈ lineKinds → r'.head? = r.head? := by
    intro hk
    have hall : ∀ k ∈ lineKinds, k.isTrivia = true ∧ k ≠ .blockComment := by decide
    exact (hends.alike (hall k hk).1).resolve_left (hall k hk).2
  rw [step_eq] at h ⊢
  rw [hhash, hcomment '/' (.inl rfl)]
  split at h
  · rename_i hc
    obtain ⟨-, rfl, rfl⟩ : t = [] ∧ k = .newline ∧ t = [] := by simpa [and_comm, eq_comm] using h
    rw [if_pos hc]
    rfl
  rename_i hc
  rw [if_neg hc]
  split at h
  · rename_i hc
    rw [if_pos hc]
    obtain rfl : .newline = k := congrArg (fun s => s.lexeme.kind) h
    have hhead := halike (by decide)
    exact Step.ofCut_cons_append (Literal.oneIf_alike hhead) (fun _ => Literal.closed_oneIf _) h
  rename_i hc
  rw [if_neg hc]
  split at h
  · rename_i hc
    rw [if_pos hc]
    obtain rfl : .whitespace = k := congrArg (fun s => s.lexeme.kind) h
    have hhead := halike (by decide)
    exact Step.ofCut_cons_append (span_alike hhead) (fun _ _ => rfl) h
  rename_i hc
  rw [if_neg hc]
  split at h
  · rename_i hc
    rw [if_pos hc]
    obtain rfl : .directive = k := congrArg (fun s => s.lexeme.kind) h
    have hhead := halike (by decide)
    exact Step.ofCut_cons_append (restOfLine_append hhead) (fun _ _ => rfl) h
  rename_i hc
  rw [if_neg hc]
  split at h
  · rename_i hc
    obtain ⟨hk, hcut⟩ := (Step.ofCut_eq_iff (fun _ => rfl)).mp h
    have hhead := halike (by rcases lineCommentKind_eq (c :: (t ++ r)) with hkind | hkind <;> rw [← hk, hkind] <;>
      decide)
    obtain ⟨u, hu, hspan⟩ := Literal.cons_eq_mk hcut
    obtain ⟨-, rfl⟩ := List.cons.inj hu
    have hr : r.head? ≠ some '/' := by
      intro hr
      exact absurd ((span_eq_iff.mp hspan).2.2 '/' hr) (by decide)
    rw [if_pos hc, ← List.cons_append, lineCommentKind_append (hhead ▸ hr)]
    rw [← List.cons_append, lineCommentKind_append hr] at h
    exact Step.ofCut_cons_append (restOfLine_append hhead) (fun _ _ => rfl) h
  rename_i hc
  rw [if_neg hc]
  exact within_ends hends (hcomment '*' (.inr rfl)) h

theorem step_local {ls ls' : Bool} {c : Char} {t r r' : Text} {k : Kind} (hnear : Near r r')
    (hline : c = '#' → ls' = ls) (h : step ls c (t ++ r) = ⟨⟨⟨k, c :: t⟩, none⟩, r⟩) :
    step ls' c (t ++ r') = ⟨⟨⟨k, c :: t⟩, none⟩, r'⟩ :=
  step_ends (hnear.endsAfter _) hline h

def openKinds : List Kind :=
  [.ident, .stringLiteral, .charLiteral, .intLiteral, .realLiteral]

theorem bare_kind {c : Char} {t r text : Text} {k : Kind} (h : bare c t = ⟨⟨⟨k, text⟩, none⟩, r⟩) :
    k ∈ openKinds ∨ Kind.reservedWord? text = some k ∨ Token.IsSign ⟨k, text⟩ := by
  rw [bare] at h
  split at h
  · obtain ⟨rfl, -⟩ := (Step.ofCut_eq_iff (fun _ => rfl)).mp h
    exact .inl (by decide)
  split at h
  · have hk : (Literal.number (c :: t)).1 = k := congrArg (fun s => s.lexeme.kind) h
    rcases kind_number (c :: t) with hkind | hkind
    · obtain rfl := hkind.symm.trans hk
      exact .inl (by decide)
    · obtain rfl := hkind.symm.trans hk
      exact .inl (by decide)
  · rcases plain_kind h with rfl | hword | hsign
    · exact .inl (by decide)
    · exact .inr (.inl hword)
    · exact .inr (.inr hsign)

theorem within_kind {c : Char} {t r text : Text} {k : Kind} (h : within c t = ⟨⟨⟨k, text⟩, none⟩, r⟩) :
    (k = .blockComment ∧ ∃ v, c :: t = '/' :: '*' :: (v ++ r) ∧ text = '/' :: '*' :: v ∧
        Literal.blockComment (v ++ r) = ⟨v, r, true⟩) ∨
      k ∈ openKinds ∨ Kind.reservedWord? text = some k ∨ Token.IsSign ⟨k, text⟩ := by
  rw [within] at h
  split at h
  · rename_i hc
    obtain ⟨rfl, hcut⟩ := (Step.ofCut_eq_iff (by simp)).mp h
    obtain ⟨u, rfl, hstar⟩ := Literal.cons_eq_mk hcut
    obtain ⟨v, rfl, hbody⟩ := Literal.cons_eq_mk hstar
    obtain ⟨rfl, hhead⟩ : c = '/' ∧ t.head? = some '*' := by simpa using hc
    obtain ⟨u, rfl⟩ := List.head?_eq_some_iff.mp hhead
    have hbody : Literal.blockComment u = ⟨v, r, true⟩ := hbody
    have hwhole : v ++ r = u := by simpa [Whole, hbody] using Literal.blockComment_whole u
    rw [← hwhole] at hbody
    exact .inl ⟨rfl, v, by rw [hwhole], rfl, hbody⟩
  split at h
  · obtain ⟨rfl, -⟩ := (Step.ofCut_eq_iff (by simp)).mp h
    exact .inr (.inl (by decide))
  split at h
  · obtain ⟨rfl, -⟩ := (Step.ofCut_eq_iff (by simp)).mp h
    exact .inr (.inl (by decide))
  split at h
  · obtain ⟨rfl, -⟩ := (Step.ofCut_eq_iff (by simp)).mp h
    exact .inr (.inl (by decide))
  · exact .inr (bare_kind h)

theorem step_cases {ls : Bool} {c : Char} {t r text : Text} {k : Kind} (h : step ls c t = ⟨⟨⟨k, text⟩, none⟩, r⟩) :
    (k = .newline ∧ Literal.isLineEnd c = true ∧ ∀ d ∈ text, Literal.isLineEnd d = true) ∨
      (k = .whitespace ∧ isInlineBlank c = true ∧ ∀ d ∈ text, isInlineBlank d = true) ∨
      ((k = .directive ∧ c = '#' ∧ ls = true ∨ (k = .lineComment ∨ k = .docComment) ∧ c = '/' ∧ t.head? = some '/') ∧
        ∀ d ∈ r.head?, Literal.isLineEnd d = true) ∨
      within c t = ⟨⟨⟨k, text⟩, none⟩, r⟩ := by
  have hrest : ∀ d, (!Literal.isLineEnd d) = false → Literal.isLineEnd d = true := by simp
  rw [step_eq] at h
  split at h
  · rename_i hc
    obtain rfl : c = '\n' := by simpa using hc
    obtain ⟨rfl, rfl⟩ : .newline = k ∧ ['\n'] = text :=
      ⟨congrArg (fun s => s.lexeme.kind) h, congrArg (fun s => s.lexeme.text) h⟩
    exact .inl ⟨rfl, rfl, by simp [Literal.isLineEnd]⟩
  split at h
  · rename_i hc
    obtain rfl : c = '\r' := by simpa using hc
    have hclosed : ((Literal.oneIf (· == '\n') t).cons '\r').closed = true := Literal.closed_oneIf _ _
    obtain ⟨rfl, hcut⟩ := (Step.ofCut_eq_iff (fun _ => hclosed)).mp h
    obtain ⟨u, rfl, hone⟩ := Literal.cons_eq_mk hcut
    refine .inl ⟨rfl, rfl, ?_⟩
    have hwhole : u ++ r = t := by simpa [Whole, hone] using Literal.oneIf_whole (· == '\n') t
    rw [← hwhole, Literal.oneIf_eq_iff] at hone
    obtain ⟨d, rfl, hd⟩ | ⟨rfl, -⟩ := hone
    · obtain rfl : d = '\n' := by simpa using hd
      simp [Literal.isLineEnd]
    · simp [Literal.isLineEnd]
  split at h
  · rename_i hc
    obtain ⟨rfl, hcut⟩ := (Step.ofCut_eq_iff (fun _ => rfl)).mp h
    obtain ⟨u, rfl, hspan⟩ := Literal.cons_eq_mk hcut
    refine .inr (.inl ⟨rfl, hc, fun d hd => ?_⟩)
    obtain rfl | hd := List.mem_cons.mp hd
    · exact hc
    · exact (span_eq_iff.mp hspan).2.1 d hd
  split at h
  · rename_i hc
    obtain ⟨rfl, rfl⟩ : c = '#' ∧ ls = true := by simpa using hc
    obtain ⟨rfl, hcut⟩ := (Step.ofCut_eq_iff (fun _ => rfl)).mp h
    obtain ⟨u, rfl, hspan⟩ := Literal.cons_eq_mk hcut
    exact .inr (.inr (.inl ⟨.inl ⟨rfl, rfl, rfl⟩, fun d hd => hrest d ((span_eq_iff.mp hspan).2.2 d hd)⟩))
  split at h
  · rename_i hc
    obtain ⟨rfl, hhead⟩ : c = '/' ∧ t.head? = some '/' := by simpa using hc
    obtain ⟨rfl, hcut⟩ := (Step.ofCut_eq_iff (fun _ => rfl)).mp h
    obtain ⟨u, rfl, hspan⟩ := Literal.cons_eq_mk hcut
    exact .inr (.inr (.inl
      ⟨.inr ⟨lineCommentKind_eq _, rfl, hhead⟩, fun d hd => hrest d ((span_eq_iff.mp hspan).2.2 d hd)⟩))
  · exact .inr (.inr (.inr h))

theorem step_kind {ls : Bool} {c : Char} {t r text : Text} {k : Kind} (h : step ls c t = ⟨⟨⟨k, text⟩, none⟩, r⟩) :
    k ∈ lineKinds ∨
      (k = .blockComment ∧ ∃ v, c :: t = '/' :: '*' :: (v ++ r) ∧ text = '/' :: '*' :: v ∧
        Literal.blockComment (v ++ r) = ⟨v, r, true⟩) ∨
      k ∈ openKinds ∨ Kind.reservedWord? text = some k ∨ Token.IsSign ⟨k, text⟩ := by
  obtain ⟨rfl, -⟩ | ⟨rfl, -⟩ | ⟨⟨rfl, -⟩ | ⟨rfl | rfl, -⟩, -⟩ | hwithin := step_cases h
  · exact .inl (by decide)
  · exact .inl (by decide)
  · exact .inl (by decide)
  · exact .inl (by decide)
  · exact .inl (by decide)
  · exact .inr (within_kind hwithin)

theorem step_trivia {ls : Bool} {c : Char} {t r text : Text} {k : Kind} (h : step ls c t = ⟨⟨⟨k, text⟩, none⟩, r⟩)
    (hk : k ∈ lineKinds) :
    (k = .newline ∧ Literal.isLineEnd c = true ∧ ∀ d ∈ text, Literal.isLineEnd d = true) ∨
      (k = .whitespace ∧ isInlineBlank c = true ∧ ∀ d ∈ text, isInlineBlank d = true) ∨
      ((k = .directive ∧ c = '#' ∧ ls = true ∨ (k = .lineComment ∨ k = .docComment) ∧ c = '/' ∧ t.head? = some '/') ∧
        ∀ d ∈ r.head?, Literal.isLineEnd d = true) := by
  obtain hend | hblank | hline | hwithin := step_cases h
  · exact .inl hend
  · exact .inr (.inl hblank)
  · exact .inr (.inr hline)
  -- What ends within a line has another kind.
  rcases within_kind hwithin with ⟨rfl, -⟩ | hopen | hword | ⟨s, hs, hkind, -⟩
  · exact absurd hk (by decide)
  · have hall : ∀ k ∈ openKinds, k ∉ lineKinds := by decide
    exact absurd hk (hall k hopen)
  · rw [Kind.reservedWord?, Option.map_eq_some_iff] at hword
    obtain ⟨w, hw, rfl⟩ := hword
    have hall : ∀ w ∈ Kind.reservedWords, w.2 ∉ lineKinds := by decide
    exact absurd hk (hall w (List.mem_of_find?_eq_some hw))
  · have hkind : s.2 = k := hkind
    have hall : ∀ s ∈ Kind.signs, s.2 ∉ lineKinds := by decide
    exact absurd hk (hkind ▸ hall s hs)

theorem isInlineBlank_of_step {ls : Bool} {c : Char} {t r text : Text} {k : Kind}
    (h : step ls c t = ⟨⟨⟨k, text⟩, none⟩, r⟩) (hk : k ≠ .whitespace) : isInlineBlank c = false := by
  cases hc : isInlineBlank c with
  | false => rfl
  | true =>
    have hnl : c ≠ '\n' ∧ c ≠ '\r' := by
      constructor
      · rintro rfl
        exact absurd hc (by decide)
      · rintro rfl
        exact absurd hc (by decide)
    rw [step, if_neg (by simpa using hnl.1), if_neg (by simpa using hnl.2), if_pos hc] at h
    exact absurd (congrArg (fun s => s.lexeme.kind) h).symm hk

theorem lineStart_of_hash {ls : Bool} {t r text : Text} {k : Kind} (h : step ls '#' t = ⟨⟨⟨k, text⟩, none⟩, r⟩) :
    ls = true ∧ k = .directive := by
  cases ls with
  | true => exact ⟨rfl, (congrArg (fun s => s.lexeme.kind) h).symm⟩
  | false =>
    have hform : Literal.stringForm? ('#' :: t) = none := stringForm?_eq_none (fun hc => absurd hc (by decide))
    rw [step_eq, if_neg (by decide), if_neg (by decide), if_neg (by decide), if_neg (by decide), if_neg (by simp),
      within, if_neg (by simp), if_neg (by decide), if_neg (by decide), hform] at h
    dsimp only at h
    rw [bare, if_neg (by simp), if_neg (by simp), plain, if_neg (by decide), sign?_eq_none (by decide)] at h
    simp at h

theorem ne_hash_of_step {ls : Bool} {c : Char} {t r text : Text} {k : Kind}
    (h : step ls c t = ⟨⟨⟨k, text⟩, none⟩, r⟩) (hk : k.isTrivia = false) : c ≠ '#' := by
  rintro rfl
  obtain ⟨-, rfl⟩ := lineStart_of_hash h
  cases hk

theorem step_comment {v r : Text} (h : Literal.blockComment (v ++ r) = ⟨v, r, true⟩) (ls : Bool) (r' : Text) :
    step ls '/' ('*' :: v ++ r') = ⟨⟨⟨.blockComment, '/' :: '*' :: v⟩, none⟩, r'⟩ := by
  have hbody := (Literal.blockComment_append h r').2
  have hstep : step ls '/' ('*' :: v ++ r') =
      .ofCut .blockComment (((Literal.blockComment (v ++ r')).cons '*').cons '/') (some .openComment) := rfl
  rw [hstep, hbody]
  rfl

theorem step_space (ls : Bool) {r : Text} (hr : ∀ c ∈ r.head?, isInlineBlank c = false) :
    step ls ' ' r = ⟨⟨⟨.whitespace, [' ']⟩, none⟩, r⟩ := by
  have hspan : Cut.span isInlineBlank r = ⟨[], r, true⟩ := span_eq_iff.mpr ⟨rfl, by simp, hr⟩
  have hstep : step ls ' ' r = .ofCut .whitespace ((Cut.span isInlineBlank r).cons ' ') := rfl
  rw [hstep, hspan]
  rfl

def isSmallWord (t : Text) : Bool :=
  t.head?.any (fun c => c.isLower && Letters.startsName c) && t.all Letters.continuesName

theorem step_word (ls : Bool) {c : Char} {t r : Text} (h : isSmallWord (c :: t) = true)
    (hr : ∀ d ∈ r.head?, Letters.continuesName d = false) :
    step ls c (t ++ r) = ⟨⟨⟨(Kind.reservedWord? (c :: t)).getD .ident, c :: t⟩, none⟩, r⟩ := by
  obtain ⟨⟨hlow, hstart⟩, -, hcont⟩ : (c.isLower = true ∧ Letters.startsName c = true) ∧
      Letters.continuesName c = true ∧ ∀ d ∈ t, Letters.continuesName d = true := by
    simpa [isSmallWord] using h
  have hne : ∀ d : Char, d.isLower = false → (c == d) = false := by
    intro d hd
    rw [beq_eq_false_iff_ne]
    rintro rfl
    rw [hlow] at hd
    simp at hd
  have hopen : c ∉ openers := by
    intro hmem
    have hall : openers.all (fun d => !d.isLower) = true := by decide
    have hnot := List.all_eq_true.mp hall c hmem
    rw [hlow] at hnot
    cases hnot
  have hdigit : c.isDigit = false := by
    change (decide (c.val ≥ 'a'.val) && decide (c.val ≤ 'z'.val)) = true at hlow
    simp only [Char.isDigit, ge_iff_le, Bool.and_eq_true, decide_eq_true_eq, Bool.and_eq_false_iff,
      decide_eq_false_iff_not, UInt32.le_iff_toNat_le] at hlow ⊢
    have hbig : '9'.val.toNat < 'a'.val.toNat := by decide
    omega
  have hspan : Cut.span Letters.continuesName (t ++ r) = ⟨t, r, true⟩ := span_eq_iff.mpr ⟨rfl, hcont, hr⟩
  rw [step_eq_bare hopen, bare, hne '@' rfl, hdigit, hne '.' rfl]
  simp only [Bool.false_and, Bool.or_false, Bool.false_eq_true, if_false]
  rw [plain, if_pos hstart, hspan]
  rfl

end Lexeme

end Lintel
