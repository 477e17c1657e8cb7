import Lintel.Proofs.KeywordFollowers
import Lintel.Proofs.NodeContents
import Lintel.Proofs.Relexing

namespace Lintel

open Lexeme

namespace Token

def Known (t : Token) : Prop :=
  t.text ≠ [] ∧
    (t.isTrivia = true ∨ t.kind ∈ openKinds ∨ Kind.reservedWord? t.text = some t.kind ∨ t.IsSign)

theorem known_of_reads {ls : Bool} {ts : List Token} {r : Text} (h : Reads ls ts r) : ∀ t ∈ ts, t.Known := by
  induction ts generalizing ls with
  | nil => simp
  | cons t ts ih =>
    obtain ⟨c, u, hc, hstep, hts⟩ := h
    intro s hs
    obtain rfl | hs := List.mem_cons.mp hs
    · refine ⟨by simp [hc], ?_⟩
      rcases step_kind (k := s.kind) hstep with hk | ⟨hk, -⟩ | hk | hk | hk
      · have hall : ∀ k ∈ [Kind.newline, .whitespace, .directive, .lineComment, .docComment], k.isTrivia = true := by
          decide
        exact .inl (hall _ hk)
      · refine .inl ?_
        rw [isTrivia, hk]
        rfl
      · exact .inr (.inl hk)
      · exact .inr (.inr (.inl hk))
      · exact .inr (.inr (.inr hk))
    · exact ih hts s hs

namespace Known

theorem reserved_mem {t : Token} (h : Kind.reservedWord? t.text = some t.kind) :
    ∃ w ∈ Kind.reservedWords, w.1.toList = t.text ∧ w.2 = t.kind := by
  rw [Kind.reservedWord?, Option.map_eq_some_iff] at h
  obtain ⟨w, hw, hk⟩ := h
  exact ⟨w, List.mem_of_find?_eq_some hw, by simpa using List.find?_some hw, hk⟩

theorem not_contextual {t : Token} (h : t.Known) : t.kind ∉ Kind.contextualWords.map (·.2) := by
  intro hk
  rcases h.2 with ht | ht | ht | ht
  · have hall : ∀ k ∈ Kind.contextualWords.map (·.2), k.isTrivia = false := by decide
    rw [isTrivia, hall _ hk] at ht
    simp at ht
  · have hall : ∀ k ∈ openKinds, k ∉ Kind.contextualWords.map (·.2) := by decide
    exact hall _ ht hk
  · obtain ⟨w, hw, -, hkind⟩ := reserved_mem ht
    have hall : ∀ w ∈ Kind.reservedWords, w.2 ∉ Kind.contextualWords.map (·.2) := by decide
    exact hall w hw (hkind ▸ hk)
  · obtain ⟨s, hs, hkind, -⟩ := ht
    have hall : ∀ s ∈ Kind.signs, s.2 ∉ Kind.contextualWords.map (·.2) := by decide
    exact hall s hs (hkind ▸ hk)

theorem asRead_eq {t u : Token} (h : t.Known) (hs : t.Shows u) : u.asRead = t := by
  obtain ⟨k, text⟩ := t
  obtain ⟨htext, hk | ⟨hident, hk⟩⟩ := hs
  · rw [asRead, if_neg (by rw [hk]; exact h.not_contextual)]
    obtain ⟨k', text'⟩ := u
    obtain rfl : k' = k := hk
    obtain rfl : text' = text := htext
    rfl
  · rw [Kind.contextualWord?, Option.map_eq_some_iff] at hk
    obtain ⟨w, hw, hkind⟩ := hk
    rw [asRead, if_pos (List.mem_map.mpr ⟨w, List.mem_of_find?_eq_some hw, hkind⟩), htext]
    obtain rfl : k = .ident := hident
    rfl

theorem isSign {t : Token} (h : t.Known) (hsig : t.isTrivia = false) (hk : t.kind ∉ Grammar.wordKinds) : t.IsSign := by
  rcases h.2 with ht | ht | ht | ht
  · rw [ht] at hsig
    simp at hsig
  · have hall : ∀ k ∈ openKinds, k ∈ Grammar.wordKinds := by decide
    exact absurd (hall _ ht) hk
  · obtain ⟨w, hw, -, hkind⟩ := reserved_mem ht
    exact absurd (List.mem_append_left _ (List.mem_map.mpr ⟨w, hw, hkind⟩)) hk
  · exact ht

theorem spelling {t u : Token} (h : t.Known) (hs : t.Shows u) (hk : u.kind ∈ KeywordSpacing.kinds) :
    (Kind.spelling? u.kind).map (·.toList) = some u.text := by
  obtain ⟨htext, hkind | ⟨-, hword⟩⟩ := hs
  · rw [htext, hkind]
    rw [hkind] at hk
    rcases h.2 with ht | ht | ht | ht
    · exact absurd hk (KeywordSpacing.not_mem_kinds_of_isTrivia ht)
    · have hall : ∀ k ∈ openKinds, k ∉ KeywordSpacing.kinds := by decide
      exact absurd hk (hall _ ht)
    · obtain ⟨w, hw, hspell, hkind⟩ := reserved_mem ht
      have hall : ∀ w ∈ Kind.reservedWords, Kind.spelling? w.2 = some w.1 := by decide
      rw [← hkind, hall w hw, ← hspell]
      rfl
    · obtain ⟨s, hs, hkind, -⟩ := ht
      have hall : ∀ s ∈ Kind.signs, s.2 ∉ KeywordSpacing.kinds := by decide
      exact absurd hk (hkind ▸ hall s hs)
  · rw [Kind.contextualWord?, Option.map_eq_some_iff] at hword
    obtain ⟨w, hw, hkind⟩ := hword
    have hspell : w.1.toList = t.text := by simpa using List.find?_some hw
    have hall : ∀ w ∈ Kind.contextualWords, Kind.spelling? w.2 = some w.1 := by decide
    rw [← hkind, hall w (List.mem_of_find?_eq_some hw), htext, ← hspell]
    rfl

end Known

end Token

theorem Token.map_asRead_of_shows {ts us : List Token} (h : List.Forall₂ Shows ts us) (hknown : ∀ t ∈ ts, t.Known) :
    us.map asRead = ts := by
  induction h with
  | nil => rfl
  | cons hs _ ih =>
    rw [List.map_cons, (hknown _ (by simp)).asRead_eq hs, ih (fun t ht => hknown t (by simp [ht]))]

theorem Token.spelling_of_shows {ts us : List Token} (h : List.Forall₂ Shows ts us) (hknown : ∀ t ∈ ts, t.Known) :
    ∀ u ∈ us, u.kind ∈ KeywordSpacing.kinds → (Kind.spelling? u.kind).map (·.toList) = some u.text := by
  induction h with
  | nil => simp
  | cons hs _ ih =>
    intro u hu hk
    obtain rfl | hu := List.mem_cons.mp hu
    · exact (hknown _ (by simp)).spelling hs hk
    · exact ih (fun t ht => hknown t (by simp [ht])) u hu hk

theorem lexFaults_eq_nil {start : Nat} {ls : List Lexeme} :
    Parse.lexFaults.go start ls = [] ↔ ∀ l ∈ ls, l.fault = none := by
  induction ls generalizing start with
  | nil => simp [Parse.lexFaults.go]
  | cons l ls ih => cases hf : l.fault <;> simp [Parse.lexFaults.go, hf, ih]

theorem eq_map_of_lexFaults {ls : List Lexeme} (h : Parse.lexFaults ls = []) :
    ls = (ls.map (·.toToken)).map (Lexeme.mk · none) := by
  rw [List.map_map]
  conv_lhs => rw [← List.map_id ls]
  refine List.map_congr_left fun l hl => ?_
  obtain ⟨token, fault⟩ := l
  obtain rfl : fault = none := lexFaults_eq_nil.mp h _ hl
  rfl

section Faultless

variable {t : Text} (h : (parse t).faults = [])

include h

theorem lex_of_faultless : lex t = ((lex t).map (·.toToken)).map (Lexeme.mk · none) :=
  eq_map_of_lexFaults (List.append_eq_nil_iff.mp h).1

theorem outline_of_faultless : (Grammar.outline (itemsOf t)).2 = [] :=
  List.map_eq_nil_iff.mp (List.append_eq_nil_iff.mp h).2

theorem known_of_faultless : ∀ u ∈ (lex t).map (·.toToken), u.Known :=
  Token.known_of_reads (lexFrom_eq_iff.mp (lex_of_faultless h)).2

theorem read_cells_parse : Cell.read ((parse t).tree.cells .compilationUnit) = (lex t).map (·.toToken) := by
  rw [← Token.map_asRead_of_shows (shows_tokens_parse t) (known_of_faultless h),
    ← Tree.map_toToken_cells .compilationUnit, List.map_map]
  rfl

theorem spelling_cells_parse : ∀ c ∈ (parse t).tree.cells .compilationUnit, c.kind ∈ KeywordSpacing.kinds →
    (Kind.spelling? c.kind).map (·.toList) = some c.text := by
  intro c hc hk
  have hmem : c.toToken ∈ (parse t).tree.tokens := by
    rw [← Tree.map_toToken_cells .compilationUnit]
    exact List.mem_map_of_mem hc
  exact Token.spelling_of_shows (shows_tokens_parse t) (known_of_faultless h) _ hmem hk

end Faultless

theorem Tree.FilledAll.append {ts us : List Tree} (ht : FilledAll ts) (hu : FilledAll us) : FilledAll (ts ++ us) := by
  induction ts with
  | nil => exact hu
  | cons t ts ih => exact ⟨ht.1, ih ht.2⟩

namespace Outline

mutual

theorem tokensAll_bare : (o : Outline) → Tree.tokensAll (bare o) = o.tokens
  | .token t => rfl
  | .gap => rfl
  | .node k cs => by
    rw [bare, tokens, ← tokensAll_bareAll cs]
    simp [Tree.tokensAll, Tree.tokens]

theorem tokensAll_bareAll : (os : List Outline) → Tree.tokensAll (bareAll os) = tokensAll os
  | [] => rfl
  | o :: os => by rw [bareAll, Tree.tokensAll_append, tokensAll_bare o, tokensAll_bareAll os, tokensAll]

end

mutual

theorem filledAll_bare : (o : Outline) → o.Every (fun _ cs => tokensAll cs ≠ []) → Tree.FilledAll (bare o)
  | .token t, _ => ⟨trivial, trivial⟩
  | .gap, _ => trivial
  | .node k cs, h => ⟨⟨by rw [tokensAll_bareAll]; exact h.1, filledAll_bareAll cs h.2⟩, trivial⟩

theorem filledAll_bareAll : (os : List Outline) → EveryAll (fun _ cs => tokensAll cs ≠ []) os →
    Tree.FilledAll (bareAll os)
  | [], _ => trivial
  | o :: os, h => (filledAll_bare o h.1).append (filledAll_bareAll os h.2)

end

end Outline

namespace Cell

def DefaultsOpen (cs : List Cell) : Prop :=
  ∀ (pre : List Cell) (c : Cell) (suf : List Cell), cs = pre ++ c :: suf → c.kind = .defaultKw →
    c.owner = .defaultExpr → suf.head?.map (·.kind) = some .lParen

theorem DefaultsOpen.append {cs ds : List Cell} (hc : DefaultsOpen cs) (hd : DefaultsOpen ds) :
    DefaultsOpen (cs ++ ds) := by
  intro pre c suf h hk ho
  rw [List.append_eq_append_iff] at h
  obtain ⟨ms, rfl, hms⟩ | ⟨ms, rfl, hms⟩ := h
  · exact hd ms c suf hms hk ho
  · cases ms with
    | nil => exact hd [] c suf hms.symm hk ho
    | cons m ms =>
      obtain ⟨rfl, rfl⟩ := List.cons.inj hms
      have hnext := hc pre c ms rfl hk ho
      cases ms with
      | nil => simp at hnext
      | cons n ms => exact hnext

end Cell

namespace Outline

theorem defaultsOpen_of_opened {cs : List Cell} {os : List Outline} {k : Kind} (h : Grammar.Opened k os)
    (hos : cs.map (·.toToken) = tokensAll os) (hk : k = .defaultExpr) : Cell.DefaultsOpen cs := by
  obtain ⟨d, p, rest, hts, hp, hrest⟩ := h hk
  rw [← hos] at hts
  obtain ⟨d, cs, rfl, rfl, htail⟩ := List.map_eq_cons_iff.mp hts
  obtain ⟨p, cs, rfl, rfl, rfl⟩ := List.map_eq_cons_iff.mp htail
  intro pre c suf hsplit hc ho
  cases pre with
  | nil =>
    obtain ⟨rfl, rfl⟩ := List.cons.inj hsplit
    simp [hp]
  | cons a pre =>
    -- The keyword stands first and nowhere else.
    have hmem : c ∈ p :: cs := by
      rw [(List.cons.inj hsplit).2]
      simp
    obtain rfl | hmem := List.mem_cons.mp hmem
    · rw [hp] at hc
      cases hc
    · exact absurd hc (hrest _ (List.mem_map_of_mem hmem))

mutual

theorem defaultsOpen_bare {owner : Kind} (howner : owner ≠ .defaultExpr) : (o : Outline) → o.Every Grammar.Opened →
    Cell.DefaultsOpen (Tree.cellsAll owner (bare o))
  | .token t, _ => by
    intro pre c suf h _ ho
    have hc : c ∈ Tree.cellsAll owner (bare (.token t)) := by simp [h]
    obtain rfl : c = ⟨t, owner⟩ := by simpa [bare, Tree.cellsAll, Tree.leaf, Tree.cells] using hc
    exact absurd ho howner
  | .gap, _ => by
    intro pre c suf h
    simp [bare, Tree.cellsAll] at h
  | .node k cs, h => by
    have hcells : Tree.cellsAll owner (bare (.node k cs)) = Tree.cellsAll k (bareAll cs) := by
      simp [bare, Tree.cellsAll, Tree.cells]
    rw [hcells]
    by_cases hk : k = .defaultExpr
    · refine defaultsOpen_of_opened h.1 ?_ hk
      rw [Tree.map_toToken_cellsAll, tokensAll_bareAll]
    · exact defaultsOpen_bareAll hk cs h.2

theorem defaultsOpen_bareAll {owner : Kind} (howner : owner ≠ .defaultExpr) : (os : List Outline) →
    EveryAll Grammar.Opened os → Cell.DefaultsOpen (Tree.cellsAll owner (bareAll os))
  | [], _ => by
    intro pre c suf h
    simp [bareAll, Tree.cellsAll] at h
  | o :: os, h => by
    rw [bareAll, Tree.cellsAll_append]
    exact (defaultsOpen_bare howner o h.1).append (defaultsOpen_bareAll howner os h.2)

end

end Outline

namespace KeywordSpacing

open Word Cell

theorem cases_of_disallowed {k owner : Kind} {next : Option Kind}
    (h : spacing? k (some owner) next = some .disallowed) :
    k ∈ Grammar.callKinds ∨ k = .defaultKw ∧ owner = .defaultExpr ∨ next = some .semicolon ∨ next = some .lParen := by
  unfold spacing? at h
  split at h <;> simp_all [Grammar.callKinds]

theorem map_head_flatten (ws : List Word) : (flatten ws).filter (!·.isTrivia) = ws.map (·.head) := by
  induction ws with
  | nil => rfl
  | cons w ws ih =>
    have hgap : w.gap.filter (!·.isTrivia) = [] := by simpa using w.gap_trivia
    rw [flatten_cons, List.filter_cons_of_pos (by simp [w.head_significant]), List.filter_append, hgap, ih]
    rfl

theorem signed_of_split {ws : List Word} (h : ∀ pre w n post, ws = pre ++ w :: n :: post →
    ruling w (n :: post) = .clear → n.head.toToken.IsSign) : Signed ws := by
  induction ws with
  | nil => trivial
  | cons w ws ih =>
    constructor
    · intro hr n hn
      obtain ⟨post, rfl⟩ := List.head?_eq_some_iff.mp hn
      exact h [] w n post rfl hr
    · exact ih (fun pre v n post hsplit => h (w :: pre) v n post (by rw [hsplit]; rfl))

theorem spacing_of_clear {w n : Word} {ws : List Word} (h : ruling w (n :: ws) = .clear) :
    spacing? w.head.kind (some w.head.owner) (some n.head.kind) = some .disallowed := by
  have hk := mem_kinds_of_ruling h (by decide)
  rw [ruling, spacingOf?, if_pos hk] at h
  simp only [List.head?_cons, Option.map_some] at h
  split at h
  · cases h
  · split at h <;> cases h
  · assumption

theorem isSign_of_asRead {u : Token} (h : u.asRead.Known) (hsig : u.isTrivia = false)
    (hk : u.asRead.kind ∉ Grammar.wordKinds) : u.IsSign := by
  have hsame : u.asRead = u := by
    rw [Token.asRead] at hk ⊢
    split
    · rename_i hword
      rw [if_pos hword] at hk
      exact absurd (show Kind.ident ∈ Grammar.wordKinds by decide) hk
    · rfl
  rw [hsame] at h hk
  exact h.isSign hsig hk

section Faultless

variable {t : Text} (h : (parse t).faults = [])

include h

theorem layout_parse : Layout .compilationUnit (Outline.bareAll (Grammar.outline (itemsOf t)).1) (parse t).tree
    ((parse t).tree.cells .compilationUnit) where
  filled := Outline.filledAll_bareAll _ (Grammar.filled_outline (outline_of_faultless h))
  erase := erase_parse t
  cells _ := rfl
  full c hc := by
    have hmem : c.toToken.asRead ∈ (lex t).map (·.toToken) := by
      rw [← read_cells_parse h]
      exact List.mem_map_of_mem hc
    have hne := (known_of_faultless h _ hmem).1
    rw [Token.text_asRead] at hne
    obtain ⟨a, u, hu⟩ := List.exists_cons_of_ne_nil hne
    have hpos := a.utf8Size_pos
    rw [hu, Text.size_cons]
    omega

variable {lead : List Cell} {ws : List Word} (hlead : ∀ c ∈ lead, c.isTrivia = true)
  (hcells : (parse t).tree.cells .compilationUnit = lead ++ flatten ws)

include hcells

theorem spelled_of_faultless : Spelled ws := by
  intro w hw hk
  refine spelling_cells_parse h w.head ?_ hk
  rw [hcells]
  exact List.mem_append_right _ (List.mem_flatMap.mpr ⟨w, hw, by simp [Word.cells]⟩)

include hlead

omit h in
theorem heads_eq : ws.map (·.head) =
    Tree.cellsAll .compilationUnit (Outline.bareAll (Grammar.outline (itemsOf t)).1) := by
  have hbare : Tree.cells .compilationUnit (parse t).tree.erase =
      Tree.cellsAll .compilationUnit (Outline.bareAll (Grammar.outline (itemsOf t)).1) := by
    rw [erase_parse]
    rfl
  rw [← hbare, Tree.cells_erase _ _ rfl, hcells, List.filter_append, map_head_flatten]
  have hnone : lead.filter (!·.isTrivia) = [] := by simpa using hlead
  rw [hnone, List.nil_append]

theorem map_asRead_heads : ws.map (·.head.toToken.asRead) = (itemsOf t).map (·.toToken) := by
  have hknown : ∀ u ∈ (itemsOf t).map (·.toToken), u.Known := by
    intro u hu
    apply known_of_faultless h
    rw [itemsOf, Group.map_toToken_items] at hu
    obtain ⟨g, hg, rfl⟩ := List.mem_map.mp hu
    rw [← Group.flatten_split ((lex t).map (·.toToken))]
    exact List.mem_append_left _ (List.mem_flatMap.mpr ⟨g, hg, by simp⟩)
  rw [← Token.map_asRead_of_shows (Grammar.shows_outline (itemsOf t)) hknown, ← Outline.tokensAll_bareAll,
    ← Tree.map_toToken_cellsAll .compilationUnit, ← heads_eq hlead hcells, List.map_map, List.map_map]
  rfl

theorem signed_of_faultless : Signed ws := by
  refine signed_of_split fun pre w n post hsplit hr => ?_
  have hnext : n.head.toToken.asRead.Known := by
    apply known_of_faultless h
    rw [← read_cells_parse h, hcells, hsplit]
    refine List.mem_map_of_mem (List.mem_append_right _ (List.mem_flatMap.mpr ⟨n, by simp, by simp [Word.cells]⟩))
  have hkind : n.head.kind = .semicolon ∨ n.head.kind = .lParen → n.head.toToken.IsSign := by
    intro hn
    refine isSign_of_asRead hnext n.head_significant ?_
    have hplain : n.head.toToken.asRead = n.head.toToken := by
      rw [Token.asRead, if_neg]
      obtain hn | hn := hn
      · rw [hn]
        decide
      · rw [hn]
        decide
    rw [hplain]
    obtain hn | hn := hn
    · rw [hn]
      decide
    · rw [hn]
      decide
  have hheads := heads_eq hlead hcells
  rcases cases_of_disallowed (spacing_of_clear hr) with hk | ⟨hk, ho⟩ | hk | hk
  · have hlast : (Outline.tokensAll (Grammar.outline (itemsOf t)).1)[pre.length]? = some w.head.toToken := by
      rw [← Outline.tokensAll_bareAll, ← Tree.map_toToken_cellsAll .compilationUnit, ← hheads, hsplit]
      simp
    have hitem : (itemsOf t)[pre.length + 1]?.map (·.toToken) = some n.head.toToken.asRead := by
      rw [← List.getElem?_map, ← map_asRead_heads h hlead hcells, hsplit]
      simp
    have hword := Grammar.not_mem_wordKinds_of_outline (outline_of_faultless h) hlast hk
    obtain ⟨i, hi, htoken⟩ := Option.map_eq_some_iff.mp hitem
    refine isSign_of_asRead hnext n.head_significant ?_
    rw [← htoken]
    simpa [Grammar.View.kindAt, hi] using hword
  · have hopen := Outline.defaultsOpen_bareAll (show Kind.compilationUnit ≠ .defaultExpr by decide) _
      (Grammar.opened_outline (outline_of_faultless h))
    rw [← hheads, hsplit, List.map_append, List.map_cons, List.map_cons] at hopen
    have hparen := hopen _ _ _ rfl hk ho
    exact hkind (.inr (by simpa using hparen))
  · exact hkind (.inl (Option.some.inj hk))
  · exact hkind (.inr (Option.some.inj hk))

/-- The text with its words respaced has the same structure, and no faults either. -/
theorem parse_respaceAll :
    (parse (Token.textOf (read (lead ++ flatten (respaceAll ws))))).tree.erase = (parse t).tree.erase ∧
      (parse (Token.textOf (read (lead ++ flatten (respaceAll ws))))).faults = [] := by
  have hread := read_cells_parse h
  rw [hcells] at hread
  have hold : lex t = (read (lead ++ flatten ws)).map (Lexeme.mk · none) := by
    rw [hread]
    exact lex_of_faultless h
  have hnew := lex_respaceAll (spelled_of_faultless h hcells) (signed_of_faultless h hlead hcells) hold
  generalize Token.textOf (read (lead ++ flatten (respaceAll ws))) = u at hnew
  have htokens : (lex u).map (·.toToken) = read (lead ++ flatten (respaceAll ws)) := by
    rw [hnew, List.map_map]
    exact List.map_id _
  have hitems : itemsOf u = itemsOf t := by
    rw [itemsOf, itemsOf, htokens, ← hread, read_append, read_append, Group.items_split_append (isTrivia_read hlead),
      Group.items_split_append (isTrivia_read hlead), items_respaceAll]
  refine ⟨by rw [erase_parse, erase_parse, hitems], List.append_eq_nil_iff.mpr ⟨?_, ?_⟩⟩
  · refine lexFaults_eq_nil.mpr fun l hl => ?_
    rw [hnew] at hl
    obtain ⟨token, -, rfl⟩ := List.mem_map.mp hl
    rfl
  · refine List.map_eq_nil_iff.mpr ?_
    rw [← itemsOf, hitems]
    exact outline_of_faultless h

end Faultless

end KeywordSpacing

end Lintel
