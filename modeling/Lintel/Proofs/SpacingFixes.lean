import Lintel.Fix.Engine
import Lintel.Proofs.Respacing
import Lintel.Proofs.Splicing

namespace Lintel

theorem Span.hull?_eq_some {a s : Span} {ss : List Span} (h : hull? (a :: ss) = some s)
    (hp : (a :: ss).Pairwise (fun x y => x.stop ≤ y.start)) :
    s.start = a.start ∧ (∃ z ∈ a :: ss, s.stop = z.stop) ∧ ∀ x ∈ a :: ss, s.start ≤ x.start ∧ x.stop ≤ s.stop := by
  obtain ⟨z, hz⟩ : ∃ z, (a :: ss).getLast? = some z := by simp [List.getLast?_cons]
  obtain ⟨init, hinit⟩ := List.getLast?_eq_some_iff.mp hz
  have hs : a.cover z = s := by simpa [hull?, hz] using h
  have hfirst : ∀ x ∈ a :: ss, a.start ≤ x.start := by
    intro x hx
    obtain rfl | hx := List.mem_cons.mp hx
    · exact Nat.le_refl _
    · exact a.start_le_stop.trans ((List.pairwise_cons.mp hp).1 x hx)
  have hlast : ∀ x ∈ a :: ss, x.stop ≤ z.stop := by
    intro x hx
    rw [hinit, List.mem_append] at hx
    rw [hinit, List.pairwise_append] at hp
    obtain hx | hx := hx
    · exact (hp.2.2 x hx z (by simp)).trans z.start_le_stop
    · rw [List.mem_singleton.mp hx]
  have hmem : z ∈ a :: ss := List.mem_of_getLast? hz
  have hstart : s.start = a.start := by
    rw [← hs, cover, start_between]
    exact Nat.min_eq_left (hfirst z hmem)
  have hstop : s.stop = z.stop := by
    have hle := hlast a (by simp)
    rw [← hs, cover, Nat.min_eq_left (hfirst z hmem), Nat.max_eq_right hle, stop_between]
    exact a.start_le_stop.trans hle
  refine ⟨hstart, ⟨z, hmem, hstop⟩, fun x hx => ⟨?_, ?_⟩⟩
  · rw [hstart]
    exact hfirst x hx
  · rw [hstop]
    exact hlast x hx

namespace KeywordSpacing

open Word Zipper

theorem mem_blanks {offset : Nat} {gap : List Cell} {b : Span × Kind} (h : b ∈ blanks offset gap) :
    offset ≤ b.1.start ∧ b.1.stop ≤ offset + Cell.extent gap := by
  induction gap generalizing offset with
  | nil => simp [blanks] at h
  | cons c gap ih =>
    have htail : b ∈ blanks (offset + c.text.size) gap →
        offset ≤ b.1.start ∧ b.1.stop ≤ offset + Cell.extent (c :: gap) := by
      intro hb
      have := ih hb
      rw [Cell.extent_cons]
      omega
    rw [blanks] at h
    split at h
    · obtain rfl | h := List.mem_cons.mp h
      · simp only [Span.stop, Cell.extent_cons]
        omega
      · exact htail h
    · exact htail h

theorem pairwise_blanks (offset : Nat) (gap : List Cell) :
    (blanks offset gap).Pairwise (fun x y => x.1.stop ≤ y.1.start) := by
  induction gap generalizing offset with
  | nil => exact .nil
  | cons c gap ih =>
    rw [blanks]
    split
    · exact .cons (fun b hb => (mem_blanks hb).1) (ih _)
    · exact ih _

theorem blanks_eq_cons {offset : Nat} {gap : List Cell} {b : Span × Kind} {bs : List (Span × Kind)}
    (h : blanks offset gap = b :: bs) : ∃ before c after, gap = before ++ c :: after ∧ c.isBlank = true ∧
      b = (⟨offset + Cell.extent before, c.text.size⟩, c.kind) ∧
      bs = blanks (offset + Cell.extent before + c.text.size) after := by
  induction gap generalizing offset with
  | nil => simp [blanks] at h
  | cons c gap ih =>
    rw [blanks] at h
    split at h
    · obtain ⟨rfl, rfl⟩ := List.cons.inj h
      exact ⟨[], c, gap, rfl, by assumption, by simp, by simp⟩
    · obtain ⟨before, d, after, rfl, hd, rfl, rfl⟩ := ih h
      exact ⟨c :: before, d, after, rfl, hd, by simp [Nat.add_assoc], by simp [Nat.add_assoc]⟩

theorem blankSpan?_eq_some {offset : Nat} {gap : List Cell} {s : Span} (h : blankSpan? offset gap = some s) :
    ∃ (before : List Cell) (c : Cell) (after : List Cell), gap = before ++ c :: after ∧ c.isBlank = true ∧
      s.start = offset + Cell.extent before ∧ s.start + c.text.size ≤ s.stop ∧ s.stop ≤ offset + Cell.extent gap ∧
      ∀ b ∈ blanks offset gap, s.start ≤ b.1.start ∧ b.1.stop ≤ s.stop := by
  have hp : ((blanks offset gap).map (·.1)).Pairwise (fun x y => x.stop ≤ y.start) :=
    List.pairwise_map.mpr (pairwise_blanks offset gap)
  rw [blankSpan?] at h
  cases hb : blanks offset gap with
  | nil => simp [hb, Span.hull?] at h
  | cons b bs =>
    obtain ⟨before, c, after, hgap, hc, hbc, -⟩ := blanks_eq_cons hb
    rw [hb, List.map_cons] at h hp
    obtain ⟨hstart, ⟨z, hz, hstop⟩, hall⟩ := Span.hull?_eq_some h hp
    rw [← List.map_cons (f := Prod.fst)] at hz hall
    obtain ⟨y, hy, rfl⟩ := List.mem_map.mp hz
    have hfirst := (hall b.1 (by simp)).2
    rw [hbc] at hstart hfirst
    refine ⟨before, c, after, hgap, hc, hstart, ?_, ?_, fun x hx => hall x.1 (List.mem_map_of_mem hx)⟩
    · rw [hstart]
      exact hfirst
    · rw [hstop]
      exact (mem_blanks (by rw [hb]; exact hy)).2

theorem isEmpty_blankSpan {offset : Nat} {gap : List Cell} {s : Span} (h : blankSpan? offset gap = some s)
    (hfull : ∀ c ∈ gap, 0 < c.text.size) : s.isEmpty = false := by
  obtain ⟨before, c, after, hgap, -, -, hstop, -⟩ := blankSpan?_eq_some h
  have hc := hfull c (by simp [hgap])
  simp only [Span.isEmpty, Span.stop, beq_eq_false_iff_ne] at hstop ⊢
  omega

theorem clearing_eq (offset : Nat) (gap : List Cell) :
    clearing offset gap = (blanks offset gap).map (fun b => .removing b.1 b.2) := by
  induction gap generalizing offset with
  | nil => rfl
  | cons c gap ih =>
    rw [clearing, blanks, ih]
    split <;> rfl

theorem foldl_removeToken (zs : List Zipper) (e : Edit) :
    zs.foldl Edit.removeToken e =
      ⟨e.finding, e.parts ++ zs.map (fun z => Part.removing z.span z.kind)⟩ := by
  induction zs generalizing e with
  | nil => simp
  | cons z zs ih =>
    rw [List.foldl_cons, ih]
    simp [Edit.removeToken, Edit.add, Part.removing]

theorem mem_kinds_of_ruling {w : Word} {ws : List Word} {r : Ruling} (h : ruling w ws = r) (hr : r ≠ .fine) :
    w.head.kind ∈ kinds := by
  by_contra hk
  simp [ruling, spacingOf?, hk] at h
  exact hr h.symm

theorem gap_of_ruling (w : Word) (ws : List Word) :
    match ruling w ws with
    | .fine => True
    | .pad => w.gap.any (·.isBlank) = false
    | .clear => w.gap.any (·.isBlank) = true ∧ w.gap.any (·.isBarrier) = false
    | .decline => w.gap.any (·.isBlank) = true ∧ w.gap.any (·.isBarrier) = true := by
  rw [ruling]
  cases w.gap.any (·.isBlank) <;> cases w.gap.any (·.isBarrier) <;> cases w.gap.isEmpty && ws.isEmpty <;>
    rcases spacingOf? w ws with _ | (_ | _) <;> simp

theorem isKeyword_of_mem_kinds {k : Kind} (h : k ∈ kinds) : k.isKeyword = true := by
  have hall : ∀ k ∈ kinds, k.isKeyword = true := by decide
  exact hall k h

def refusal (w : Word) : String :=
  if w.gap.any (·.isLineComment) then "a line comment follows the keyword"
  else "a preprocessor directive must stay on its own line"

section Leaf

variable {k : Kind} {ds : List Tree} (hfill : Tree.FilledAll ds) {ls gs qs : List Zipper} {z : Zipper} {w : Word}
  {ws : List Word} (h : leaves (.node k ds) = ls ++ z :: (gs ++ qs)) (hz : z.cell = w.head)
  (hgs : gs.map cell = w.gap) (hfull : ∀ c ∈ w.cells, 0 < c.text.size) (hkey : w.head.kind ∈ kinds)

include hfill h hz hgs hfull hkey

omit hgs in
theorem keywordOf?_stop :
    keywordOf? (.node k ds) ⟨Cell.extent (ls.map cell) + w.head.text.size, 0⟩ = some z := by
  have hspan := span_leaf hfill h
  have hleft : tokenLeftOf (.node k ds) z.span.stop = some z :=
    tokenLeftOf_leaf (by simp [h]) (hfull z.cell (by simp [hz, cells]))
  have hkind : z.kind.isKeyword = true := by
    rw [show z.kind = w.head.kind from congrArg (·.kind) hz]
    exact isKeyword_of_mem_kinds hkey
  rw [hspan, hz] at hleft
  rw [hz] at hspan
  simp only [Span.stop] at hleft
  simp [keywordOf?, Span.isEmpty, hleft, hspan, Span.stop, hkind]

theorem keywordOf?_blanks {s : Span}
    (hs : blankSpan? (Cell.extent (ls.map cell) + w.head.text.size) w.gap = some s) :
    keywordOf? (.node k ds) s = some z := by
  obtain ⟨before, c, after, hgap, -, hstart, -⟩ := blankSpan?_eq_some hs
  rw [hgap] at hgs
  obtain ⟨gs₁, rest, rfl, hgs₁, hrest⟩ := List.map_eq_append_iff.mp hgs
  obtain ⟨b, gs₂, rfl, hb, -⟩ := List.map_eq_cons_iff.mp hrest
  have hsplit : leaves (.node k ds) = (ls ++ z :: gs₁) ++ b :: (gs₂ ++ qs) := by simpa using h
  have hpos : 0 < b.cell.text.size := hfull b.cell (by simp [cells, hgap, hb])
  have hbstart : b.start = s.start := by
    have hspan := congrArg Span.start (span_leaf hfill hsplit)
    rw [hstart, ← hgs₁, ← hz]
    simpa [span, Nat.add_assoc] using hspan
  have hright : tokenRightOf (.node k ds) s.start = some b := by
    rw [← hbstart]
    exact tokenRightOf_leaf (by simp [h]) hpos
  have hempty : s.isEmpty = false := isEmpty_blankSpan hs (fun c hc => hfull c (List.mem_cons_of_mem _ hc))
  have hprev : b.prevSignificant? = some z := by
    have htrivia : ∀ g ∈ gs₁.reverse, g.isTrivia = true := by
      intro g hg
      have hg := List.mem_reverse.mp hg
      rw [← isTrivia_cell ((isToken_leaf h).2.1 g (by simp [hg]))]
      refine w.gap_trivia _ ?_
      rw [hgap, ← hgs₁]
      simp [List.mem_map_of_mem hg]
    have hnone : gs₁.reverse.find? (!·.isTrivia) = none := by simpa [List.find?_eq_none] using htrivia
    have hz' : z.isTrivia = false := by
      rw [← isTrivia_cell (isToken_leaf h).1, hz]
      exact w.head_significant
    rw [prevSignificant?, walkTo?_eq, ← preceding, preceding_leaf hfill hsplit, List.reverse_append, List.reverse_cons,
      List.append_assoc, List.find?_append, hnone]
    simp [hz']
  have hkind : z.kind.isKeyword = true := by
    rw [show z.kind = w.head.kind from congrArg (·.kind) hz]
    exact isKeyword_of_mem_kinds hkey
  simp [keywordOf?, hempty, hright, hprev, hkind]

theorem fix_pad (hqs : qs.map cell = flatten ws) (hblank : w.gap.any (·.isBlank) = false) {f : Finding}
    (hf : f.span = ⟨Cell.extent (ls.map cell) + w.head.text.size, 0⟩) :
    fix (.node k ds) f = .ok ⟨f, [.padding (Cell.extent (ls.map cell)) w.head]⟩ := by
  have hkeyword := keywordOf?_stop hfill h hz hfull hkey
  have hsize := Part.stop_leaf_le hfill h
  have hspan := span_leaf hfill h
  have hspaces : spaces (gap z) = [] := by
    rw [(gap_leaf hfill h hgs hqs).1, spaces_eq, List.filter_eq_nil_iff]
    rw [← hgs] at hblank
    simpa using hblank
  rw [hspan, hz] at hsize
  simp only [Span.stop] at hsize
  have hedit : Edit.insertAfter { finding := f } z [.token .whitespace [' ']] =
      ⟨f, [.padding (Cell.extent (ls.map cell)) w.head]⟩ := by
    rw [← hz]
    simp [Edit.insertAfter, Edit.add, Part.padding, hspan, Span.stop]
    rfl
  simp [fix, hf, Nat.not_lt.mpr hsize, hkeyword, hspaces, hedit, Span.isEmpty]

theorem fix_blanks (hqs : qs.map cell = flatten ws) {s : Span}
    (hs : blankSpan? (Cell.extent (ls.map cell) + w.head.text.size) w.gap = some s) {f : Finding} (hf : f.span = s) :
    fix (.node k ds) f =
      if w.gap.any (·.isBarrier) then .error (.notApplicable id (refusal w))
      else .ok ⟨f, clearing (Cell.extent (ls.map cell) + w.head.text.size) w.gap⟩ := by
  have hkeyword := keywordOf?_blanks hfill h hz hgs hfull hkey hs
  have hspan := spanOf?_leaf hfill h hz hgs hqs
  rw [hs] at hspan
  have hgap := (gap_leaf hfill h hgs hqs).1
  have hsize : s.start ≤ (Tree.node k ds).size := by
    obtain ⟨-, -, -, -, -, -, -, hstop, -⟩ := blankSpan?_eq_some hs
    have hle := s.start_le_stop
    rw [Tree.size_eq k, cells_leaf h, List.map_append, hz, hgs]
    simp only [Cell.extent_append, Cell.extent_cons]
    omega
  have hempty : s.isEmpty = false := isEmpty_blankSpan hs (fun c hc => hfull c (List.mem_cons_of_mem _ hc))
  have hparts : (spaces gs).map (fun g => Part.removing g.span g.kind) =
      clearing (Cell.extent (ls.map cell) + w.head.text.size) w.gap := by
    rw [clearing_eq, ← map_spaces_leaf hfill h hz hgs, List.map_map]
    rfl
  have hcomment : gs.any endsLine = w.gap.any (·.isLineComment) := by
    rw [← hgs, List.any_map]
    rfl
  have hdirective : gs.any (·.kind == .directive) = w.gap.any (·.kind == .directive) := by
    rw [← hgs, List.any_map]
    rfl
  have hbarrier : w.gap.any (·.isBarrier) = (w.gap.any (·.isLineComment) || w.gap.any (·.kind == .directive)) := by
    generalize w.gap = gap
    induction gap with
    | nil => rfl
    | cons c gap ih =>
      rw [List.any_cons, List.any_cons, List.any_cons, ih, Cell.isBarrier]
      ac_rfl
  rw [hgap] at hspan
  rw [hbarrier]
  simp only [fix, hf, Nat.not_lt.mpr hsize, hkeyword, hgap, hempty, hspan, hcomment, hdirective, refusal, refuse,
    foldl_removeToken, hparts]
  cases w.gap.any (·.isLineComment) <;> cases w.gap.any (·.kind == .directive) <;> simp

end Leaf

theorem fix_word {k : Kind} {bs : List Tree} {t : Tree} {pre : List Cell} {w : Word} {ws : List Word} {f : Finding}
    (h : Layout k bs t (pre ++ flatten (w :: ws))) (hf : finding? (Cell.extent pre) w ws = some f) :
    fix t f = if ruling w ws = .decline then .error (.notApplicable id (refusal w))
      else .ok ⟨f, partsAt (Cell.extent pre) w ws⟩ := by
  have hlayout : Layout k bs t (pre ++ w.head :: (w.gap ++ flatten ws)) := h
  obtain ⟨ds, ls, z, rs, rfl, hfill, hleaves, rfl, hz, hrs⟩ := hlayout.exists_leaf
  obtain ⟨gs, qs, rfl, hgs, hqs⟩ := List.map_eq_append_iff.mp hrs
  have hfull : ∀ c ∈ w.cells, 0 < c.text.size := by
    intro c hc
    apply h.full
    rw [flatten, List.flatMap_cons]
    simp [hc]
  have hgap := (gap_leaf hfill hleaves hgs hqs).1
  have hspan := spanOf?_leaf hfill hleaves hz hgs hqs
  have hsize := Part.stop_leaf_le hfill hleaves
  rw [span_leaf hfill hleaves, hz] at hsize
  simp only [Span.stop] at hsize
  have hgapOf := gap_of_ruling w ws
  rw [finding?] at hf
  rw [partsAt]
  cases hr : ruling w ws with
  | fine => simp [hr] at hf
  | pad =>
    have hkey : w.head.kind ∈ kinds := mem_kinds_of_ruling hr (by decide)
    rw [hr] at hf hgapOf
    obtain rfl := Option.some.inj hf
    exact fix_pad hfill hleaves hz hgs hfull hkey hqs hgapOf rfl
  | clear =>
    have hkey : w.head.kind ∈ kinds := mem_kinds_of_ruling hr (by decide)
    rw [hr] at hf hgapOf
    obtain ⟨s, hs, rfl⟩ := Option.map_eq_some_iff.mp hf
    rw [fix_blanks hfill hleaves hz hgs hfull hkey hqs hs rfl, hgapOf.2]
    rfl
  | decline =>
    have hkey : w.head.kind ∈ kinds := mem_kinds_of_ruling hr (by decide)
    rw [hr] at hf hgapOf
    obtain ⟨s, hs, rfl⟩ := Option.map_eq_some_iff.mp hf
    rw [fix_blanks hfill hleaves hz hgs hfull hkey hqs hs rfl, hgapOf.2]
    rfl

def editsFrom (offset : Nat) : List Word → List Edit
  | [] => []
  | w :: ws =>
    (if ruling w ws = .decline then [] else (finding? offset w ws).toList.map (fun f => ⟨f, partsAt offset w ws⟩)) ++
      editsFrom (offset + Cell.extent w.cells) ws

def skippedFrom (offset : Nat) : List Word → List Leftover
  | [] => []
  | w :: ws =>
    (if ruling w ws = .decline then (finding? offset w ws).toList.map (fun f => ⟨f, .notApplicable (refusal w)⟩)
      else []) ++ skippedFrom (offset + Cell.extent w.cells) ws

theorem rule_of_finding? {offset : Nat} {w : Word} {ws : List Word} {f : Finding} (h : finding? offset w ws = some f) :
    f.rule = id := by
  have hmem : f ∈ findings offset (w :: ws) := by simp [findings, h]
  obtain ⟨_, _, _, _, rfl⟩ := mem_findings hmem
  rfl

section Engine

variable {e : FixEngine} (hrules : e.registry.rules = [rule])

include hrules

theorem fixOf?_eq {f : Finding} (hf : f.rule = id) : e.fixOf? f = some fix := by
  rw [FixEngine.fixOf?, Registry.get?, hrules, hf]
  rfl

theorem editsFor_findings {k : Kind} {bs : List Tree} {source : Source} {pre : List Cell} {ws : List Word}
    (h : Layout k bs source.tree (pre ++ flatten ws)) :
    e.editsFor source (findings (Cell.extent pre) ws) =
      .ok (editsFrom (Cell.extent pre) ws, skippedFrom (Cell.extent pre) ws) := by
  induction ws generalizing pre with
  | nil => rfl
  | cons w ws ih =>
    have hsplit : Layout k bs source.tree ((pre ++ w.cells) ++ flatten ws) := by simpa [cells] using h
    have hrest := ih hsplit
    rw [Cell.extent_append] at hrest
    rw [findings, editsFrom, skippedFrom]
    cases hf : finding? (Cell.extent pre) w ws with
    | none => simpa using hrest
    | some f =>
      have hfix := fix_word h hf
      have hof := fixOf?_eq hrules (rule_of_finding? hf)
      by_cases hr : ruling w ws = .decline
      · rw [if_pos hr] at hfix
        simp [FixEngine.editsFor, hof, FixEngine.runFix, hfix, hrest, hr, bind, Except.bind, pure, Except.pure]
      · rw [if_neg hr] at hfix
        simp [FixEngine.editsFor, hof, FixEngine.runFix, hfix, hrest, hr, bind, Except.bind, pure, Except.pure]

end Engine

end KeywordSpacing

end Lintel
