import Lintel.Proofs.FixedWords
import Lintel.Proofs.SettledRuns

namespace Lintel

theorem Span.meets_of_common {a b : Span} {x y : Nat} (hxy : x < y) (ha : a.start ≤ x ∧ y ≤ a.stop)
    (hb : b.start ≤ x ∧ y ≤ b.stop) : a.meets b = true := by
  rw [stop] at ha hb
  have hempty : (a.isEmpty || b.isEmpty) = false := by
    simp only [isEmpty, Bool.or_eq_false_iff, beq_eq_false_iff_ne, ne_eq]
    omega
  rw [meets, hempty, if_neg (by decide), stop, stop]
  exact decide_eq_true (by omega)

theorem Word.length_of_flatten {ws vs : List Word} (h : flatten ws = flatten vs) : ws.length = vs.length := by
  have hheads := congrArg (List.filter (!·.isTrivia)) h
  rw [KeywordSpacing.map_head_flatten, KeywordSpacing.map_head_flatten] at hheads
  simpa using congrArg List.length hheads

namespace KeywordSpacing

open Word

theorem editsFrom_eq_nil {offset : Nat} {ws : List Word}
    (h : ∀ pre w post, ws = pre ++ w :: post → ruling w post = .fine ∨ ruling w post = .decline) :
    editsFrom offset ws = [] := by
  induction ws generalizing offset with
  | nil => rfl
  | cons w ws ih =>
    rw [editsFrom, ih fun pre v post hws => h (w :: pre) v post (by rw [hws]; rfl), List.append_nil]
    obtain hr | hr := h [] w ws rfl
    · rw [if_neg (by rw [hr]; decide), finding?, hr]
      rfl
    · exact if_pos hr

theorem exists_word_of_findings {offset : Nat} {ws : List Word} {f : Finding} (hf : f ∈ findings offset ws) :
    ∃ pre w post, ws = pre ++ w :: post ∧ finding? (offset + Cell.extent (flatten pre)) w post = some f := by
  induction ws generalizing offset with
  | nil => cases hf
  | cons w ws ih =>
    rw [findings, List.mem_append, Option.mem_toList] at hf
    obtain hf | hf := hf
    · exact ⟨[], w, ws, rfl, hf⟩
    · obtain ⟨pre, v, post, rfl, hv⟩ := ih hf
      refine ⟨w :: pre, v, post, rfl, ?_⟩
      rw [← hv, show flatten (w :: pre) = w.cells ++ flatten pre from rfl, Cell.extent_append, Nat.add_assoc]

theorem exists_word_of_editsFrom {offset : Nat} {ws : List Word} {e : Edit} (he : e ∈ editsFrom offset ws) :
    ∃ pre w post, ws = pre ++ w :: post ∧ (ruling w post = .pad ∨ ruling w post = .clear) ∧
      finding? (offset + Cell.extent (flatten pre)) w post = some e.finding := by
  induction ws generalizing offset with
  | nil => cases he
  | cons w ws ih =>
    obtain ⟨hr, hf⟩ | he := mem_editsFrom_cons he
    · exact ⟨[], w, ws, rfl, hr, hf⟩
    · obtain ⟨pre, v, post, rfl, hr, hv⟩ := ih he
      refine ⟨w :: pre, v, post, rfl, hr, ?_⟩
      rw [← hv, show flatten (w :: pre) = w.cells ++ flatten pre from rfl, Cell.extent_append, Nat.add_assoc]

theorem not_meets_gap {offset : Nat} {ws pre post : List Word} {w : Word} (hws : ws = pre ++ w :: post)
    (hfull : ∀ c ∈ flatten ws, 0 < c.text.size) (hfine : ruling w post = .fine) {f : Finding}
    (hf : f ∈ findings offset ws)
    {s : Span} (hstart : offset + Cell.extent (flatten pre) + w.head.text.size ≤ s.start)
    (hstop : s.stop ≤ offset + Cell.extent (flatten pre) + Cell.extent w.cells) : f.span.meets s = false := by
  obtain ⟨pre', v, post', hws', hfound⟩ := exists_word_of_findings hf
  obtain ⟨hfirst, hlast, -⟩ := span_of_finding? hfound
  have hextent (u : Word) (us vs : List Word) : Cell.extent (flatten (us ++ u :: vs)) =
      Cell.extent (flatten us) + Cell.extent u.cells + Cell.extent (flatten vs) := by
    rw [flatten, List.flatMap_append, Cell.extent_append, List.flatMap_cons, Cell.extent_append, Nat.add_assoc]
    rfl
  have hhead (u : Word) (us vs : List Word) (heq : ws = us ++ u :: vs) : 0 < u.head.text.size := by
    refine hfull u.head ?_
    rw [heq, flatten, List.flatMap_append, List.flatMap_cons]
    simp [Word.cells]
  obtain ⟨us, hus, hrest⟩ | ⟨us, hus, hrest⟩ := List.append_eq_append_iff.mp (hws.symm.trans hws')
  · cases us with
    | nil =>
      obtain ⟨rfl, rfl⟩ := List.cons.inj hrest
      rw [finding?, hfine] at hfound
      cases hfound
    | cons u us =>
      obtain ⟨rfl, -⟩ := List.cons.inj hrest
      have hpos := hhead v pre' post' hws'
      rw [hus, hextent] at hfirst
      exact (Span.not_meets_of_lt (by omega)).2
  · cases us with
    | nil =>
      obtain ⟨rfl, rfl⟩ := List.cons.inj hrest
      rw [finding?, hfine] at hfound
      cases hfound
    | cons u us =>
      obtain ⟨rfl, -⟩ := List.cons.inj hrest
      have hpos := hhead w pre post hws
      rw [hus, hextent] at hstart
      exact (Span.not_meets_of_lt (by omega)).1

end KeywordSpacing

theorem Dispatch.mem_found_parens {d : Dispatch} (hrules : d.registry.rules = builtinRules)
    (honly : d.only.all (·.contains Parentheses.id) = true) {source : Source} {z : Zipper} {f : Finding}
    (hf : f ∈ Parentheses.findingsAt z) : f ∈ d.found source z := by
  obtain ⟨hf, haux⟩ := List.mem_filter.mp hf
  have hkind := (Parentheses.of_check hf (by simpa using haux)).2.2.2
  refine List.mem_flatMap.mpr ⟨Parentheses.rule, List.mem_filter.mpr ⟨?_, honly⟩, hf⟩
  rw [Registry.rulesFor, hrules, hkind]
  exact List.mem_flatMap.mpr ⟨Parentheses.rule, by simp [builtinRules], List.mem_singleton.mpr rfl⟩

theorem Consistency.residuals_ne_nil {c : Consistency} (htotal : ∀ r ∈ c.registry.rules, r.Total) {r : Revision}
    {issues : List Issue} (h : c.residuals r = .ok issues) : issues ≠ [] ↔ ∃ fixed ∈ r.applied,
      ∃ z ∈ (Zipper.ofRoot r.source.tree).preorder,
      ∃ f ∈ ({ registry := c.registry, only := some (r.applied.map (·.rule)) } : Dispatch).found r.source z,
        f.auxiliary = false ∧ f.rule = fixed.rule ∧ f.span.meets (r.offsets.mapSpan fixed.span) = true := by
  rw [residuals] at h
  split at h
  · rename_i hempty
    have hnone : r.applied = [] := by simpa using hempty
    obtain rfl : [] = issues := Except.ok.inj h
    simp [hnone]
  · obtain ⟨found, hfound, hissues⟩ := bind_eq_ok_iff.mp h
    have hcollected := Dispatch.collectPrimary_total
      (d := { registry := c.registry, only := some (r.applied.map (·.rule)) }) htotal hfound
    rw [← Except.ok.inj hissues, ne_eq, List.filterMap_eq_nil_iff]
    simp only [not_forall, Option.map_eq_none_iff, List.find?_eq_none, hcollected, List.mem_filter, List.mem_flatMap]
    constructor
    · rintro ⟨fixed, hfixed, f, ⟨⟨z, hz, hf⟩, haux⟩, hmeets⟩
      rw [not_not, Bool.and_eq_true, beq_iff_eq] at hmeets
      exact ⟨fixed, hfixed, z, hz, f, hf, by simpa using haux, hmeets.1, hmeets.2⟩
    · rintro ⟨fixed, hfixed, z, hz, f, hf, haux, hrule, hmeets⟩
      refine ⟨fixed, hfixed, f, ⟨⟨z, hz, hf⟩, by simpa using haux⟩, ?_⟩
      rw [not_not, Bool.and_eq_true, beq_iff_eq]
      exact ⟨hrule, hmeets⟩

namespace FixEngine

variable {e : FixEngine} {source : Source}

theorem isChanged_of_noEdits {fs : List Finding} {r : Revision} {skipped : List Leftover}
    (hedits : e.editsFor source (fs.filter (!·.auxiliary)) = .ok ([], skipped)) (h : e.fixBatch source fs = .ok r) :
    r.isChanged = false := by
  obtain ⟨edits, skipped', r₀, hedits', happly, -, hmade, -⟩ := fixBatch_outcome h
  rw [hedits] at hedits'
  cases hedits'
  obtain ⟨-, -, -, -, hnone⟩ := Batch.apply_outcome happly
  rw [Revision.isChanged, hmade, (hnone rfl).2.1]
  rfl

theorem refound_iff (hverifies : e.registry.settings.verifies = true) {fs : List Finding} {r r₀ : Revision}
    {edits : List Edit}
    {skipped : List Leftover} (hedits : e.editsFor source (fs.filter (!·.auxiliary)) = .ok (edits, skipped))
    (happly : e.apply source edits = .ok r₀) (hchanged : r₀.isChanged = true)
    (hleft : ∀ l ∈ r₀.leftovers, l.reason ≠ .notIdempotent) (h : e.fixBatch source fs = .ok r) :
    ∃ issues, e.consistency.residuals r₀ = .ok issues ∧
      ((∃ l ∈ r.leftovers, l.reason = .notIdempotent) ↔ issues ≠ []) := by
  rw [fixBatch_eq hedits happly, hverifies, hchanged] at h
  obtain ⟨issues, hissues, rfl⟩ := verified_residuals (show e.verified source _ = .ok r from h)
  refine ⟨issues, hissues, ?_⟩
  have hfixed : issues.filterMap (·.fixed?) ≠ [] ↔ issues ≠ [] := by
    rw [ne_eq, ne_eq, List.filterMap_eq_nil_iff, not_iff_not]
    constructor
    · intro hnone
      by_contra hne
      obtain ⟨i, hi⟩ := List.exists_mem_of_ne_nil _ hne
      obtain ⟨fixed, found, rfl⟩ := Consistency.exists_of_mem_residuals hissues hi
      cases hnone _ hi
    · rintro rfl
      simp
  rw [leftovers_withdraw, ← hfixed]
  constructor
  · rintro ⟨l, hl, hreason⟩
    obtain hl | hl := List.mem_append.mp hl
    · obtain hl | hl := List.mem_append.mp hl
      · exact absurd hreason (hleft l hl)
      · exact absurd hreason (reason_editsFor hedits l hl)
    · obtain ⟨f, hf, -⟩ := List.mem_map.mp hl
      exact List.ne_nil_of_mem hf
  · intro hne
    obtain ⟨f, hf⟩ := List.exists_mem_of_ne_nil _ hne
    exact ⟨⟨f, .notIdempotent⟩, List.mem_append_right _ (List.mem_map_of_mem hf), rfl⟩

structure Pass.Effective (p : Pass) : Prop where
  blocked : p.blocked = []
  done : ∀ r ∈ p.done, ∀ l ∈ r.leftovers, l.reason ≠ .notIdempotent
  left : ∀ l ∈ p.left, l.2.2 ≠ .notIdempotent

theorem Pass.Effective.revise {p : Pass} (hp : p.Effective) {r : Revision}
    (hleft : ∀ l ∈ r.leftovers, l.reason ≠ .notIdempotent) : (p.revise r).Effective where
  blocked := by
    have hnone : r.leftovers.filter (·.reason == .notIdempotent) = [] := by
      rw [List.filter_eq_nil_iff]
      intro l hl
      simpa using hleft l hl
    rw [Pass.revise, hp.blocked, hnone]
    rfl
  done r' hr' := by
    obtain hr' | hr' := List.mem_append.mp hr'
    · exact hp.done r' hr'
    · rw [List.mem_singleton.mp hr']
      exact hleft
  left := by
    intro x hx
    obtain ⟨l, hl, rfl⟩ := List.mem_map.mp hx
    exact hleft l (List.mem_filter.mp hl).1

theorem Pass.Effective.reason {p : Pass} (hp : p.Effective) (f : Finding) : e.reason p f ≠ .notIdempotent := by
  have hfree : p.isBlocked f = false := by
    rw [Pass.isBlocked, hp.blocked]
    rfl
  rw [FixEngine.reason, hfree]
  split
  · rintro ⟨⟩
  · cases hfind : p.left.find? (fun l => l.1 == f.rule && l.2.1 == f.span) with
    | none => rintro ⟨⟩
    | some l => exact hp.left l (List.mem_of_find?_eq_some hfind)

end FixEngine

namespace Parentheses

open Zipper Grammar Word

section Words

variable {t : Text} (h : (parse t).faults = []) {lead : List Cell} {ws : List Word}
  (hlead : ∀ c ∈ lead, c.isTrivia = true) (hcells : (parse t).tree.cells .compilationUnit = lead ++ flatten ws)
  {ps : List Patch} {tree : Tree} (hfix : Fixed t lead ws ps tree) {lead' : List Cell} {ws' : List Word}
  (hlead' : ∀ c ∈ lead', c.isTrivia = true) (hcells' : tree.cells .compilationUnit = lead' ++ flatten ws')

structure Survivor.Heads (s : Survivor t ps tree) (lead : List Cell) (ws : List Word) (lead' : List Cell)
    (ws' : List Word) where
  pre : List Word
  word : Word
  post : List Word
  pre' : List Word
  word' : Word
  post' : List Word
  words : ws = pre ++ word :: post
  before : s.before.map cell = lead ++ flatten pre
  head : s.old.cell = word.head
  after : s.after.map cell = word.gap ++ flatten post
  words' : ws' = pre' ++ word' :: post'
  before' : s.newBefore.map cell = lead' ++ flatten pre'
  head' : s.new.cell = word'.head
  after' : s.newAfter.map cell = word'.gap ++ flatten post'

include hcells in
theorem map_cell_old : (leaves (parse t).tree).map cell = lead ++ flatten ws := by
  rw [← hcells]
  exact map_cell_leavesAll .compilationUnit [] [] (parse t).tree.children

include hfix

include hcells' in
theorem Fixed.map_cell_new : (leaves tree).map cell = lead' ++ flatten ws' := by
  obtain ⟨ds, rfl⟩ := hfix.exists_children
  rw [← hcells']
  exact map_cell_leavesAll .compilationUnit [] [] ds

include hcells' in
theorem Fixed.layout :
    Layout .compilationUnit (pruneAll .compilationUnit [] [] (Outline.bareAll (outline (itemsOf t)).1)) tree
    (lead' ++ flatten ws') where
  filled := hfix.draft.filled
  erase := hfix.draft.erase
  cells owner := by
    obtain ⟨ds, rfl⟩ := hfix.exists_children
    exact hcells'
  full c hc := by
    refine hfix.draft.full c.toToken ?_
    rw [← hfix.draft.tokens, ← Tree.map_toToken_cells .compilationUnit, hcells']
    exact List.mem_map_of_mem hc

include h hcells in
theorem Fixed.extent_le : Token.extent (ps.flatMap Patch.image) ≤ t.size + (lex t).length := by
  have himage := Patch.extent_image_le (hfix.full_patches h hcells) hfix.filling
  have htokens : ps.map (·.token) = (parse t).tree.tokens := by
    have hmarks := congrArg (List.map (·.token)) hfix.marks
    rwa [map_token_marksOf h hcells, List.map_map] at hmarks
  have hextent : Token.extent (ps.map (·.token)) = t.size := by
    rw [htokens, Token.extent, Tree.textOf_tokens, text_parse]
  have hlength : ps.length = (lex t).length := by
    have hread := congrArg List.length (read_cells_parse h)
    rw [Cell.read, List.length_map, List.length_map, ← List.length_map (f := (·.toToken)), Tree.map_toToken_cells,
      ← htokens, List.length_map] at hread
    exact hread
  rwa [hextent, hlength] at himage

omit hfix in
include h in
theorem Survivor.Heads.span_old {s : Survivor t ps tree} (hs : s.Heads lead ws lead' ws') :
    s.old.span = ⟨Cell.extent lead + Cell.extent (flatten hs.pre), hs.word.head.text.size⟩ := by
  obtain ⟨ds, hds⟩ : ∃ ds, (parse t).tree = .node .compilationUnit ds := ⟨_, rfl⟩
  have hdraft := draft_parse h
  have hleaves := s.leaves_old
  rw [hds] at hdraft hleaves
  rw [span_leaf hdraft.filledAll hleaves, hs.before, hs.head, Cell.extent_append]

theorem Survivor.Heads.span_new {s : Survivor t ps tree} (hs : s.Heads lead ws lead' ws') :
    s.new.span = ⟨Cell.extent lead' + Cell.extent (flatten hs.pre'), hs.word'.head.text.size⟩ := by
  obtain ⟨ds, rfl⟩ := hfix.exists_children
  rw [span_leaf hfix.draft.filledAll s.leaves_new, hs.before', hs.head', Cell.extent_append]

include hlead hcells hlead' hcells'

theorem Survivor.exists_heads (s : Survivor t ps tree) : Nonempty (s.Heads lead ws lead' ws') := by
  have hold := map_cell_old hcells
  have hnew := hfix.map_cell_new hcells'
  rw [s.leaves_old, List.map_append, List.map_cons] at hold
  rw [s.leaves_new, List.map_append, List.map_cons] at hnew
  have hsig : s.new.cell.isTrivia = false := by
    rw [show s.new.cell.isTrivia = s.new.token.isTrivia from rfl, s.token_new]
    exact s.significant
  obtain ⟨pre, w, post, hws, hpre, hw, hpost⟩ := exists_split hlead hold.symm s.significant
  obtain ⟨pre', w', post', hws', hpre', hw', hpost'⟩ := exists_split hlead' hnew.symm hsig
  exact ⟨⟨pre, w, post, pre', w', post', hws, hpre, hw.symm, hpost, hws', hpre', hw'.symm, hpost'⟩⟩

include h

omit hlead' hcells' in
theorem Survivor.Heads.ruling_new {s : Survivor t ps tree} (hs : s.Heads lead ws lead' ws') :
    KeywordSpacing.ruling hs.word' hs.post' = .fine ∨
      KeywordSpacing.ruling hs.word' hs.post' = .decline ∧ KeywordSpacing.ruling hs.word hs.post = .decline :=
  s.ruling_new h hfix hs.words hs.before hs.head hs.after hs.head' hs.after' hlead hcells

theorem Fixed.editsFrom_new (offset : Nat) : KeywordSpacing.editsFrom offset ws' = [] := by
  refine KeywordSpacing.editsFrom_eq_nil fun pre v post hws => ?_
  have hmap := hfix.map_cell_new hcells'
  rw [hws, flatten, List.flatMap_append, ← List.append_assoc] at hmap
  obtain ⟨ls, rest, hleaves, hls, hrest⟩ := List.map_eq_append_iff.mp hmap
  obtain ⟨y, rs, rfl, hy, -⟩ := List.map_eq_cons_iff.mp hrest
  have hsig : y.token.isTrivia = false := by
    rw [show y.token.isTrivia = y.cell.isTrivia from rfl, hy]
    exact v.head_significant
  obtain ⟨s, hbefore, -, -⟩ := hfix.exists_survivor_new h hcells hleaves hsig
  obtain ⟨hs⟩ := s.exists_heads hlead hcells hfix hlead' hcells'
  -- The word is found at the same place.
  have hpre : flatten pre = flatten hs.pre' := by
    have hcells := hs.before'
    rwa [hbefore, hls, List.append_cancel_left_eq] at hcells
  obtain ⟨-, hcons⟩ := List.append_inj (hws.symm.trans hs.words') (length_of_flatten hpre)
  obtain ⟨rfl, rfl⟩ := List.cons.inj hcons
  exact (hs.ruling_new h hlead hcells hfix).imp_right (·.1)

variable (hfit : Token.extent (ps.flatMap Patch.image) ≤ 0xFFFFFFFF)

include hfit

omit hlead hlead' hcells' in
theorem Survivor.Heads.map_gap {s : Survivor t ps tree} (hs : s.Heads lead ws lead' ws') :
    (Batch.deltas (Patch.made 0 ps)).map (s.old.span.stop + Cell.extent hs.word.gap) ≤
      s.new.span.stop + Cell.extent hs.word'.gap := by
  obtain ⟨gs, qs, hsplit, hgs, -⟩ := List.map_eq_append_iff.mp hs.after
  have hmatched := s.matched_after
  rw [hsplit] at hmatched
  have hgp := List.forall₂_take gs.length hmatched
  rw [List.take_left] at hgp
  have hpost := (List.take_append_drop gs.length s.post).symm
  generalize s.post.take gs.length = gp at hgp hpost
  generalize s.post.drop gs.length = qp at hpost
  have htrivia := hfix.trivia_image hgp (by intro p hp; rw [s.patches, hpost]; simp [hp]) (by
    intro g hg
    exact hs.word.gap_trivia g.cell (by rw [← hgs]; exact List.mem_map_of_mem hg))
  have hgap := (s.gap_new hs.after').1
  rw [hpost, List.flatMap_append, List.takeWhile_append_of_pos htrivia] at hgap
  have hsplit : ps = (s.pre ++ s.patch :: gp) ++ qp := by
    rw [List.append_assoc, List.cons_append, ← hpost]
    exact s.patches
  have hplace : s.old.span.stop + Cell.extent hs.word.gap = Token.extent ((s.pre ++ s.patch :: gp).map (·.token)) := by
    rw [s.span_old h, ← hgs, Cell.extent_eq, map_token, tokens_matched hgp, List.map_append, List.map_cons,
      Token.extent_append, Token.extent_cons, s.matched.1]
    simp only [Span.stop]
    omega
  rw [hplace, Patch.map_boundary hsplit (hfix.full_patches h hcells) hfit, s.span_new hfix, Cell.extent_eq, hgap]
  simp only [Span.stop, List.flatMap_append, List.flatMap_cons, Token.extent_append, Patch.image, s.stays, s.matched.1,
    Option.isSome_none, Bool.false_eq_true, if_false, Token.extent_cons, Token.extent_nil]
  omega

theorem Fixed.not_meets {edit : Edit} (hedit : edit ∈ KeywordSpacing.editsFrom (Cell.extent lead) ws) {f : Finding}
    (hf : f ∈ KeywordSpacing.findings (Cell.extent lead') ws') :
    f.span.meets ((Batch.deltas (Patch.made 0 ps)).mapSpan edit.finding.span) = false := by
  obtain ⟨pre, w, post, hws, hr, hfixed⟩ := KeywordSpacing.exists_word_of_editsFrom hedit
  have hmap := map_cell_old hcells
  rw [hws, flatten, List.flatMap_append, ← List.append_assoc] at hmap
  obtain ⟨ls, rest, hleaves, hls, hrest⟩ := List.map_eq_append_iff.mp hmap
  obtain ⟨z, rs, rfl, hz, -⟩ := List.map_eq_cons_iff.mp hrest
  have hkey : z.cell.kind ∈ KeywordSpacing.kinds := by
    rw [hz]
    obtain hr | hr := hr <;> exact KeywordSpacing.mem_kinds_of_ruling hr (by decide)
  have hsig : z.token.isTrivia = false := by
    rw [show z.token.isTrivia = z.cell.isTrivia from rfl, hz]
    exact w.head_significant
  have hstays : goes z.erase = false := by
    rw [← Bool.not_eq_true]
    intro hgoes
    obtain htrait | htrait := trait_of_goes h (by rw [hleaves]; simp) hsig hgoes
    · rw [show z.cell.kind = .lParen from congrArg (·.1) htrait] at hkey
      exact absurd hkey (by decide)
    · rw [show z.cell.kind = .rParen from congrArg (·.1) htrait] at hkey
      exact absurd hkey (by decide)
  obtain ⟨s, hbefore, -, -⟩ := hfix.exists_survivor h hcells hleaves hsig hstays
  obtain ⟨hs⟩ := s.exists_heads hlead hcells hfix hlead' hcells'
  have hpre : flatten pre = flatten hs.pre := by
    have hcells := hs.before
    rwa [hbefore, hls, List.append_cancel_left_eq] at hcells
  obtain ⟨hpre, hcons⟩ := List.append_inj (hws.symm.trans hs.words) (length_of_flatten hpre)
  obtain ⟨rfl, rfl⟩ := List.cons.inj hcons
  have hfine : KeywordSpacing.ruling hs.word' hs.post' = .fine := by
    obtain hfine | ⟨-, hdecline⟩ := hs.ruling_new h hlead hcells hfix
    · exact hfine
    · rw [hdecline] at hr
      obtain hr | hr := hr <;> cases hr
  -- The place it goes to lies in the new gap.
  obtain ⟨hstart, hstop, -⟩ := KeywordSpacing.span_of_finding? hfixed
  have hold := hs.span_old h
  have hnew := hs.span_new hfix
  rw [← hpre] at hold
  have hordered : (Batch.deltas (Patch.made 0 ps)).deltas.Pairwise (fun d e => d.span.stop ≤ e.span.start) := by
    rw [Patch.deltas_made (hfix.full_patches h hcells)]
    exact Patch.pairwise_deltas (hfix.full_patches h hcells)
  have hfirst : s.new.span.stop ≤ ((Batch.deltas (Patch.made 0 ps)).mapSpan edit.finding.span).start := by
    rw [← s.map_stop h hfix hcells hfit]
    refine OffsetMap.le_start_mapSpan hordered ?_
    rw [hold]
    exact hstart
  have hlast : ((Batch.deltas (Patch.made 0 ps)).mapSpan edit.finding.span).stop ≤ s.new.span.stop + Cell.extent
    hs.word'.gap := by
    refine (OffsetMap.stop_mapSpan_le hordered ?_).trans (hs.map_gap h hcells hfix hfit)
    rw [hold]
    rw [Word.cells, Cell.extent_cons, ← Nat.add_assoc] at hstop
    exact hstop
  rw [hnew] at hfirst hlast
  refine KeywordSpacing.not_meets_gap hs.words' ?_ hfine hf hfirst ?_
  · intro c hc
    refine (hfix.layout hcells').full c ?_
    simp [hc]
  · rw [Word.cells, Cell.extent_cons, ← Nat.add_assoc]
    exact hlast

section Batch

variable {e : FixEngine} (hrules : e.registry.rules = builtinRules) {edits : List Edit}
  (hedits : edits = ((ofRoot (parse t).tree).preorder.flatMap
    (fun z => KeywordSpacing.findingsAt z ++ findingsAt z)).filterMap (e.editOf? (parse t).tree))

include hrules hedits

theorem Fixed.shadowed_of_refound {c : Consistency} (hc : c.registry.rules = builtinRules) {only : Option (List String)}
    {source : Source} (hsource : source.tree = tree) {fixed f : Finding} {y : Zipper}
    (hfixed : fixed ∈ edits.map (·.finding))
    (hy : y ∈ (ofRoot source.tree).preorder) (hf : f ∈ ({ registry := c.registry, only } : Dispatch).found source y)
    (haux : f.auxiliary = false) (hrule : f.rule = fixed.rule)
    (hmeets : f.span.meets ((Batch.deltas (Patch.made 0 ps)).mapSpan fixed.span) = true) :
    ∃ z, z.root = (parse t).tree ∧ IsShadowed z := by
  obtain ⟨edit, hedit, rfl⟩ := List.mem_map.mp hfixed
  obtain ⟨hkeyword, hparens⟩ := Dispatch.mem_findingsAt hc hf haux
  have hperm := perm_edits h hcells hlead hrules
  rw [← hedits] at hperm
  rw [hsource] at hy
  obtain hedit | hedit := List.mem_append.mp (hperm.mem_iff.mp hedit)
  · obtain ⟨g, hg, hof⟩ := List.mem_filterMap.mp hedit
    obtain ⟨z, hz, hgz⟩ := List.mem_flatMap.mp hg
    have hroot : z.root = (parse t).tree := root_preorderOf [] _ z hz
    have hne : (check z).findings ≠ [] := List.ne_nil_of_mem (List.mem_filter.mp hgz).1
    obtain ⟨p, rfl⟩ := Parentheses.exists_reported h hroot hne
    obtain ⟨g', hg', hid, -, hedit'⟩ := exists_edit h (fun _ => fixOf?_builtin hrules) hroot hne
    rw [hg'] at hgz
    obtain rfl := List.mem_singleton.mp hgz
    rw [hof] at hedit'
    obtain rfl := Option.some.inj hedit'
    have hfy := hparens (hrule.trans hid)
    exact hfix.exists_shadowed h hcells (root_preorderOf [] _ y hy) (List.ne_nil_of_mem (List.mem_filter.mp hfy).1)
  · have hfy := hkeyword (hrule.trans (KeywordSpacing.mem_editsFrom hedit).1)
    have hmem : f ∈ (ofRoot tree).preorder.flatMap KeywordSpacing.findingsAt := List.mem_flatMap.mpr ⟨y, hy, hfy⟩
    rw [flatMap_findingsAt_preorder (hfix.layout hcells') hlead'] at hmem
    rw [hfix.not_meets h hlead hcells hlead' hcells' hfit hedit hmem] at hmeets
    cases hmeets

omit hlead hcells hfix hlead' hcells' hfit in
theorem IsShadowed.exists_fixed {z : Zipper} (hroot : z.root = (parse t).tree) (hz : IsShadowed z) :
    ∃ fixed ∈ edits.map (·.finding), fixed.rule = id ∧ ∃ y, z.up? = some y ∧ fixed.span = y.span := by
  obtain ⟨-, g, gs, habove, houter, -⟩ := hz
  have hyroot : (⟨g.fill z.focus, gs⟩ : Zipper).root = (parse t).tree := by
    rw [← hroot, root, root, habove]
    rfl
  obtain ⟨p, hp⟩ := exists_reported h hyroot houter
  rw [← hp] at houter hyroot
  obtain ⟨fixed, hfixed, hid, hspan, hedit⟩ := exists_edit h (fun _ => fixOf?_builtin hrules) hyroot houter
  refine ⟨fixed, ?_, hid, p.zipper, by rw [up?, habove, hp], hspan⟩
  rw [hedits]
  refine List.mem_map.mpr ⟨_, List.mem_filterMap.mpr ⟨fixed, ?_, hedit⟩, rfl⟩
  refine List.mem_flatMap.mpr ⟨p.zipper, ?_, List.mem_append_right _ (by rw [hfixed]; simp)⟩
  rw [← hyroot]
  exact mem_preorder p.zipper

omit hlead hlead' hcells' in
theorem Fixed.refound_of_shadowed {z : Zipper} (hroot : z.root = (parse t).tree) (hz : IsShadowed z) :
    ∃ fixed ∈ edits.map (·.finding), fixed.rule = id ∧ ∃ x ∈ (ofRoot tree).preorder, ∃ f ∈ findingsAt x, f.rule = id ∧
      f.auxiliary = false ∧ f.span.meets ((Batch.deltas (Patch.made 0 ps)).mapSpan fixed.span) = true := by
  obtain ⟨fixed, hfixed, hid, y, hup, hspan⟩ := hz.exists_fixed h hrules hedits hroot
  obtain ⟨s, x, hx, hne, hxup, hstart, hstop⟩ := hfix.exists_reported h hcells hroot hz hup
  obtain ⟨f, hf, hfid, hfspan⟩ := findingsAt_eq hne
  have hmem : f ∈ findingsAt x := by rw [hf]; simp
  refine ⟨fixed, hfixed, hid, x, ?_, f, hmem, hfid, by simpa using (List.mem_filter.mp hmem).2, ?_⟩
  · rw [← hx]
    exact mem_preorder x
  · -- Both hold the opening parenthesis that stays.
    have hordered : (Batch.deltas (Patch.made 0 ps)).deltas.Pairwise (fun d e => d.span.stop ≤ e.span.start) := by
      rw [Patch.deltas_made (hfix.full_patches h hcells)]
      exact Patch.pairwise_deltas (hfix.full_patches h hcells)
    rw [hspan, hfspan]
    have hfirst := OffsetMap.start_mapSpan_le hordered hstart
    have hlast := OffsetMap.le_stop_mapSpan hordered hstop
    rw [s.map_start h hfix hcells hfit] at hfirst
    rw [s.map_stop h hfix hcells hfit] at hlast
    have hin := span_up hxup
    have hnew := s.span_new hfix
    have hpos : 0 < s.old.token.text.size := by
      rw [← s.matched.1]
      exact hfix.full_patches h hcells s.patch ((congrArg (s.patch ∈ ·) s.patches).mpr (by simp))
    refine Span.meets_of_common (x := s.new.span.start) (y := s.new.span.stop) ?_ hin ⟨?_, hlast⟩
    · rw [hnew]
      exact Nat.lt_add_of_pos_right hpos
    · rw [hnew]
      exact hfirst.trans (Nat.le_add_right _ _)

end Batch

end Words

section Runs

variable {t : Text} (h : (parse t).faults = [])

include h

theorem IsShadowed.initializes {z : Zipper} (hroot : z.root = (parse t).tree) (hz : IsShadowed z) :
    Parentheses.initializes z.above = true := by
  obtain ⟨focus, above⟩ := z
  obtain ⟨hclean, f, fs, rfl, houter, hinner⟩ := hz
  have hplain := plain_of_root h hroot
  have hsig : focus.isTrivia = false := by
    cases focus with
    | token k u => cases (kind_of_findings hinner).1
    | node k cs => rfl
  have hpaired := paired_of_root h hroot hsig
  have hkept : ¬isSpare ((f :: fs).map Frame.erase) focus.erase = true :=
    fun hspare => (Parentheses.reports_iff hplain hpaired).mpr hspare hclean
  rw [Parentheses.reports_iff (z := ⟨focus, fs⟩) hplain hpaired] at hinner
  have hf : f.erase.kind = .parenExpr := (kind_of_findings houter).2
  have hfs : Parentheses.initializes (fs.map Frame.erase) = true := by
    by_contra hfs
    exact hkept (isSpare_within hf (Bool.not_eq_true _ ▸ hfs) hinner)
  rw [Parentheses.initializes, List.any_map] at hfs
  rw [Parentheses.initializes, List.any_cons]
  exact Bool.or_eq_true_iff.mpr (.inr hfs)

section Batch

variable {e : FixEngine} (hrules : e.registry.rules = builtinRules) {lead : List Cell} {ws : List Word}
  (hlead : ∀ c ∈ lead, c.isTrivia = true) (hcells : (parse t).tree.cells .compilationUnit = lead ++ flatten ws)

include hrules hlead hcells

theorem fixBatch_refinds (hcancel : e.cancelled = false) (hverifies : e.registry.settings.verifies = true)
    (hfit : t.size + (lex t).length ≤ 0xFFFFFFFF) {path : Option String} {p : FixEngine.Pass}
    (hsource : p.source = .ofText t path) (hblocked : p.blocked = []) (hfound : e.survey p.source = .ok p.findings)
    {r : Revision} (hbatch : e.fixBatch p.source (e.fixable p) = .ok r) :
    ((∃ l ∈ r.leftovers, l.reason = .notIdempotent) ↔ ∃ z, z.root = (parse t).tree ∧ IsShadowed z) ∧
      (r.isChanged = true → ∃ ps tree, Fixed t lead ws ps tree ∧ r.source.tree = tree) := by
  obtain ⟨⟨edits, skipped⟩, hfor, hrest⟩ := bind_eq_ok_iff.mp hbatch
  obtain ⟨r₀, happly, -⟩ := bind_eq_ok_iff.mp hrest
  have hedits := edits_of_fixable hrules hblocked hfound hfor
  rw [hsource] at hedits
  have htotal : ∀ rule ∈ e.registry.rules, rule.Total := by rw [hrules]; exact builtin_total
  by_cases hne : edits = []
  · subst hne
    have hnone := FixEngine.isChanged_of_noEdits hfor hbatch
    obtain ⟨-, -, hleft⟩ := FixEngine.fixBatch_unchanged hbatch hnone
    refine ⟨⟨fun ⟨l, hl, hreason⟩ => absurd hreason (hleft l hl), ?_⟩, fun hchanged => ?_⟩
    · rintro ⟨z, hroot, hz⟩
      obtain ⟨fixed, hfixed, -⟩ := hz.exists_fixed h hrules hedits hroot
      cases hfixed
    · rw [hnone] at hchanged
      cases hchanged
  · obtain ⟨ps, tree, hfix, hmade⟩ := apply_builtin h hcells hlead hrules hedits hne path
    have hr₀ := FixEngine.apply_ok happly
    rw [hsource, hcancel, hmade] at hr₀
    have hr₀ := (Except.ok.inj hr₀).symm
    have hchanged : r₀.isChanged = true := by
      by_contra hunchanged
      have hempty := FixEngine.accepted_of_unchanged (FixEngine.apply_ok happly)
        (by simpa [Revision.isChanged] using hunchanged)
      obtain ⟨happlied, -⟩ := Batch.apply_outcome (FixEngine.apply_ok happly)
      rw [hempty, hr₀, List.map_nil, List.map_eq_nil_iff] at happlied
      exact hne happlied
    obtain ⟨issues, hissues, hiff⟩ := FixEngine.refound_iff hverifies hfor happly hchanged (by rw [hr₀]; simp) hbatch
    obtain ⟨lead', ws', hlead', hcells'⟩ := exists_words (tree.cells .compilationUnit)
    have hfit := (hfix.extent_le h hcells).trans hfit
    refine ⟨?_, fun _ => ⟨ps, tree, hfix, ?_⟩⟩
    · rw [hiff, Consistency.residuals_ne_nil htotal hissues, hr₀]
      constructor
      · rintro ⟨fixed, hfixed, y, hy, f, hf, haux, hrule, hmeets⟩
        exact hfix.shadowed_of_refound h hlead hcells hlead' hcells' hfit hrules hedits hrules rfl hfixed hy hf
          haux hrule hmeets
      · rintro ⟨z, hroot, hz⟩
        obtain ⟨fixed, hfixed, hid, x, hx, f, hf, hrule, haux, hmeets⟩ :=
          hfix.refound_of_shadowed h hcells hfit hrules hedits hroot hz
        refine ⟨fixed, hfixed, x, hx, f, Dispatch.mem_found_parens hrules ?_ hf, haux, hrule.trans hid.symm, hmeets⟩
        exact List.contains_iff_mem.mpr (hid ▸ List.mem_map_of_mem hfixed)
    · obtain ⟨edits', skipped', r₁, hfor', happly', hsource', -, -⟩ := FixEngine.fixBatch_outcome hbatch
      rw [hfor] at hfor'
      cases hfor'
      rw [FixEngine.apply_ok happly] at happly'
      cases happly'
      rw [hsource', hr₀]

omit hlead in
theorem Fixed.editsOf_new {ps : List Patch} {tree : Tree} (hfix : Fixed t lead ws ps tree)
    (hlead : ∀ c ∈ lead, c.isTrivia = true)
    (hclean : ¬∃ z, z.root = (parse t).tree ∧ IsShadowed z) :
    ((ofRoot tree).preorder.flatMap (fun z => KeywordSpacing.findingsAt z ++ findingsAt z)).filterMap
      (e.editOf? tree) = [] := by
  obtain ⟨lead', ws', hlead', hcells'⟩ := exists_words (tree.cells .compilationUnit)
  have hlayout := hfix.layout hcells'
  have hparens : (ofRoot tree).preorder.flatMap (fun z => KeywordSpacing.findingsAt z ++ findingsAt z) =
      (ofRoot tree).preorder.flatMap KeywordSpacing.findingsAt := by
    apply List.flatMap_congr
    intro z hz
    have hnone : (check z).findings = [] := by
      by_contra hne
      exact hclean (hfix.exists_shadowed h hcells (root_preorderOf [] _ z hz) hne)
    rw [findingsAt, hnone, List.filter_nil, List.append_nil]
  rw [hparens, flatMap_findingsAt_preorder hlayout hlead', filterMap_keywords hrules hlayout]
  exact hfix.editsFrom_new h hlead hcells hlead' hcells' _

theorem effective_passes {ps : List Patch} {tree : Tree} (hfix : Fixed t lead ws ps tree)
    (hclean : ¬∃ z, z.root = (parse t).tree ∧ IsShadowed z) {n : Nat} {p q : FixEngine.Pass} {halt : FixEngine.Halt}
    (hpassing : e.Passing n p q halt) (hp : p.Effective) (htree : p.source.tree = tree)
    (hfound : e.survey p.source = .ok p.findings) : q.Effective := by
  have hstill {r : Revision} (hbatch : e.fixBatch p.source (e.fixable p) = .ok r) : r.isChanged = false := by
    obtain ⟨⟨edits, skipped⟩, hfor, -⟩ := bind_eq_ok_iff.mp hbatch
    have hedits := edits_of_fixable hrules hp.blocked hfound hfor
    rw [htree, hfix.editsOf_new h hrules hcells hlead hclean] at hedits
    rw [hedits] at hfor
    exact FixEngine.isChanged_of_noEdits hfor hbatch
  cases hpassing with
  | nothingFixable | limitReached => exact hp
  | nothingChanged hsome hbatch hchanged => exact hp.revise (FixEngine.fixBatch_unchanged hbatch hchanged).2.2
  | changed hsome hbatch hchanged =>
    rw [hstill hbatch] at hchanged
    cases hchanged

theorem passes_refind (hcancel : e.cancelled = false) (hverifies : e.registry.settings.verifies = true)
    (hfit : t.size + (lex t).length ≤ 0xFFFFFFFF) {path : Option String} {n : Nat} {p q : FixEngine.Pass}
    {halt : FixEngine.Halt} (hpassing : e.Passing (n + 1) p q halt) (hsource : p.source = .ofText t path)
    (hp : p.Effective)
    (hfound : e.survey p.source = .ok p.findings) :
    ((∃ z, z.root = (parse t).tree ∧ IsShadowed z) → ∃ r ∈ q.done, ∃ l ∈ r.leftovers, l.reason = .notIdempotent) ∧
      ((¬∃ z, z.root = (parse t).tree ∧ IsShadowed z) → q.Effective) := by
  have hdecides {r : Revision} (hbatch : e.fixBatch p.source (e.fixable p) = .ok r) :=
    fixBatch_refinds h hrules hlead hcells hcancel hverifies hfit hsource hp.blocked hfound hbatch
  have hvain {r : Revision} (hbatch : e.fixBatch p.source (e.fixable p) = .ok r)
      (hclean : ¬∃ z, z.root = (parse t).tree ∧ IsShadowed z) : ∀ l ∈ r.leftovers, l.reason ≠ .notIdempotent :=
    fun l hl hreason => hclean ((hdecides hbatch).1.mp ⟨l, hl, hreason⟩)
  cases hpassing with
  | nothingFixable hnone =>
    refine ⟨?_, fun _ => hp⟩
    rintro ⟨z, hroot, hz⟩
    rw [fixable_builtin hrules hp.blocked hfound, hsource] at hnone
    obtain ⟨fixed, hfixed, -⟩ := hz.exists_fixed h hrules rfl hroot
    rw [show (Source.ofText t path).tree = (parse t).tree from rfl] at hnone
    rw [hnone] at hfixed
    cases hfixed
  | nothingChanged hsome hbatch hchanged =>
    refine ⟨fun hshadow => ?_, fun hclean => hp.revise (hvain hbatch hclean)⟩
    exact ⟨_, List.mem_append_right _ (List.mem_singleton.mpr rfl), (hdecides hbatch).1.mpr hshadow⟩
  | changed hsome hbatch hchanged hfound' hrest =>
    obtain ⟨-, rs, hdone, -⟩ := hrest.chain hfound'
    refine ⟨fun hshadow => ?_, fun hclean => ?_⟩
    · refine ⟨_, ?_, (hdecides hbatch).1.mpr hshadow⟩
      rw [hdone]
      exact List.mem_append_left _ (List.mem_append_right _ (List.mem_singleton.mpr rfl))
    · obtain ⟨ps, tree, hfix, htree⟩ := (hdecides hbatch).2 hchanged
      have hnext := hp.revise (hvain hbatch hclean)
      exact effective_passes h hrules hlead hcells hfix hclean hrest
        ⟨hnext.blocked, hnext.done, hnext.left⟩ htree hfound'

end Batch

/-- Fixing a text without faults tells of something that was fixed in vain exactly if parentheses stand in the shadow
of others: they take the place of those that go, and are reported there. This happens only in the initializer of a
constructor. Offsets are words of 32 bits, and a keyword may need a byte more. -/
theorem fixAll_refinds_shadowed (path : Option String) (hfit : t.size + (lex t).length ≤ 0xFFFFFFFF) {g : Registry}
    (hrules : g.rules = builtinRules) (hsettings : g.settings = {}) {o : FixOutcome}
    (ho : ({ registry := g } : FixEngine).fixAll (.ofText t path) = .ok o) :
    ((∃ r ∈ o.passes, ∃ l ∈ r.leftovers, l.reason = .notIdempotent) ∨ ∃ l ∈ o.leftovers, l.reason = .notIdempotent) ↔
      ∃ z, z.root = (parse t).tree ∧ IsShadowed z ∧ initializes z.above = true := by
  obtain ⟨halt, found, q, hfound, hpassing, rfl⟩ := FixEngine.fixAll_eq_ok_iff.mp ho
  obtain ⟨lead, ws, hlead, hcells⟩ := exists_words ((parse t).tree.cells .compilationUnit)
  obtain ⟨n, hn⟩ : ∃ n, ({ registry := g } : FixEngine).maxPasses = n + 1 :=
    Nat.exists_eq_add_of_le' (Nat.le_max_right _ _)
  rw [hn] at hpassing
  obtain ⟨hrefound, heffective⟩ := passes_refind (e := { registry := g }) h hrules hlead hcells rfl
    (by rw [hsettings]; rfl)
    hfit hpassing rfl ⟨rfl, by simp, by simp⟩ hfound
  constructor
  · intro hvain
    obtain ⟨z, hroot, hz⟩ : ∃ z, z.root = (parse t).tree ∧ IsShadowed z := by
      by_contra hclean
      have hq := heffective hclean
      obtain ⟨r, hr, l, hl, hreason⟩ | ⟨l, hl, hreason⟩ := hvain
      · exact hq.done r hr l hl hreason
      · obtain ⟨f, -, rfl⟩ := List.mem_map.mp hl
        exact hq.reason f hreason
    exact ⟨z, hroot, hz, hz.initializes h hroot⟩
  · rintro ⟨z, hroot, hz, -⟩
    exact .inl (hrefound ⟨z, hroot, hz⟩)

end Runs

end Parentheses

namespace Initializer

def parens (t : Tree) : Tree :=
  .node .parenExpr [.token .lParen ['('], t, .token .rParen [')']]

def passing (argument : Tree) : Tree :=
  .node .compilationUnit
    [.node .classDecl [.token .classKw "class".toList, .token .whitespace [' '], .token .ident ['C'],
    .token .lBrace ['\x7b'], .node .constructorDecl [.token .ident ['C'],
      .node .parameterList [.token .lParen ['('], .token .rParen [')']],
      .node .constructorInitializer [.token .colon [':'], .token .baseKw "base".toList,
        .node .argumentList [.token .lParen ['('], .node .argument [argument], .token .rParen [')']]],
      .node .block [.token .lBrace ['\x7b'], .token .rBrace ['\x7d']]],
    .token .rBrace ['\x7d']]]

def name : Tree :=
  .node .nameExpr [.token .ident ['x']]

def before : Source :=
  ⟨passing (parens (parens name)), none⟩

def after : Source :=
  ⟨passing (parens name), none⟩

def engine : FixEngine :=
  { registry := { settings := {}, rules := builtinRules, exempts := fun _ => false } }

def finding (n : Nat) : Finding :=
  { rule := Parentheses.id, span := ⟨17, n⟩, secondary := [⟨17, 1⟩, ⟨16 + n, 1⟩] }

theorem readings : (parse before.text).tree.same before.tree = true ∧ (parse before.text).faults = [] ∧
    before.text.size + (lex before.text).length ≤ 0xFFFFFFFF ∧ engine.consistency.reparse? after = .ok none ∧
    engine.survey before = .ok [finding 5] ∧ engine.survey after = .ok [finding 3] ∧
    ({ registry := engine.registry, only := some [Parentheses.id] } : Dispatch).collectPrimary after false =
      .ok [finding 3] := by
  decide +kernel

theorem ofText_before : Source.ofText before.text none = before :=
  congrArg (Source.mk · none) (Tree.eq_of_same _ _ readings.1)

theorem faults_before : (parse before.text).faults = [] :=
  readings.2.1

def revision : Revision :=
  { source := after, applied := [finding 5]
    edits := [⟨Parentheses.id, ⟨17, 1⟩, []⟩, ⟨Parentheses.id, ⟨21, 1⟩, []⟩]
    offsets := ⟨[⟨⟨17, 1⟩, 0⟩, ⟨⟨21, 1⟩, 0⟩]⟩ }

def edit : Edit :=
  { finding := finding 5
    parts := [⟨⟨17, 1⟩, .removeToken .lParen true, nofun⟩, ⟨⟨21, 1⟩, .removeToken .rParen true, nofun⟩] }

theorem editsFor_before : engine.editsFor before [finding 5] = .ok ([edit], []) := by
  have hrun : FixEngine.runFix before (finding 5) Parentheses.fix = .ok edit := rfl
  simp [FixEngine.editsFor, Parentheses.fixOf?_builtin (e := engine) rfl (f := finding 5) rfl, hrun, bind, Except.bind,
    pure, Except.pure]

theorem apply_before : engine.apply before [edit] = .ok revision := by
  have horder : (Batch.tagged [edit]).Pairwise (fun x y => x.2.Precedes y.2) :=
    Batch.pairwise_tagged (by simp [edit, Part.Leads, Span.stop])
  have hresolve : ∀ e ∈ [edit], ∀ p ∈ e.parts, (p.resolve before.tree 0).toOption.isSome = true := by decide
  have hfold : (Batch.tagged [edit]).reverse.foldlM Batch.step { tree := before.tree } =
      .ok { tree := after.tree, made := revision.edits } := by with_unfolding_all rfl
  have hdeltas : Batch.deltas revision.edits = revision.offsets :=
    congrArg OffsetMap.mk (List.mergeSort_of_pairwise (by decide))
  have happly : Batch.apply before [edit] false = _ :=
    Batch.apply_ordered (.refl _) horder (by simp) (by simp [edit]) hresolve hfold
  rw [FixEngine.apply, show engine.cancelled = false from rfl, happly, hdeltas]
  rfl

theorem check_revision : engine.consistency.check before revision = .ok [.notIdempotent (finding 5) (finding 3)] := by
  have hlossless : Consistency.lossless? before.text revision = none := by
    rw [Consistency.lossless?, Applied.splice, List.mergeSort_of_pairwise (by decide)]
    rfl
  obtain ⟨-, -, -, hreparse, -, -, hfound⟩ := readings
  have hresiduals : engine.consistency.residuals revision = .ok [.notIdempotent (finding 5) (finding 3)] := by
    rw [Consistency.residuals, if_neg (by decide), bind_eq_ok_iff]
    exact ⟨_, hfound, rfl⟩
  rw [Consistency.check, show engine.consistency.reparse? revision.source = .ok none from hreparse, hresiduals]
  exact congrArg (fun i => Except.ok (Option.toList i ++ [] ++ [Issue.notIdempotent (finding 5) (finding 3)])) hlossless

theorem fixBatch_before : engine.fixBatch before [finding 5] = .ok (FixEngine.withdraw revision (finding 5)) := by
  rw [FixEngine.fixBatch_eq editsFor_before apply_before]
  simp only [FixEngine.verified]
  rw [show ({ registry := engine.registry, parse := engine.parse, cancelled := engine.cancelled } : Consistency) =
    engine.consistency from rfl]
  show (if _ then engine.consistency.check before revision >>= _ else _) = _
  rw [check_revision]
  rfl

theorem fixAll_before : ∃ o, engine.fixAll before = .ok o ∧ o.leftovers = [⟨finding 3, .notIdempotent⟩] := by
  let p : FixEngine.Pass := { source := before, findings := [finding 5] }
  let r := FixEngine.withdraw revision (finding 5)
  obtain ⟨-, -, -, -, hbefore, hafter, -⟩ := readings
  have hfixable : engine.fixable p = [finding 5] := rfl
  have hnone : engine.fixable { p.revise r with findings := [finding 3] } = [] := rfl
  refine ⟨engine.report { p.revise r with findings := [finding 3] }, FixEngine.fixAll_eq_ok_iff.mpr
    ⟨.nothingFixable, ?_⟩, ?_⟩
  · refine ⟨_, _, hbefore, ?_, rfl⟩
    exact .changed (by rw [hfixable]; simp) (by rw [hfixable]; exact fixBatch_before) rfl hafter (.nothingFixable hnone)
  · rfl

end Initializer

theorem Initializer.fixAll_refinds_before : (parse before.text).faults = [] ∧
    before.text.size + (lex before.text).length ≤ 0xFFFFFFFF ∧
    ∃ o, engine.fixAll (.ofText before.text none) = .ok o ∧ o.leftovers = [⟨finding 3, .notIdempotent⟩] ∧
      ∃ z, z.root = (parse before.text).tree ∧ Parentheses.IsShadowed z ∧ Parentheses.initializes z.above = true := by
  have hfit := readings.2.2.1
  obtain ⟨o, ho, hleft⟩ := fixAll_before
  rw [← ofText_before] at ho
  refine ⟨faults_before, hfit, o, ho, hleft, ?_⟩
  refine (Parentheses.fixAll_refinds_shadowed faults_before none hfit rfl rfl ho).mp
    (.inr ⟨⟨finding 3, .notIdempotent⟩, ?_, rfl⟩)
  rw [hleft]
  exact List.mem_singleton.mpr rfl

/-- What was fixed is found again. -/
theorem Initializer.fixAll_in_vain :
    (parse "class C\x7bC():base(((x)))\x7b\x7d\x7d".toList).faults = [] ∧
      ∃ o, engine.fixAll (.ofText "class C\x7bC():base(((x)))\x7b\x7d\x7d".toList none) = .ok o ∧
        o.leftovers = [⟨finding 3, .notIdempotent⟩] := by
  have htext : "class C\x7bC():base(((x)))\x7b\x7d\x7d".toList = before.text := by decide
  obtain ⟨o, ho, hleft⟩ := fixAll_before
  rw [htext]
  refine ⟨faults_before, o, ?_, hleft⟩
  rw [ofText_before]
  exact ho

end Lintel
