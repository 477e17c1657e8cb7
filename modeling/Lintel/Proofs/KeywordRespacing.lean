import Lintel.Proofs.FaultlessText
import Lintel.Proofs.ReparseCheck
import Lintel.Proofs.SpacingOffsets

namespace Lintel

theorem Batch.lossless?_of_apply {source : Source} {edits : List Edit} {r : Revision}
    (hparts : ∀ e ∈ edits, e.parts.Pairwise (fun p q => p.span.conflicts q.span = false))
    (h : apply source edits false = .ok r) : Consistency.lossless? source.text r = none := by
  have htext : Applied.splice source.text r.edits = r.source.text :=
    (apply_spliced hparts h).spliceFrom_eq [] _ rfl rfl
  simp [Consistency.lossless?, htext]

theorem Consistency.reparse?_eq_none {c : Consistency} (hc : c.ReadsBack) {source : Source}
    (h : source.tree.erase = (Lintel.parse source.text).tree.erase) : c.reparse? source = .ok none := by
  have hkinds : source.tree.nodeKinds = (Lintel.parse source.text).tree.nodeKinds := by
    rw [← Tree.nodeKinds_erase, h, Tree.nodeKinds_erase]
  rw [reparse?_eq hc, shapeDifference?_eq_none.mpr hkinds]
  rfl

namespace FixEngine

theorem passes_changed {e : FixEngine} {p : Pass} {r : Revision} {fs : List Finding}
    (hne : (e.fixable p).isEmpty = false)
    (hbatch : e.fixBatch p.source (e.fixable p) = .ok r) (hchanged : r.isChanged = true)
    (hfound : ({ registry := e.registry } : Dispatch).collectPrimary r.source e.cancelled = .ok fs) (n : Nat) :
    e.passes (n + 1) p = e.passes n { p.revise r with findings := fs } := by
  have hsource : (p.revise r).source = r.source := rfl
  simp only [passes, hne, hbatch, hchanged, hsource, hfound, bind, Except.bind, Bool.false_eq_true, if_false, if_true]

end FixEngine

namespace KeywordSpacing

open Word

theorem deltas_partsFrom {ws : List Word} (hfull : ∀ c ∈ flatten ws, 0 < c.text.size) (offset : Nat) :
    Batch.deltas ((partsFrom offset ws).map madeOf) = ⟨deltasFrom offset ws⟩ := by
  have hmap : ((partsFrom offset ws).map madeOf).map (fun a => (⟨a.span, a.replacement.size⟩ : Delta)) =
      deltasFrom offset ws := by
    rw [List.map_map]
    rfl
  rw [Batch.deltas, OffsetMap.ofDeltas, hmap, List.mergeSort_of_pairwise]
  refine List.pairwise_map.mpr ((pairwise_partsFrom hfull offset).imp fun h => ?_)
  simp only [Delta.before, deltaOf, Bool.or_eq_true]
  exact .inl (decide_eq_true h.1)

theorem respaceAll_of_settled {offset : Nat} {ws : List Word} (h : editsFrom offset ws = []) : respaceAll ws = ws := by
  induction ws generalizing offset with
  | nil => rfl
  | cons w ws ih =>
    rw [editsFrom, List.append_eq_nil_iff] at h
    have hgap : respacedGap w ws = w.gap := by
      rw [respacedGap]
      cases hr : ruling w ws with
      | fine | decline => rfl
      | pad | clear =>
        obtain ⟨f, hf⟩ := @exists_finding w ws (by simp [hr]) offset
        simp [hr, hf] at h
    rw [respaceAll, ih h.2, respace]
    congr

theorem editsFrom_of_findings {offset : Nat} {ws : List Word} (h : findings offset ws = []) :
    editsFrom offset ws = [] := by
  induction ws generalizing offset with
  | nil => rfl
  | cons w ws ih =>
    rw [findings, List.append_eq_nil_iff] at h
    simp [editsFrom, h.1, ih h.2]

theorem mem_skippedFrom {offset : Nat} {ws : List Word} {l : Leftover} (h : l ∈ skippedFrom offset ws) :
    l.finding.rule = id ∧ ∃ reason, l.reason = .notApplicable reason := by
  induction ws generalizing offset with
  | nil => simp [skippedFrom] at h
  | cons w ws ih =>
    rw [skippedFrom, List.mem_append] at h
    obtain h | h := h
    · split at h
      · obtain ⟨f, hf, rfl⟩ := List.mem_map.mp h
        exact ⟨rule_of_finding? (Option.mem_toList.mp hf), _, rfl⟩
      · simp at h
    · exact ih h

theorem map_finding_skippedFrom {offset : Nat} {ws : List Word} (h : editsFrom offset ws = []) :
    (skippedFrom offset ws).map (·.finding) = findings offset ws := by
  induction ws generalizing offset with
  | nil => rfl
  | cons w ws ih =>
    rw [editsFrom, List.append_eq_nil_iff] at h
    rw [skippedFrom, findings, List.map_append, ih h.2]
    congr 1
    split
    · rw [List.map_map]
      exact List.map_id _
    · rename_i hr
      rw [if_neg hr] at h
      simpa using h.1

theorem exists_declined {offset : Nat} {ws : List Word} {f : Finding} (hnone : editsFrom offset ws = [])
    (hf : f ∈ findings offset ws) : ∃ pre w post, ws = pre ++ w :: post ∧ ruling w post = .decline ∧
      finding? (offset + Cell.extent (flatten pre)) w post = some f := by
  induction ws generalizing offset with
  | nil => simp [findings] at hf
  | cons w ws ih =>
    rw [editsFrom, List.append_eq_nil_iff] at hnone
    rw [findings, List.mem_append, Option.mem_toList] at hf
    obtain hf | hf := hf
    · refine ⟨[], w, ws, rfl, ?_, by simpa [flatten] using hf⟩
      by_contra hr
      simp [hr, hf] at hnone
    · obtain ⟨pre, v, post, rfl, hr, hv⟩ := ih hnone.2 hf
      refine ⟨w :: pre, v, post, rfl, hr, ?_⟩
      rw [← hv, show flatten (w :: pre) = w.cells ++ flatten pre from rfl, Cell.extent_append, Nat.add_assoc]

theorem keyword_of_declined {k : Kind} {bs : List Tree} {t : Tree} {pre : List Cell} {w : Word} {ws : List Word}
    {f : Finding} (h : Layout k bs t (pre ++ flatten (w :: ws))) (hr : ruling w ws = .decline)
    (hf : finding? (Cell.extent pre) w ws = some f) :
    ∃ z, keywordOf? t f.span = some z ∧ (gap z).any (fun y => endsLine y || y.kind == .directive) = true := by
  have hlayout : Layout k bs t (pre ++ w.head :: (w.gap ++ flatten ws)) := h
  obtain ⟨ds, ls, z, rs, rfl, hfill, hleaves, rfl, hz, hrs⟩ := hlayout.exists_leaf
  obtain ⟨gs, qs, rfl, hgs, hqs⟩ := List.map_eq_append_iff.mp hrs
  have hfull : ∀ c ∈ w.cells, 0 < c.text.size := by
    intro c hc
    apply h.full
    rw [flatten, List.flatMap_cons]
    simp [hc]
  have hbarrier := gap_of_ruling w ws
  rw [hr] at hbarrier
  rw [finding?, hr] at hf
  obtain ⟨s, hs, rfl⟩ := Option.map_eq_some_iff.mp hf
  refine ⟨z, keywordOf?_blanks hfill hleaves hz hgs hfull (mem_kinds_of_ruling hr (by decide)) hs, ?_⟩
  rw [(gap_leaf hfill hleaves hgs hqs).1, ← hbarrier.2, ← hgs, List.any_map]
  rfl

theorem stop_of_findings {offset : Nat} {ws : List Word} {f : Finding} (h : f ∈ findings offset ws) :
    f.span.stop ≤ offset + Cell.extent (flatten ws) := by
  induction ws generalizing offset with
  | nil => simp [findings] at h
  | cons w ws ih =>
    rw [findings, List.mem_append, Option.mem_toList] at h
    rw [show flatten (w :: ws) = w.cells ++ flatten ws from rfl, Cell.extent_append]
    obtain h | h := h
    · have := (span_of_finding? h).2.1
      omega
    · have := ih h
      omega

theorem filter_auxiliary (offset : Nat) (ws : List Word) :
    (findings offset ws).filter (!·.auxiliary) = findings offset ws := by
  refine List.filter_eq_self.mpr fun f hf => ?_
  obtain ⟨_, _, _, _, rfl⟩ := mem_findings hf
  rfl

theorem rule_of_editsFrom {offset : Nat} {ws : List Word} :
    ∀ r ∈ ((editsFrom offset ws).map (·.finding)).map (·.rule), r = id := by
  intro r hr
  rw [List.map_map] at hr
  obtain ⟨e, he, rfl⟩ := List.mem_map.mp hr
  exact (mem_editsFrom he).1

theorem residuals_respaced {c : Consistency} (hrules : c.registry.rules = [rule]) (hcancel : c.cancelled = false)
    {k : Kind} {bs : List Tree} {r : Revision} {lead : List Cell} {ws : List Word}
    (hlead : ∀ c ∈ lead, c.isTrivia = true) (hnew : Layout k bs r.source.tree (lead ++ flatten (respaceAll ws)))
    (hfull : ∀ c ∈ flatten ws, 0 < c.text.size)
    (happlied : r.applied = (editsFrom (Cell.extent lead) ws).map (·.finding))
    (hoffsets : r.offsets = ⟨deltasFrom (Cell.extent lead) ws⟩)
    (hfit : Cell.extent (lead ++ flatten (respaceAll ws)) ≤ 0xFFFFFFFF) : c.residuals r = .ok [] := by
  have hrule := @rule_of_editsFrom (Cell.extent lead) ws
  rw [← happlied] at hrule
  rw [Consistency.residuals]
  by_cases htouched : (r.applied.map (·.rule)).isEmpty = true
  · rw [if_pos htouched]
    rfl
  · have honly : (r.applied.map (·.rule)).contains id = true := by
      obtain ⟨x, xs, hx⟩ := List.exists_cons_of_ne_nil (mt List.isEmpty_iff.mpr htouched)
      rw [hx] at hrule ⊢
      simp [hrule x (by simp)]
    obtain ⟨ds, htree, hfill, hcells⟩ := hnew.exists_children
    have hfound := collectPrimary_eq (d := { registry := c.registry, only := some (r.applied.map (·.rule)) }) hrules
      (by simpa using honly) htree hfill hlead hcells
    have hstart : Cell.extent lead + OffsetMap.growth [] = Cell.extent lead := by simp
    have hmeets := not_meets_fixed hfull (fun c hc => hnew.full c (by simp [hc])) (by simp) hstart (by simpa using hfit)
    have hnone : ∀ fixed ∈ r.applied, (findings (Cell.extent lead) (respaceAll ws)).find?
      (fun f => f.rule == fixed.rule &&
        f.span.meets (r.offsets.mapSpan fixed.span)) = none := by
      intro fixed hfixed
      rw [happlied] at hfixed
      obtain ⟨edit, hedit, rfl⟩ := List.mem_map.mp hfixed
      rw [List.find?_eq_none]
      intro f hf
      have := (hmeets edit hedit).2 f hf
      rw [List.nil_append, ← hoffsets] at this
      simp [this]
    rw [if_neg htouched, hcancel, hfound]
    refine congrArg Except.ok (List.filterMap_eq_nil_iff.mpr fun fixed hfixed => ?_)
    exact congrArg (Option.map _) (hnone fixed hfixed)

theorem filter_respaceAll (ws : List Word) :
    (flatten (respaceAll ws)).filter (!·.isBlank) = (flatten ws).filter (!·.isBlank) := by
  induction ws with
  | nil => rfl
  | cons w ws ih =>
    have hgap : (respace w ws).gap.filter (!·.isBlank) = w.gap.filter (!·.isBlank) := by
      cases hr : ruling w ws with
      | fine | decline => simp [respace, respacedGap, hr]
      | pad =>
        simp only [respace, respacedGap, hr]
        rw [List.filter_cons_of_neg (by simp [Cell.space, Cell.isBlank])]
      | clear => simp [respace, respacedGap, hr]
    rw [respaceAll, flatten_cons, flatten_cons, List.filter_cons, List.filter_cons, List.filter_append,
      List.filter_append, hgap, ih]
    rfl

section Engine

variable {e : FixEngine} (hrules : e.registry.rules = [rule]) (hcancel : e.cancelled = false)

include hrules hcancel

omit hcancel in
theorem fixBatch_settled {k : Kind} {bs : List Tree} {source : Source} {pre : List Cell} {ws : List Word}
    (h : Layout k bs source.tree (pre ++ flatten ws)) (hnone : editsFrom (Cell.extent pre) ws = []) :
    e.fixBatch source (findings (Cell.extent pre) ws) =
      .ok { source, leftovers := skippedFrom (Cell.extent pre) ws } := by
  have hedits := editsFor_findings hrules h
  rw [hnone, ← filter_auxiliary] at hedits
  have happly : e.apply source [] = .ok { source } := rfl
  rw [FixEngine.fixBatch_eq hedits happly, Revision.isChanged, List.isEmpty_nil, Bool.not_true, Bool.and_false]
  rfl

omit hcancel in
theorem fixable_eq {p : FixEngine.Pass} {offset : Nat} {ws : List Word} (hfindings : p.findings = findings offset ws)
    (hblocked : p.blocked = []) : e.fixable p = p.findings := by
  refine List.filter_eq_self.mpr fun f hf => ?_
  rw [hfindings] at hf
  obtain ⟨_, _, _, _, rfl⟩ := mem_findings hf
  rw [fixOf?_eq hrules rfl, FixEngine.Pass.isBlocked, hblocked]
  rfl

omit hrules hcancel in
theorem revise_of_skipped {p : FixEngine.Pass} {r : Revision} {offset : Nat} {ws : List Word}
    (hblocked : p.blocked = [])
    (hskipped : r.leftovers = skippedFrom offset ws) : (p.revise r).blocked = [] ∧
      (p.revise r).left = (skippedFrom offset ws).map
        (fun l => (l.finding.rule, r.offsets.mapSpan l.finding.span, l.reason)) := by
  have hreason : ∀ l ∈ skippedFrom offset ws, l.reason ≠ .notIdempotent := by
    intro l hl
    obtain ⟨-, reason, hr⟩ := mem_skippedFrom hl
    simp [hr]
  have hnone : (skippedFrom offset ws).filter (·.reason == .notIdempotent) = [] := by
    simpa [List.filter_eq_nil_iff] using hreason
  have hall : (skippedFrom offset ws).filter (·.reason != .notIdempotent) = skippedFrom offset ws := by
    simpa [List.filter_eq_self] using hreason
  simp only [FixEngine.Pass.revise, hblocked, hskipped, hnone, hall, List.map_nil, List.append_nil, and_self]

omit hcancel in
theorem passes_settled {k : Kind} {bs : List Tree} {p : FixEngine.Pass} {pre : List Cell} {ws : List Word}
    (h : Layout k bs p.source.tree (pre ++ flatten ws)) (hnone : editsFrom (Cell.extent pre) ws = [])
    (hfindings : p.findings = findings (Cell.extent pre) ws) (hblocked : p.blocked = [])
    (hfit : Cell.extent (pre ++ flatten ws) ≤ 0xFFFFFFFF) (n : Nat) :
    ∃ q, e.passes (n + 1) p = .ok q ∧ q.source = p.source ∧ q.findings = p.findings ∧
      ∀ f ∈ q.findings, ∃ reason, e.reason q f = .notApplicable reason := by
  have hfixable := fixable_eq hrules hfindings hblocked
  rw [FixEngine.passes, hfixable]
  by_cases hempty : p.findings.isEmpty = true
  · rw [if_pos hempty]
    exact ⟨p, rfl, rfl, rfl, by simp [List.isEmpty_iff.mp hempty]⟩
  · rw [if_neg hempty, hfindings, fixBatch_settled hrules h hnone]
    let r : Revision := { source := p.source, leftovers := skippedFrom (Cell.extent pre) ws }
    refine ⟨p.revise r, rfl, rfl, hfindings, fun f hf => ?_⟩
    obtain ⟨hfree, hleft⟩ := revise_of_skipped (r := r) hblocked rfl
    have hf : f ∈ findings (Cell.extent pre) ws := hfindings ▸ hf
    have hstop := stop_of_findings hf
    rw [Cell.extent_append] at hfit
    -- What was found is the finding of a leftover at the same place.
    have hmem := hf
    rw [← map_finding_skippedFrom hnone] at hmem
    obtain ⟨l, hl, rfl⟩ := List.mem_map.mp hmem
    have hplace : r.offsets.mapSpan l.finding.span = l.finding.span := OffsetMap.mapSpan_nil (by omega)
    have hsome : ((p.revise r).left.find? (fun x => x.1 == l.finding.rule && x.2.1 == l.finding.span)).isSome =
      true := by
      rw [List.find?_isSome, hleft]
      exact ⟨_, List.mem_map_of_mem hl, by simp [hplace]⟩
    obtain ⟨x, hx⟩ := Option.isSome_iff_exists.mp hsome
    have hin := List.mem_of_find?_eq_some hx
    rw [hleft] at hin
    obtain ⟨m, hm, rfl⟩ := List.mem_map.mp hin
    obtain ⟨-, reason, hreason⟩ := mem_skippedFrom hm
    refine ⟨reason, ?_⟩
    rw [FixEngine.reason, fixOf?_eq hrules (mem_skippedFrom hl).1, FixEngine.Pass.isBlocked, hfree, hx]
    simpa using hreason

section Faultless

variable {t : Text} (h : (parse t).faults = []) {lead : List Cell} {ws : List Word}
  (hlead : ∀ c ∈ lead, c.isTrivia = true) (hcells : (parse t).tree.cells .compilationUnit = lead ++ flatten ws)

include h hlead hcells

omit hrules hcancel in
theorem erase_of_respaced {tree : Tree} {bs : List Tree}
    (hlayout : Layout .compilationUnit bs tree (lead ++ flatten (respaceAll ws)))
    (hbs : bs = Outline.bareAll (Grammar.outline (itemsOf t)).1) :
    tree.erase = (parse t).tree.erase ∧ (parse tree.text).tree.erase = (parse t).tree.erase ∧
      (parse tree.text).faults = [] := by
  have htext : tree.text = Token.textOf (Cell.read (lead ++ flatten (respaceAll ws))) := by
    rw [← hlayout.cells .compilationUnit, ← Tree.textOf_tokens, ← Tree.map_toToken_cells .compilationUnit, Cell.read,
      Token.textOf, Token.textOf, List.flatMap_map, List.flatMap_map]
    simp
  refine ⟨?_, ?_⟩
  · rw [hlayout.erase, erase_parse, hbs]
  · rw [htext]
    exact parse_respaceAll h hlead hcells

theorem fixBatch_respaces (hreads : e.consistency.ReadsBack) (hverifies : e.registry.settings.verifies = true)
    (path : Option String) (hfit : Cell.extent (lead ++ flatten (respaceAll ws)) ≤ 0xFFFFFFFF)
    (hedits : editsFrom (Cell.extent lead) ws ≠ []) :
    ∃ r, e.fixBatch (.ofText t path) (findings (Cell.extent lead) ws) = .ok r ∧ r.isChanged = true ∧
      r.leftovers = skippedFrom (Cell.extent lead) ws ∧
      Layout .compilationUnit (Outline.bareAll (Grammar.outline (itemsOf t)).1) r.source.tree
        (lead ++ flatten (respaceAll ws)) := by
  have hlayout := layout_parse h
  rw [hcells] at hlayout
  have hlayout : Layout _ _ (Source.ofText t path).tree (lead ++ flatten ws) := hlayout
  have hclear := clearable_of_signed (spelled_of_faultless h hcells) (signed_of_faultless h hlead hcells)
  obtain ⟨tree, hnew, happly⟩ := apply_editsFrom hlayout hclear hedits
  have hfor := editsFor_findings hrules hlayout
  have hfull : ∀ c ∈ flatten ws, 0 < c.text.size := fun c hc => hlayout.full c (by simp [hc])
  have horder : ∀ x ∈ editsFrom (Cell.extent lead) ws,
      x.parts.Pairwise (fun p q => p.span.conflicts q.span = false) := by
    have hpairs := pairwise_partsFrom hfull (Cell.extent lead)
    rw [← flatMap_parts_editsFrom, List.pairwise_flatMap] at hpairs
    exact fun x hx => (hpairs.1 x hx).imp fun h => Part.Precedes.conflicts (.inl h)
  have hlossless := Batch.lossless?_of_apply horder happly
  obtain ⟨hsame, hread, -⟩ := erase_of_respaced h hlead hcells hnew rfl
  have hparts : ((partsFrom (Cell.extent lead) ws).map madeOf).isEmpty = false := by
    obtain ⟨x, xs, hx⟩ := List.exists_cons_of_ne_nil hedits
    have hne := (mem_editsFrom (show x ∈ editsFrom (Cell.extent lead) ws by simp [hx])).2
    rw [← flatMap_parts_editsFrom, hx, List.flatMap_cons]
    cases hp : x.parts with
    | nil => exact absurd hp hne
    | cons p ps => rfl
  let r : Revision :=
    { source := { tree, path }, applied := (editsFrom (Cell.extent lead) ws).map (·.finding)
      edits := (partsFrom (Cell.extent lead) ws).map madeOf, leftovers := skippedFrom (Cell.extent lead) ws
      offsets := Batch.deltas ((partsFrom (Cell.extent lead) ws).map madeOf) }
  have hresiduals : e.consistency.residuals r = .ok [] :=
    residuals_respaced hrules hcancel hlead hnew hfull rfl (deltas_partsFrom hfull _) hfit
  have hreparse : e.consistency.reparse? r.source = .ok none :=
    Consistency.reparse?_eq_none hreads (hsame.trans hread.symm)
  have hverified : e.verified (.ofText t path) r = .ok r := by
    have hcheck : e.consistency.check (.ofText t path) r = .ok [] := by
      rw [Consistency.check, hreparse, hresiduals]
      exact congrArg (fun i => Except.ok (Option.toList i ++ [] ++ [])) hlossless
    exact FixEngine.verified_of_check hcheck
  have hmade : e.apply (.ofText t path) (editsFrom (Cell.extent lead) ws) = .ok { r with leftovers := [] } := by
    rw [FixEngine.apply, hcancel, happly]
    rfl
  have hchanged : r.isChanged = true := by simp [Revision.isChanged, r, hparts]
  refine ⟨r, ?_, hchanged, rfl, hnew⟩
  rw [← filter_auxiliary] at hfor
  rw [FixEngine.fixBatch_eq hfor hmade, hverifies, show Revision.isChanged { r with leftovers := [] } =
    true from hchanged]
  exact hverified

theorem passes_respace (hreads : e.consistency.ReadsBack) (hverifies : e.registry.settings.verifies = true)
    (path : Option String) (hfit : Cell.extent (lead ++ flatten (respaceAll ws)) ≤ 0xFFFFFFFF) (n : Nat) :
    ∃ q, e.passes (n + 2) { source := .ofText t path, findings := findings (Cell.extent lead) ws } = .ok q ∧
      Layout .compilationUnit (Outline.bareAll (Grammar.outline (itemsOf t)).1) q.source.tree
        (lead ++ flatten (respaceAll ws)) ∧
      q.findings = findings (Cell.extent lead) (respaceAll ws) ∧
      ∀ f ∈ q.findings, ∃ reason, e.reason q f = .notApplicable reason := by
  by_cases hedits : editsFrom (Cell.extent lead) ws = []
  · have hlayout := layout_parse h
    rw [respaceAll_of_settled hedits] at hfit ⊢
    rw [hcells] at hlayout
    obtain ⟨q, hpasses, hsource, hfindings, hreason⟩ := passes_settled hrules
      (p := { source := .ofText t path, findings := findings (Cell.extent lead) ws }) hlayout hedits rfl rfl hfit
      (n + 1)
    refine ⟨q, hpasses, ?_, hfindings, hreason⟩
    rw [hsource]
    exact hlayout
  · obtain ⟨r, hbatch, hchanged, hskipped, hlayout⟩ :=
      fixBatch_respaces hrules hcancel h hlead hcells hreads hverifies path hfit hedits
    have hfixable := fixable_eq hrules
      (p := { source := .ofText t path, findings := findings (Cell.extent lead) ws }) rfl rfl
    obtain ⟨ds, htree, hfill, hds⟩ := hlayout.exists_children
    have hfound := collectPrimary_eq (d := { registry := e.registry }) hrules rfl htree hfill hlead hds
    rw [← hcancel] at hfound
    have hne : (findings (Cell.extent lead) ws).isEmpty = false := by
      rw [List.isEmpty_eq_false_iff]
      exact mt editsFrom_of_findings hedits
    have hpass := FixEngine.passes_changed (by rw [hfixable]; exact hne) (by rw [hfixable]; exact hbatch)
      hchanged hfound
      (n + 1)
    have hblocked := (revise_of_skipped (r := r)
      (p := { source := .ofText t path, findings := findings (Cell.extent lead) ws }) rfl hskipped).1
    obtain ⟨q, hpasses, hsource, hfindings, hreason⟩ := passes_settled hrules
      (p := { FixEngine.Pass.revise { source := .ofText t path, findings := findings (Cell.extent lead) ws } r with
        findings := findings (Cell.extent lead) (respaceAll ws) })
      hlayout (editsFrom_respaceAll _ _) rfl hblocked hfit n
    refine ⟨q, hpass.trans hpasses, ?_, hfindings, hreason⟩
    rw [hsource]
    exact hlayout

end Faultless

end Engine

theorem isBlank_eq (c : Cell) : (!c.isBlank) = (c.kind != .whitespace && c.kind != .newline) := by
  rw [Cell.isBlank]
  split
  · rename_i hk
    rw [hk]
    rfl
  · rename_i hk
    rw [hk]
    rfl
  · rename_i hspace hline
    simp [bne_iff_ne.mpr hspace, bne_iff_ne.mpr hline]

theorem filter_tokens {k : Kind} {bs : List Tree} {t : Tree} {cs : List Cell} (h : Layout k bs t cs) :
    t.tokens.filter (fun u => u.kind != .whitespace && u.kind != .newline) =
      (cs.filter (!·.isBlank)).map (·.toToken) := by
  rw [← h.cells .compilationUnit, ← Tree.map_toToken_cells .compilationUnit, List.filter_map]
  congr 2
  funext c
  exact (isBlank_eq c).symm

def phraseOf (t : Text) : Phrase :=
  .of ((parse t).tree.cells .compilationUnit)

def respaced (t : Text) : Text :=
  Token.textOf (((phraseOf t).lead ++ flatten (respaceAll (phraseOf t).words)).map (·.toToken))

def lasting (t : Text) : List Finding :=
  findings (Cell.extent (phraseOf t).lead) (respaceAll (phraseOf t).words)

/-- The spacing of the keywords of a text without faults is fixed, and nothing but blanks changes. Offsets are words of
32 bits. -/
theorem fixAll_respaces {t : Text} (path : Option String) (h : (parse t).faults = [])
    (hfit : (respaced t).size ≤ 0xFFFFFFFF) {g : Registry} (hrules : g.rules = [rule]) (hsettings : g.settings = {}) :
    ∃ o, ({ registry := g } : FixEngine).fixAll (.ofText t path) = .ok o ∧ o.source.text = respaced t ∧
      o.source.tree.tokens.filter (fun u => u.kind != .whitespace && u.kind != .newline) =
        (parse t).tree.tokens.filter (fun u => u.kind != .whitespace && u.kind != .newline) ∧
      o.source.tree.erase = (parse t).tree.erase ∧
      (parse o.source.text).tree.erase = (parse t).tree.erase ∧ (parse o.source.text).faults = [] ∧
      ({ registry := g } : Dispatch).collectPrimary o.source false = .ok (o.leftovers.map (·.finding)) ∧
      o.leftovers.map (·.finding) = lasting t ∧
      ∀ l ∈ o.leftovers, (∃ reason, l.reason = .notApplicable reason) ∧
        ∃ z, keywordOf? o.source.tree l.finding.span = some z ∧
          (gap z).any (fun y => endsLine y || y.kind == .directive) = true := by
  rcases hphrase : phraseOf t with ⟨lead, ws, hlead⟩
  have hcells : (parse t).tree.cells .compilationUnit = lead ++ flatten ws := by
    have happend := Phrase.append_of ((parse t).tree.cells .compilationUnit)
    rw [← phraseOf, hphrase] at happend
    exact happend.symm
  have hlayout := layout_parse h
  rw [respaced, Cell.size_textOf, hphrase] at hfit
  rw [hcells] at hlayout
  obtain ⟨ds, htree, hfill, hds⟩ := hlayout.exists_children
  have hfound := @collectPrimary_eq { registry := g } hrules rfl (.ofText t path) _ _ htree hfill _ _ hlead hds
  have hverifies : g.settings.verifies = true := by
    rw [hsettings]
    rfl
  have hmax : ({ registry := g } : FixEngine).maxPasses = 3 := by
    simp only [FixEngine.maxPasses, hsettings]
    rfl
  obtain ⟨q, hpasses, hnew, hfindings, hreason⟩ :=
    passes_respace (e := { registry := g }) hrules rfl h hlead hcells rfl hverifies path hfit 1
  obtain ⟨es, htree', hfill', hes⟩ := hnew.exists_children
  obtain ⟨hsame, hread, hfaults⟩ := erase_of_respaced h hlead hcells hnew rfl
  refine ⟨⟨q.source, q.done, q.findings.map (fun f => ⟨f, FixEngine.reason { registry := g } q f⟩)⟩,
    ?_, ?_, ?_, hsame, hread, hfaults, ?_, ?_, ?_⟩
  · rw [FixEngine.fixAll, hfound, hmax]
    simp only [bind, Except.bind, hpasses]
    rfl
  · rw [Source.text, Tree.text_eq_textOf_cells .compilationUnit, hnew.cells, respaced, hphrase]
  · rw [filter_tokens hnew, filter_tokens hlayout, List.filter_append, List.filter_append, filter_respaceAll]
  · rw [collectPrimary_eq hrules rfl htree' hfill' hlead hes, List.map_map, ← hfindings]
    exact congrArg Except.ok (List.map_id _).symm
  · rw [lasting, hphrase, List.map_map, ← hfindings]
    exact List.map_id _
  · intro l hl
    obtain ⟨f, hf, rfl⟩ := List.mem_map.mp hl
    refine ⟨hreason f hf, ?_⟩
    rw [hfindings] at hf
    obtain ⟨pre, w, post, hsplit, hr, hw⟩ := exists_declined (editsFrom_respaceAll _ _) hf
    rw [hsplit, flatten, List.flatMap_append, ← List.append_assoc] at hnew
    rw [← Cell.extent_append] at hw
    exact keyword_of_declined hnew hr hw

def alone : Registry :=
  { settings := {}, rules := [rule], exempts := fun _ => false }

def throwing : Text :=
  "if(typeof (a))throw //\n;".toList

def throwFinding : Finding where
  rule := id
  span := ⟨19, 4⟩
  args := ["throw".toList, " not".toList, "followed".toList]
  secondary := [⟨14, 5⟩]

theorem fixAll_respaces_throwing : (parse throwing).faults = [] ∧
    ∃ o reason, ({ registry := alone } : FixEngine).fixAll (.ofText throwing none) = .ok o ∧
      o.source.text = "if (typeof(a))throw //\n;".toList ∧ o.leftovers = [⟨throwFinding, .notApplicable reason⟩] := by
  obtain ⟨hclean, hrespaced, hlasting⟩ : (parse throwing).faults = [] ∧
      respaced throwing = "if (typeof(a))throw //\n;".toList ∧ lasting throwing = [throwFinding] := by
    decide +kernel
  have hfit : (respaced throwing).size ≤ 0xFFFFFFFF := by
    rw [hrespaced]
    decide
  obtain ⟨o, ho, htext, -, -, -, -, -, hleft, hreasons⟩ := fixAll_respaces none hclean hfit (g := alone) rfl rfl
  rw [hlasting] at hleft
  obtain ⟨l, hl, hfinding⟩ := List.map_eq_singleton_iff.mp hleft
  obtain ⟨⟨reason, hreason⟩, -⟩ := hreasons l (by simp [hl])
  refine ⟨hclean, o, reason, ho, htext.trans hrespaced, ?_⟩
  rw [hl, ← hfinding, ← hreason]

end KeywordSpacing

end Lintel
