import Lintel.Proofs.FixPasses
import Lintel.Proofs.Pruning
import Lintel.Proofs.SpacingMarks

namespace Lintel

namespace Parentheses

def findingsAt (z : Zipper) : List Finding :=
  (check z).findings.filter (!·.auxiliary)

theorem findings_check (z : Zipper) : (check z).findings = [] ∨ ∃ l r, (check z).findings = [
    { rule := id, span := z.span, secondary := [l, r] }, { rule := markId, span := l, auxiliary := true },
    { rule := markId, span := r, auxiliary := true }] := by
  rw [check]
  split
  · exact .inl rfl
  · split
    · split
      · exact .inl rfl
      · split
        · exact .inr ⟨_, _, rfl⟩
        · exact .inl rfl
    · exact .inl rfl

theorem findingsAt_eq {z : Zipper} (h : (check z).findings ≠ []) :
    ∃ f, findingsAt z = [f] ∧ f.rule = id ∧ f.span = z.span := by
  obtain hnone | ⟨l, r, heq⟩ := findings_check z
  · exact absurd hnone h
  · exact ⟨_, by rw [findingsAt, heq]; rfl, rfl, rfl⟩

theorem kind_of_findings {z : Zipper} (h : (check z).findings ≠ []) : z.isToken = false ∧ z.kind = .parenExpr := by
  rw [check] at h
  split at h
  · exact absurd rfl h
  · rename_i hz
    simpa using hz

end Parentheses

theorem KeywordSpacing.auxiliary_of_check {z : Zipper} {f : Finding} (h : f ∈ (check z).findings) :
    f.auxiliary = false := by
  rw [check] at h
  split at h
  · cases h
  · split at h
    · cases h
    · rw [List.mem_singleton.mp h]
      rfl
    · rw [List.mem_singleton.mp h]
      rfl
    · cases h

def Rule.found (r : Rule) (c : CheckContext) (z : Zipper) : List Finding :=
  ((r.kinds.filter (· == z.kind)).map (fun _ => r)).flatMap (·.findings c z)

theorem Dispatch.found_all (g : Registry) (source : Source) (z : Zipper) :
    ({ registry := g } : Dispatch).found source z = g.rules.flatMap (·.found ⟨source, g.exempts⟩ z) := by
  have hfor : ({ registry := g } : Dispatch).rulesFor z.kind =
    g.rulesFor z.kind := List.filter_eq_self.mpr fun _ _ => rfl
  rw [Dispatch.found, hfor, Registry.rulesFor, List.flatMap_assoc]
  rfl

section Builtin

open Parentheses

variable {e : FixEngine} (hrules : e.registry.rules = builtinRules) (c : CheckContext) (z : Zipper)

theorem filter_found_unfixed {r : Rule} (hr : r ∈ builtinRules)
    (hfix : ∀ f : Finding, f.rule = r.id → e.fixOf? f = none) :
    (r.found c z).filter (fun f => (e.fixOf? f).isSome && !f.auxiliary) = [] := by
  rw [List.filter_eq_nil_iff]
  intro f hf
  obtain ⟨s, hs, hmem⟩ := List.mem_flatMap.mp hf
  obtain ⟨k, -, rfl⟩ := List.mem_map.mp hs
  cases haux : f.auxiliary with
  | true => simp
  | false => simp [hfix f (rule_of_builtin _ hr _ z f hmem haux)]

include hrules

theorem fixOf?_keyword {f : Finding} (hf : f.rule = KeywordSpacing.id) : e.fixOf? f = some KeywordSpacing.fix := by
  rw [FixEngine.fixOf?, Registry.get?, hrules, hf]
  rfl

theorem filter_found_keyword : (KeywordSpacing.rule.found c z).filter (fun f => (e.fixOf? f).isSome && !f.auxiliary) =
    KeywordSpacing.findingsAt z := by
  have hkinds : KeywordSpacing.rule.kinds.filter (· == z.kind) = if z.kind ∈ KeywordSpacing.kinds then
    [z.kind] else [] := by
    have hnodup : KeywordSpacing.kinds.Nodup := by decide
    rw [show KeywordSpacing.rule.kinds = KeywordSpacing.kinds from rfl, List.filter_beq, hnodup.count]
    split <;> rfl
  rw [Rule.found, hkinds, KeywordSpacing.findingsAt]
  split
  · rw [List.map_singleton, List.flatMap_singleton]
    refine List.filter_eq_self.mpr fun f hf => ?_
    rw [fixOf?_keyword hrules (KeywordSpacing.rule_of_check hf), KeywordSpacing.auxiliary_of_check hf]
    rfl
  · rfl

theorem filter_found_parens :
    (rule.found c z).filter (fun f => (e.fixOf? f).isSome && !f.auxiliary) = findingsAt z := by
  by_cases hk : z.kind = .parenExpr
  · have hone : (rule.kinds.filter (· == z.kind)).map (fun _ => rule) = [rule] := by rw [hk]; rfl
    rw [Rule.found, hone, List.flatMap_singleton, findingsAt]
    refine List.filter_congr fun f hf => ?_
    cases haux : f.auxiliary with
    | true => simp
    | false => rw [fixOf?_builtin hrules (of_check hf haux).1]; rfl
  · have hnil : rule.kinds.filter (· == z.kind) = [] := by
      have hne : (Kind.parenExpr == z.kind) = false := beq_eq_false_iff_ne.mpr (Ne.symm hk)
      rw [show rule.kinds = [.parenExpr] from rfl, List.filter_cons, hne]
      rfl
    rw [Rule.found, hnil, findingsAt]
    by_contra hne
    refine hk (kind_of_findings (z := z) fun hempty => hne ?_).2
    rw [hempty]
    rfl

theorem filter_found (source : Source) :
    (({ registry := e.registry } : Dispatch).found source z).filter (fun f => (e.fixOf? f).isSome && !f.auxiliary) =
      KeywordSpacing.findingsAt z ++ findingsAt z := by
  have hnone (r : Rule) (hr : r ∈ builtinRules) (hfix : r.fix? = none)
    (hget : builtinRules.find? (·.id == r.id) = some r) :
      (r.found ⟨source, e.registry.exempts⟩ z).filter (fun f => (e.fixOf? f).isSome && !f.auxiliary) = [] := by
    refine filter_found_unfixed _ z hr fun f hf => ?_
    rw [FixEngine.fixOf?, Registry.get?, hrules, hf, hget]
    exact hfix
  have hcasing := hnone Casing.rule (by simp [builtinRules]) rfl rfl
  have hlines := hnone AccessorLines.rule (by simp [builtinRules]) rfl rfl
  have hsummary := hnone SummaryText.rule (by simp [builtinRules]) rfl rfl
  rw [Dispatch.found_all, hrules, List.filter_flatMap]
  simp only [builtinRules, List.flatMap_cons, List.flatMap_nil, filter_found_keyword hrules,
    filter_found_parens hrules, hcasing, hlines, hsummary, List.append_nil]

theorem fixable_builtin {p : FixEngine.Pass} (hblocked : p.blocked = [])
    (hfound : ({ registry := e.registry } : Dispatch).collectPrimary p.source e.cancelled = .ok p.findings) :
    e.fixable p = (Zipper.ofRoot p.source.tree).preorder.flatMap
      (fun z => KeywordSpacing.findingsAt z ++ findingsAt z) := by
  have htotal : ∀ r ∈ e.registry.rules, r.Total := by rw [hrules]; exact builtin_total
  have hcongr : ∀ f : Finding, ((e.fixOf? f).isSome && !p.isBlocked f && !f.auxiliary) =
    ((e.fixOf? f).isSome && !f.auxiliary) := by
    intro f
    rw [FixEngine.Pass.isBlocked, hblocked]
    simp
  rw [FixEngine.fixable, Dispatch.collectPrimary_total htotal hfound, List.filter_filter]
  simp only [hcongr]
  rw [List.filter_flatMap]
  exact List.flatMap_congr fun z _ => filter_found hrules z p.source

theorem edits_of_fixable {p : FixEngine.Pass} (hblocked : p.blocked = [])
    (hfound : ({ registry := e.registry } : Dispatch).collectPrimary p.source e.cancelled = .ok p.findings)
    {edits : List Edit} {skipped : List Leftover}
    (h : e.editsFor p.source ((e.fixable p).filter (!·.auxiliary)) = .ok (edits, skipped)) :
    edits = ((Zipper.ofRoot p.source.tree).preorder.flatMap
      (fun z => KeywordSpacing.findingsAt z ++ findingsAt z)).filterMap (e.editOf? p.source.tree) := by
  have htotal : ∀ r ∈ e.registry.rules, r.Total := by rw [hrules]; exact builtin_total
  have hprimary : (e.fixable p).filter (!·.auxiliary) = e.fixable p := by
    rw [List.filter_eq_self]
    intro f hf
    rw [FixEngine.fixable, Dispatch.collectPrimary_total htotal hfound] at hf
    exact (List.mem_filter.mp (List.mem_filter.mp hf).1).2
  rw [hprimary] at h
  rw [FixEngine.editsFor_eq h, fixable_builtin hrules hblocked hfound]

omit hrules in
theorem flatMap_findingsAt_preorder {k : Kind} {bs : List Tree} {t : Tree} {lead : List Cell} {ws : List Word}
    (h : Layout k bs t (lead ++ Word.flatten ws)) (hlead : ∀ c ∈ lead, c.isTrivia = true) :
    (Zipper.ofRoot t).preorder.flatMap KeywordSpacing.findingsAt = KeywordSpacing.findings (Cell.extent lead) ws := by
  obtain ⟨ds, rfl, hfill, hds⟩ := h.exists_children
  rw [Zipper.preorder, Zipper.ofRoot, Zipper.flatMap_preorderOf KeywordSpacing.findingsAt_node, ← Zipper.leaves,
    KeywordSpacing.findings_leaves hfill hlead hds]

theorem filterMap_keywords {k : Kind} {bs : List Tree} {t : Tree} {pre : List Cell} {ws : List Word}
    (h : Layout k bs t (pre ++ Word.flatten ws)) :
    (KeywordSpacing.findings (Cell.extent pre) ws).filterMap (e.editOf? t) =
      KeywordSpacing.editsFrom (Cell.extent pre) ws := by
  induction ws generalizing pre with
  | nil => rfl
  | cons w ws ih =>
    have hsplit : Layout k bs t ((pre ++ w.cells) ++ Word.flatten ws) := by simpa [Word.cells] using h
    have hrest := ih hsplit
    rw [Cell.extent_append] at hrest
    rw [KeywordSpacing.findings, KeywordSpacing.editsFrom, List.filterMap_append, hrest]
    congr 1
    cases hf : KeywordSpacing.finding? (Cell.extent pre) w ws with
    | none => simp
    | some f =>
      have hfix := KeywordSpacing.fix_word h hf
      have hof := fixOf?_keyword hrules (KeywordSpacing.rule_of_finding? hf)
      by_cases hr : KeywordSpacing.ruling w ws = .decline
      · rw [if_pos hr] at hfix
        simp [FixEngine.editOf?, hof, hfix, hr, Except.toOption]
      · rw [if_neg hr] at hfix
        simp [FixEngine.editOf?, hof, hfix, hr, Except.toOption]

end Builtin

theorem Dispatch.mem_findingsAt {d : Dispatch} (hrules : d.registry.rules = builtinRules) {source : Source} {z : Zipper}
    {f : Finding} (hf : f ∈ d.found source z) (haux : f.auxiliary = false) :
    (f.rule = KeywordSpacing.id → f ∈ KeywordSpacing.findingsAt z) ∧
      (f.rule = Parentheses.id → f ∈ Parentheses.findingsAt z) := by
  obtain ⟨r, hr, hmem⟩ := List.mem_flatMap.mp hf
  obtain ⟨hrule, hkind⟩ := mem_rulesFor hr
  rw [hrules] at hrule
  have hid := rule_of_builtin r hrule _ z f hmem haux
  simp only [builtinRules, List.mem_cons, List.not_mem_nil, or_false] at hrule
  rw [hid]
  obtain rfl | rfl | rfl | rfl | rfl := hrule
  · refine ⟨fun _ => ?_, fun hne => absurd hne (by decide)⟩
    rw [KeywordSpacing.findingsAt, if_pos (show z.kind ∈ KeywordSpacing.kinds from hkind)]
    exact hmem
  · exact ⟨fun hne => absurd hne (by decide), fun _ => List.mem_filter.mpr ⟨hmem, by simp [haux]⟩⟩
  · exact ⟨fun hne => absurd hne (by decide), fun hne => absurd hne (by decide)⟩
  · exact ⟨fun hne => absurd hne (by decide), fun hne => absurd hne (by decide)⟩
  · exact ⟨fun hne => absurd hne (by decide), fun hne => absurd hne (by decide)⟩

namespace Parentheses

open Zipper

def goneAt (z : Zipper) : List Zipper :=
  if (check z).findings.isEmpty then []
  else
    match z.openParen?, z.closeParen? with
    | some l, some r => padding l r ++ [l, r]
    | _, _ => []

def goneIn (t : Tree) : List Zipper :=
  (ofRoot t).preorder.flatMap goneAt

theorem goneAt_parens {p : Parens} (h : (check p.zipper).findings ≠ []) : goneAt p.zipper = p.gone := by
  rw [goneAt, if_neg (by rwa [List.isEmpty_iff]), p.openParen?_zipper, p.closeParen?_zipper]
  rfl

section Faultless

variable {t : Text} (h : (parse t).faults = [])

include h

theorem exists_reported {z : Zipper} (hroot : z.root = (parse t).tree) (hz : (check z).findings ≠ []) :
    ∃ p : Parens, p.zipper = z :=
  exists_parens_at h hroot (kind_of_findings hz)

theorem exists_edit {e : FixEngine} (hfixes : ∀ f : Finding, f.rule = id → e.fixOf? f = some fix) {p : Parens}
    (hroot : p.zipper.root = (parse t).tree) (hz : (check p.zipper).findings ≠ []) :
    ∃ f, findingsAt p.zipper = [f] ∧ f.rule = id ∧ f.span = p.zipper.span ∧
      e.editOf? (parse t).tree f = some ⟨f, p.gone.map takingPart⟩ := by
  obtain ⟨f, hf, hid, hspan⟩ := findingsAt_eq hz
  obtain ⟨-, -, htrivia⟩ := gone_parens h hroot
  have hfix := p.fix_zipper (full_children h hroot) hspan htrivia
  rw [hroot] at hfix
  refine ⟨f, hf, hid, hspan, ?_⟩
  rw [FixEngine.editOf?, hfixes f hid, Option.bind_some, hfix]
  rfl

theorem tagged_parens {e : FixEngine} (hrules : e.registry.rules = builtinRules) :
    Batch.tagged (((ofRoot (parse t).tree).preorder.flatMap findingsAt).filterMap (e.editOf? (parse t).tree)) =
      (goneIn (parse t).tree).map (fun z => (id, z.takingPart)) ∧
    ∀ edit ∈ ((ofRoot (parse t).tree).preorder.flatMap findingsAt).filterMap (e.editOf? (parse t).tree),
      edit.parts ≠ [] := by
  have hedits (z : Zipper) (hmem : z ∈ (ofRoot (parse t).tree).preorder) :
      Batch.tagged ((findingsAt z).filterMap (e.editOf? (parse t).tree)) =
        (goneAt z).map (fun y => (id, y.takingPart)) ∧
      ∀ edit ∈ (findingsAt z).filterMap (e.editOf? (parse t).tree), edit.parts ≠ [] := by
    have hroot : z.root = (parse t).tree := root_preorderOf [] _ z hmem
    by_cases hz : (check z).findings = []
    · rw [findingsAt, goneAt, hz]
      refine ⟨rfl, fun edit hedit => ?_⟩
      cases hedit
    · obtain ⟨p, rfl⟩ := exists_reported h hroot hz
      obtain ⟨f, hf, hid, -, hedit⟩ := exists_edit h (fun _ => fixOf?_builtin hrules) hroot hz
      rw [hf, goneAt_parens hz, List.filterMap_cons, hedit]
      refine ⟨by simp [Batch.tagged, Edit.rule, hid], ?_⟩
      intro edit hmem
      obtain rfl := List.mem_singleton.mp hmem
      simp [Parens.gone]
  rw [List.filterMap_flatMap]
  constructor
  · rw [Batch.tagged, List.flatMap_assoc, goneIn, List.map_flatMap]
    exact List.flatMap_congr fun z hz => (hedits z hz).1
  · intro edit hmem
    obtain ⟨z, hz, hedit⟩ := List.mem_flatMap.mp hmem
    exact (hedits z hz).2 edit hedit

end Faultless

end Parentheses

end Lintel
