import Lintel.Dispatch
import Lintel.Proofs.Placement
import Lintel.Style.Builtin

namespace Lintel

def Rule.findings (r : Rule) (c : CheckContext) (z : Zipper) : List Finding :=
  match r.check c z with
  | .ok v => v.findings
  | .error _ => []

def Rule.Total (r : Rule) : Prop :=
  ∀ c z, ∃ v, r.check c z = .ok v

namespace Dispatch

def found (d : Dispatch) (source : Source) (z : Zipper) : List Finding :=
  (d.rulesFor z.kind).flatMap (·.findings ⟨source, d.registry.exempts⟩ z)

variable {d : Dispatch} (htotal : ∀ r ∈ d.registry.rules, r.Total)

theorem mem_rulesFor {r : Rule} {k : Kind} (h : r ∈ d.rulesFor k) : r ∈ d.registry.rules ∧ k ∈ r.kinds := by
  obtain ⟨s, hs, hr⟩ := List.mem_flatMap.mp (List.mem_filter.mp h).1
  obtain ⟨k', hk, rfl⟩ := List.mem_map.mp hr
  obtain ⟨hk, heq⟩ := List.mem_filter.mp hk
  exact ⟨hs, (beq_iff_eq.mp heq) ▸ hk⟩

theorem collectPrimary_cancelled (d : Dispatch) (source : Source) :
    d.collectPrimary source true = .error .cancelled := by
  have hpolls : d.polls 0 = true := by simp [polls]
  have hcancel : d.collect source true = .error .cancelled := by
    rw [collect]
    cases (Zipper.ofRoot source.tree).preorder <;> simp [collectFrom, hpolls]
  rw [collectPrimary, hcancel]
  rfl

theorem findings_of_runCheck {c : CheckContext} {z : Zipper} {r : Rule} {v : Verdict} (h : runCheck c z r = .ok v) :
    r.findings c z = v.findings := by
  rw [runCheck] at h
  rw [Rule.findings]
  split at h
  · rename_i hv
    rw [hv, Except.ok.inj h]
  all_goals cases h

theorem mem_found_of_visit {source : Source} {z : Zipper} {fs : List Finding} (h : d.visit source z = .ok fs)
    {f : Finding}
    (hf : f ∈ fs) : f ∈ d.found source z := by
  rw [visit] at h
  rw [found]
  generalize d.rulesFor z.kind = rs at h ⊢
  induction rs generalizing fs with
  | nil =>
    cases h
    exact hf
  | cons r rs ih =>
    rw [List.mapM_cons] at h
    cases hr : runCheck ⟨source, d.registry.exempts⟩ z r with
    | error e => rw [hr] at h; cases h
    | ok v =>
      cases hvs : rs.mapM (runCheck ⟨source, d.registry.exempts⟩ z) with
      | error e => rw [hr, hvs] at h; cases h
      | ok vs =>
        rw [hr, hvs] at h
        cases h
        rw [List.flatMap_cons, findings_of_runCheck hr]
        obtain hf | hf := List.mem_append.mp hf
        · exact List.mem_append_left _ hf
        · exact List.mem_append_right _ (ih hf (by rw [hvs]; rfl))

theorem mem_found_of_collectFrom {source : Source} {n : Nat} {zs : List Zipper} {fs : List Finding}
    (h : d.collectFrom source false n zs = .ok fs) {f : Finding} (hf : f ∈ fs) : ∃ z ∈ zs, f ∈ d.found source z := by
  induction zs generalizing n fs with
  | nil =>
    cases h
    cases hf
  | cons z zs ih =>
    rw [collectFrom, if_neg (by simp)] at h
    cases hz : d.visit source z with
    | error e => rw [hz] at h; cases h
    | ok found =>
      cases hzs : d.collectFrom source false (n + 1) zs with
      | error e => rw [hz, hzs] at h; cases h
      | ok rest =>
        rw [hz, hzs] at h
        cases h
        obtain hf | hf := List.mem_append.mp hf
        · exact ⟨z, List.mem_cons_self, mem_found_of_visit hz hf⟩
        · obtain ⟨y, hy, hmem⟩ := ih hzs hf
          exact ⟨y, List.mem_cons_of_mem _ hy, hmem⟩

theorem exists_rule_of_collectPrimary {source : Source} {cancelled : Bool} {fs : List Finding}
    (h : d.collectPrimary source cancelled = .ok fs) {f : Finding} (hf : f ∈ fs) :
    f.auxiliary = false ∧ ∃ z ∈ (Zipper.ofRoot source.tree).preorder, ∃ r ∈ d.registry.rules,
      f ∈ r.findings ⟨source, d.registry.exempts⟩ z := by
  cases cancelled with
  | true =>
    rw [collectPrimary_cancelled] at h
    cases h
  | false =>
    rw [collectPrimary] at h
    cases hall : d.collect source false with
    | error e => rw [hall] at h; cases h
    | ok all =>
      rw [hall] at h
      cases h
      obtain ⟨hf, haux⟩ := List.mem_filter.mp hf
      obtain ⟨z, hz, hmem⟩ := mem_found_of_collectFrom hall hf
      obtain ⟨r, hr, hfr⟩ := List.mem_flatMap.mp hmem
      exact ⟨by simpa using haux, z, hz, r, (mem_rulesFor hr).1, hfr⟩

include htotal

theorem visit_total (source : Source) (z : Zipper) : d.visit source z = .ok (d.found source z) := by
  have hrules : ∀ r ∈ d.rulesFor z.kind, r.Total := fun r hr => htotal r (mem_rulesFor hr).1
  rw [visit, found]
  generalize d.rulesFor z.kind = rs at hrules
  induction rs with
  | nil => rfl
  | cons r rs ih =>
    obtain ⟨v, hv⟩ := hrules r List.mem_cons_self ⟨source, d.registry.exempts⟩ z
    have hrest := ih fun s hs => hrules s (List.mem_cons_of_mem _ hs)
    have hrun : runCheck ⟨source, d.registry.exempts⟩ z r = .ok v := by rw [runCheck, hv]
    have hfind : r.findings ⟨source, d.registry.exempts⟩ z = v.findings := by rw [Rule.findings, hv]
    rw [List.mapM_cons, hrun, List.flatMap_cons, hfind]
    cases hvs : rs.mapM (runCheck ⟨source, d.registry.exempts⟩ z) with
    | error e =>
      rw [hvs] at hrest
      cases hrest
    | ok vs =>
      rw [hvs] at hrest
      rw [← Except.ok.inj hrest]
      rfl

theorem collectFrom_total (source : Source) (n : Nat) (zs : List Zipper) :
    d.collectFrom source false n zs = .ok (zs.flatMap (d.found source)) := by
  induction zs generalizing n with
  | nil => rfl
  | cons z zs ih => simp [collectFrom, visit_total htotal, ih, bind, Except.bind, pure, Except.pure]

theorem collectPrimary_total {source : Source} {cancelled : Bool} {fs : List Finding}
    (h : d.collectPrimary source cancelled = .ok fs) :
    fs = ((Zipper.ofRoot source.tree).preorder.flatMap (d.found source)).filter (!·.auxiliary) := by
  cases cancelled with
  | true =>
    rw [collectPrimary_cancelled] at h
    cases h
  | false =>
    rw [collectPrimary, collect, collectFrom_total htotal] at h
    exact (Except.ok.inj h).symm

end Dispatch

theorem builtin_total : ∀ r ∈ builtinRules, r.Total := by
  simp only [builtinRules, List.forall_mem_cons, List.not_mem_nil, false_implies, implies_true, and_true]
  exact ⟨fun c z => ⟨_, rfl⟩, fun c z => ⟨_, rfl⟩, fun c z => ⟨_, rfl⟩, fun c z => ⟨_, rfl⟩, fun c z => ⟨_, rfl⟩⟩

theorem Verdict.findings_ofFindings (fs : List Finding) : (ofFindings fs).findings = fs := by
  cases fs <;> rfl

theorem KeywordSpacing.rule_of_check {z : Zipper} {f : Finding} (h : f ∈ (check z).findings) : f.rule = id := by
  rw [check] at h
  split at h
  · cases h
  · split at h
    · cases h
    · rw [List.mem_singleton.mp h]
      rfl
    · rw [List.mem_singleton.mp h]
      rfl
    · cases h

theorem Parentheses.of_check {z : Zipper} {f : Finding} (h : f ∈ (check z).findings) (haux : f.auxiliary = false) :
    f.rule = id ∧ f.span = z.span ∧ z.isToken = false ∧ z.kind = .parenExpr := by
  rw [check] at h
  split at h
  · cases h
  · rename_i hz
    split at h
    · split at h
      · cases h
      · split at h
        · simp only [Verdict.findings, List.mem_cons, List.not_mem_nil, or_false] at h
          obtain rfl | rfl | rfl := h
          · simpa using hz
          · cases haux
          · cases haux
        · cases h
    · cases h

theorem Casing.rule_of_check {c : CheckContext} {z : Zipper} {f : Finding} (h : f ∈ (check c z).findings) :
    f.rule = id := by
  rw [check] at h
  split at h
  · cases h
  · rw [Verdict.findings_ofFindings] at h
    obtain ⟨n, -, rfl⟩ := List.mem_map.mp h
    rfl

theorem AccessorLines.rule_of_check {c : CheckContext} {z : Zipper} {f : Finding} (h : f ∈ (check c z).findings) :
    f.rule = id := by
  rw [check] at h
  split at h
  · cases h
  · split at h
    · dsimp only at h
      split at h
      · cases h
      · rw [List.mem_singleton.mp h]
    · cases h

theorem SummaryText.rule_of_check {z : Zipper} {f : Finding} (h : f ∈ (check z).findings) : f.rule = id := by
  rw [check] at h
  split at h
  · cases h
  · split at h
    · cases h
    · split at h
      · cases h
      · split at h
        · rw [List.mem_singleton.mp h]
        · cases h

theorem rule_of_builtin : ∀ r ∈ builtinRules, ∀ c z, ∀ f ∈ r.findings c z, f.auxiliary = false → f.rule = r.id := by
  simp only [builtinRules, List.forall_mem_cons, List.not_mem_nil, false_implies, implies_true, and_true]
  refine ⟨?_, ?_, ?_, ?_, ?_⟩ <;> intro c z f hf haux
  · exact KeywordSpacing.rule_of_check hf
  · exact (Parentheses.of_check hf haux).1
  · exact Casing.rule_of_check hf
  · exact AccessorLines.rule_of_check hf
  · exact SummaryText.rule_of_check hf

end Lintel
