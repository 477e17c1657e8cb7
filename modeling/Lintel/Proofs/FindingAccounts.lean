import Mathlib.Data.List.Count
import Lintel.Proofs.BatchPermutation
import Lintel.Proofs.FixPasses

namespace Lintel

/-- The fixes of the rules give edits for the findings they are asked about. -/
def Registry.Faithful (g : Registry) : Prop :=
  ∀ rule ∈ g.rules, ∀ fix, rule.fix? = some fix → ∀ t f edit, fix t f = .ok edit → edit.finding = f

theorem Batch.nodup_accepted {root : Tree} {edits : List Edit}
    (hedits : ∀ e ∈ edits, ∀ f ∈ edits, e.finding = f.finding → e = f) :
    ((accepted root edits).map (·.finding)).Nodup := by
  rw [List.Nodup, List.pairwise_map]
  refine (pairwise_accepted root edits).imp_of_mem ?_
  intro e f he hf hclear hsame
  obtain rfl := hedits e (mem_accepted he) f (mem_accepted hf) hsame
  rw [Edit.conflicts_self (parts_ne_nil_of_accepted he)] at hclear
  cases hclear

theorem filterMap_sublist {α : Type} {g : α → Option α} (hg : ∀ a b, g a = some b → b = a) (l : List α) :
    (l.filterMap g).Sublist l := by
  induction l with
  | nil => exact .slnil
  | cons a l ih =>
    rw [List.filterMap_cons]
    cases ha : g a with
    | none => exact ih.cons a
    | some b =>
      obtain rfl := hg a b ha
      exact ih.cons_cons b

theorem Consistency.fixed_residuals {c : Consistency} {r : Revision} {issues : List Issue}
    (h : c.residuals r = .ok issues) : (issues.filterMap (·.fixed?)).Sublist r.applied := by
  rw [residuals] at h
  split at h
  · cases h
    exact List.nil_sublist _
  · obtain ⟨found, -, hissues⟩ := bind_eq_ok_iff.mp h
    cases hissues
    rw [List.filterMap_filterMap]
    refine filterMap_sublist (fun fixed again hsome => ?_) _
    obtain ⟨issue, hissue, hfixed⟩ := Option.bind_eq_some_iff.mp hsome
    obtain ⟨residual, -, rfl⟩ := Option.map_eq_some_iff.mp hissue
    exact (Option.some.inj hfixed).symm

theorem perm_filter_not_mem {α : Type} [DecidableEq α] {l s : List α} (hl : l.Nodup) (hs : s.Sublist l) :
    (l.filter (· ∉ s) ++ s).Perm l := by
  have hkept : (l.filter (· ∈ s)).Perm s := by
    rw [List.perm_ext_iff_of_nodup (hl.filter _) (hl.sublist hs)]
    intro a
    simpa using fun ha => hs.subset ha
  refine (hkept.symm.append_left _).trans (List.perm_append_comm.trans ?_)
  simpa using List.filter_append_perm (· ∈ s) l

namespace FixEngine

section Accounts

variable {e : FixEngine} (hfaithful : e.registry.Faithful) {source : Source}

include hfaithful

theorem finding_editOf? {t : Tree} {f : Finding} {edit : Edit} (h : e.editOf? t f = some edit) : edit.finding = f := by
  obtain ⟨fix, hof, hfix⟩ := Option.bind_eq_some_iff.mp h
  obtain ⟨rule, hget, hrule⟩ := Option.bind_eq_some_iff.mp hof
  cases hrun : fix t f with
  | error refusal => simp [hrun, Except.toOption] at hfix
  | ok made =>
    obtain rfl : made = edit := by simpa [hrun, Except.toOption] using hfix
    exact hfaithful rule (List.mem_of_find?_eq_some hget) fix hrule t f made hrun

theorem perm_editsFor {fs : List Finding} {edits : List Edit} {skipped : List Leftover}
    (h : e.editsFor source fs = .ok (edits, skipped)) :
    (edits.map (·.finding) ++ skipped.map (·.finding)).Perm fs := by
  induction fs generalizing edits skipped with
  | nil =>
    cases h
    exact .nil
  | cons f fs ih =>
    obtain ⟨edit, rest, hedit, hrest, rfl⟩ | ⟨reason, rest, -, hrest, rfl, -⟩ := editsFor_cons h
    · rw [List.map_cons, finding_editOf? hfaithful hedit]
      exact (ih hrest).cons f
    · exact List.perm_middle.trans ((ih hrest).cons f)

theorem eq_of_editsFor {fs : List Finding} {edits : List Edit} {skipped : List Leftover}
    (h : e.editsFor source fs = .ok (edits, skipped)) :
    ∀ edit ∈ edits, ∀ other ∈ edits, edit.finding = other.finding → edit = other := by
  rw [editsFor_eq h]
  intro edit hedit other hother hsame
  obtain ⟨f, -, hf⟩ := List.mem_filterMap.mp hedit
  obtain ⟨g, -, hg⟩ := List.mem_filterMap.mp hother
  rw [finding_editOf? hfaithful hf, finding_editOf? hfaithful hg] at hsame
  rw [hsame, hg] at hf
  exact (Option.some.inj hf).symm

theorem perm_apply {fs : List Finding} {edits : List Edit} {skipped : List Leftover} {r : Revision}
    (hedits : e.editsFor source fs = .ok (edits, skipped)) (happly : e.apply source edits = .ok r) :
    r.applied.Nodup ∧ (r.applied ++ (r.leftovers ++ skipped).map (·.finding)).Perm fs ∧
      ∀ l ∈ r.leftovers ++ skipped, l.reason ≠ .notIdempotent := by
  obtain ⟨happlied, hleft, -⟩ := Batch.apply_outcome (apply_ok happly)
  refine ⟨?_, ?_, ?_⟩
  · rw [happlied]
    exact Batch.nodup_accepted (eq_of_editsFor hfaithful hedits)
  · have hlength : (Batch.verdicts source.tree edits).length = edits.length := by simp [Batch.verdicts]
    have hmade := Batch.perm_kept_dropped hlength
    rw [Batch.kept_verdicts, ← happlied, ← hleft] at hmade
    rw [List.map_append, ← List.append_assoc]
    exact (hmade.append_right _).trans (perm_editsFor hfaithful hedits)
  · intro l hl
    obtain hl | hl := List.mem_append.mp hl
    · exact LeftReason.ne_of_isRefusal (refusal_dropped (hleft ▸ hl))
    · exact reason_editsFor hedits l hl

theorem perm_fixBatch {fs : List Finding} {r : Revision} (h : e.fixBatch source fs = .ok r) :
    r.applied.Nodup ∧ (r.applied ++ r.leftovers.map (·.finding)).Perm (fs.filter (!·.auxiliary)) ∧
      ∀ l ∈ r.leftovers, l.reason = .notIdempotent → l.finding ∉ r.applied := by
  obtain ⟨⟨edits, skipped⟩, hedits, hrest⟩ := bind_eq_ok_iff.mp h
  obtain ⟨r₀, happly, -⟩ := bind_eq_ok_iff.mp hrest
  obtain ⟨hnodup, hperm, hreason⟩ := perm_apply hfaithful hedits happly
  rw [fixBatch_eq hedits happly] at h
  split at h
  · obtain ⟨issues, hissues, rfl⟩ := verified_residuals h
    have hsub : (issues.filterMap (·.fixed?)).Sublist r₀.applied := Consistency.fixed_residuals hissues
    rw [applied_withdraw, leftovers_withdraw]
    refine ⟨hnodup.filter _, ?_, ?_⟩
    · refine List.Perm.trans ?_ hperm
      simp only [List.map_append, List.map_map, Function.comp_def, List.map_id']
      refine List.Perm.trans ?_ ((perm_filter_not_mem hnodup hsub).append_right _)
      rw [List.append_assoc (r₀.applied.filter _)]
      exact List.perm_append_comm.append_left _
    · intro l hl hagain
      obtain hl | hl := List.mem_append.mp hl
      · exact absurd hagain (hreason l hl)
      · obtain ⟨f, hf, rfl⟩ := List.mem_map.mp hl
        exact fun hkept => of_decide_eq_true (List.mem_filter.mp hkept).2 hf
  · cases h
    exact ⟨hnodup, hperm, fun l hl hagain => absurd hagain (hreason l hl)⟩

/-- A batch loses no finding and makes up none: each is fixed or left, in all as often as it was given, marks that go
with other findings are neither, nothing is fixed twice, and what was fixed in vain does not count as fixed. -/
theorem fixBatch_accounts {fs : List Finding} {r : Revision} (h : e.fixBatch source fs = .ok r) :
    (∀ f, f.auxiliary = false → r.applied.count f + (r.leftovers.map (·.finding)).count f = fs.count f) ∧
      (∀ f, f.auxiliary = true → f ∉ r.applied ∧ f ∉ r.leftovers.map (·.finding)) ∧
      r.applied.Nodup ∧
      ∀ l ∈ r.leftovers, l.reason = .notIdempotent → l.finding ∉ r.applied := by
  obtain ⟨hnodup, hperm, hvain⟩ := perm_fixBatch hfaithful h
  refine ⟨?_, ?_, hnodup, hvain⟩
  · intro f hf
    rw [← List.count_append, hperm.count_eq]
    exact List.count_filter (by simpa using hf)
  · intro f hf
    have hnot : f ∉ r.applied ++ r.leftovers.map (·.finding) := by
      rw [hperm.mem_iff, List.mem_filter]
      simp [hf]
    simpa only [List.mem_append, not_or] using hnot

end Accounts

end FixEngine

namespace Respelling

theorem faithful_rule {id : String} {name : Char} {better : Option Char} {fix : Tree → Finding → Except FixRefusal Edit}
    (h : (rule id name better).fix? = some fix) {t : Tree} {f : Finding} {edit : Edit} (hfix : fix t f = .ok edit) :
    edit.finding = f := by
  obtain rfl := Option.some.inj h
  cases better with
  | none => cases hfix
  | some c =>
    cases hfix
    rfl

def futile : FixEngine :=
  { registry := { settings := {}, exempts := fun _ => false
                  rules := [rule "x" 'x' (some 'x'), rule "y" 'y' (some 'z'), rule "z" 'z' none] } }

def mixed : List Finding :=
  [{ rule := "x", span := ⟨0, 1⟩ }, { rule := "y", span := ⟨2, 1⟩ }, { rule := "y", span := ⟨2, 1⟩ },
    { rule := "z", span := ⟨4, 1⟩ }, { rule := "x", span := ⟨0, 1⟩, auxiliary := true },
    { rule := "off", span := ⟨0, 1⟩ }]

theorem fixBatch_mixed : (futile.fixBatch (.ofText "x;y;z;".toList none) mixed).toOption.map
    (fun r => (r.edits, r.applied, r.leftovers.map (fun l => (l.finding.rule, l.reason)))) =
      some ([⟨"x", ⟨0, 1⟩, ['x']⟩], [],
        [("y", .conflict "y"), ("y", .conflict "y"), ("z", .notApplicable "no better name"),
        ("off", .noFix), ("x", .notIdempotent)]) := by
  decide +kernel

theorem fixBatch_accounts_mixed : futile.registry.Faithful ∧
    ∃ r, futile.fixBatch (.ofText "x;y;z;".toList none) mixed = .ok r ∧ r.edits = [⟨"x", ⟨0, 1⟩, ['x']⟩] ∧
      r.applied = [] ∧
      r.leftovers.map (fun l => (l.finding.rule, l.reason)) = [("y", .conflict "y"), ("y", .conflict "y"),
        ("z", .notApplicable "no better name"), ("off", .noFix), ("x", .notIdempotent)] ∧
      ∀ f, f.auxiliary = false → r.applied.count f + (r.leftovers.map (·.finding)).count f = mixed.count f := by
  have hfaithful : futile.registry.Faithful := by
    intro r hr fix hfix t f edit hedit
    simp only [futile, List.mem_cons, List.not_mem_nil, or_false] at hr
    obtain rfl | rfl | rfl := hr <;> exact faithful_rule hfix hedit
  refine ⟨hfaithful, ?_⟩
  obtain ⟨r, hr, heq⟩ := exists_ok_of_toOption_map fixBatch_mixed
  simp only [Prod.mk.injEq] at heq
  obtain ⟨hedits, happlied, hleft⟩ := heq
  exact ⟨r, hr, hedits, happlied, hleft, (FixEngine.fixBatch_accounts hfaithful hr).1⟩

end Respelling

end Lintel
