import Lintel.Proofs.FindingAccounts
import Lintel.Proofs.SettledRuns

namespace Lintel

namespace Revision

def carry (rs : List Revision) (s : Span) : Span :=
  rs.foldl (fun s r => r.offsets.mapSpan s) s

/-- One of the revisions reports a finding of a rule that was fixed in vain, and the place of the finding has come to
this span by the end. -/
def FixedInVain (rs : List Revision) (rule : String) (s : Span) : Prop :=
  ∃ earlier r later, rs = earlier ++ r :: later ∧
    ∃ l ∈ r.leftovers, l.reason = .notIdempotent ∧ l.finding.rule = rule ∧ carry (r :: later) l.finding.span = s

theorem FixedInVain.revise {rs : List Revision} {rule : String} {s : Span} (h : FixedInVain rs rule s) (r : Revision) :
    FixedInVain (rs ++ [r]) rule (r.offsets.mapSpan s) := by
  obtain ⟨earlier, r', later, rfl, l, hl, hvain, hrule, rfl⟩ := h
  refine ⟨earlier, r', later ++ [r], by simp, l, hl, hvain, hrule, ?_⟩
  rw [← List.cons_append, carry, carry, List.foldl_append]
  rfl

end Revision

namespace FixEngine

section Refusals

variable {e : FixEngine} {source : Source}

theorem refusal_editsFor {fs : List Finding} {edits : List Edit} {skipped : List Leftover}
    (h : e.editsFor source fs = .ok (edits, skipped)) (hfix : ∀ f ∈ fs, (e.fixOf? f).isSome = true) :
    ∀ l ∈ skipped, l.reason.isRefusal = true := by
  induction fs generalizing edits skipped with
  | nil =>
    cases h
    exact List.forall_mem_nil _
  | cons f fs ih =>
    obtain ⟨hf, hfs⟩ := List.forall_mem_cons.mp hfix
    obtain ⟨edit, rest, -, hrest, -⟩ | ⟨reason, rest, -, hrest, rfl, hreason⟩ := editsFor_cons h
    · exact ih hrest hfs
    · refine List.forall_mem_cons.mpr ⟨?_, ih hrest hfs⟩
      obtain ⟨-, hnone⟩ | ⟨text, rfl⟩ := hreason
      · rw [hnone] at hf
        cases hf
      · rfl

theorem leftovers_fixBatch {fs : List Finding} {r : Revision} (h : e.fixBatch source fs = .ok r) :
    ∃ edits skipped, ∃ again : List Finding, e.editsFor source (fs.filter (!·.auxiliary)) = .ok (edits, skipped) ∧
      r.leftovers = Batch.dropped edits (Batch.verdicts source.tree edits) ++ skipped ++
        again.map (⟨·, .notIdempotent⟩) := by
  obtain ⟨⟨edits, skipped⟩, hedits, hrest⟩ := bind_eq_ok_iff.mp h
  obtain ⟨r₀, happly, -⟩ := bind_eq_ok_iff.mp hrest
  obtain ⟨-, hleft, -⟩ := Batch.apply_outcome (apply_ok happly)
  rw [fixBatch_eq hedits happly] at h
  split at h
  · obtain ⟨issues, -, rfl⟩ := verified_residuals h
    exact ⟨edits, skipped, _, hedits, by rw [leftovers_withdraw, hleft]⟩
  · cases h
    exact ⟨edits, skipped, [], hedits, by simp [hleft]⟩

theorem refusal_fixBatch {fs : List Finding} {r : Revision} (h : e.fixBatch source fs = .ok r)
    (hfix : ∀ f ∈ fs, (e.fixOf? f).isSome = true) {l : Leftover} (hl : l ∈ r.leftovers)
    (hreason : l.reason ≠ .notIdempotent) : l.reason.isRefusal = true := by
  obtain ⟨edits, skipped, again, hedits, hleft⟩ := leftovers_fixBatch h
  rw [hleft, List.mem_append, List.mem_append] at hl
  obtain (hl | hl) | hl := hl
  · exact refusal_dropped hl
  · exact refusal_editsFor hedits (fun f hf => hfix f (List.mem_filter.mp hf).1) l hl
  · obtain ⟨f, -, rfl⟩ := List.mem_map.mp hl
    exact absurd rfl hreason

theorem primary_survey {fs : List Finding} (h : e.survey source = .ok fs) : ∀ f ∈ fs, f.auxiliary = false := by
  intro f hf
  rw [survey, Dispatch.collectPrimary] at h
  cases hcollect : ({ registry := e.registry } : Dispatch).collect source e.cancelled with
  | error failure =>
    rw [hcollect] at h
    cases h
  | ok found =>
    rw [hcollect] at h
    cases h
    simpa using (List.mem_filter.mp hf).2

end Refusals

structure Pass.Kept (p : Pass) : Prop where
  blocked : ∀ b ∈ p.blocked, Revision.FixedInVain p.done b.1 b.2
  left : ∀ x ∈ p.left, x.2.2.isRefusal = true

theorem Pass.Kept.revise {e : FixEngine} {p : Pass} {r : Revision} (hp : p.Kept)
    (hbatch : e.fixBatch p.source (e.fixable p) = .ok r) : (p.revise r).Kept := by
  have hfix : ∀ f ∈ e.fixable p, (e.fixOf? f).isSome = true := by
    intro f hf
    exact (Bool.and_eq_true_iff.mp (List.mem_filter.mp hf).2).1
  constructor
  · intro b hb
    obtain hb | hb := List.mem_append.mp hb
    · obtain ⟨b', hb', rfl⟩ := List.mem_map.mp hb
      exact (hp.blocked b' hb').revise r
    · obtain ⟨l, hl, rfl⟩ := List.mem_map.mp hb
      obtain ⟨hl, hvain⟩ := List.mem_filter.mp hl
      exact ⟨p.done, r, [], rfl, l, hl, beq_iff_eq.mp hvain, rfl, rfl⟩
  · intro x hx
    obtain ⟨l, hl, rfl⟩ := List.mem_map.mp hx
    obtain ⟨hl, hother⟩ := List.mem_filter.mp hl
    exact refusal_fixBatch hbatch hfix hl (bne_iff_ne.mp hother)

theorem Passing.kept {e : FixEngine} {n : Nat} {p q : Pass} {halt : Halt} (h : e.Passing n p q halt) (hp : p.Kept) :
    q.Kept := by
  induction h with
  | nothingFixable | limitReached => exact hp
  | nothingChanged hsome hbatch hchanged => exact hp.revise hbatch
  | changed hsome hbatch hchanged hfound hrest ih =>
    obtain ⟨hblocked, hleft⟩ := hp.revise hbatch
    exact ih ⟨hblocked, hleft⟩

theorem reason_cases (e : FixEngine) (p : Pass) (f : Finding) :
    (e.fixOf? f = none ∧ e.reason p f = .noFix) ∨
    (e.fixOf? f ≠ none ∧ p.isBlocked f = true ∧ e.reason p f = .notIdempotent) ∨
    (e.fixOf? f ≠ none ∧ p.isBlocked f = false ∧
      ∃ x ∈ p.left, x.1 = f.rule ∧ x.2.1 = f.span ∧ e.reason p f = x.2.2) ∨
    (e.fixOf? f ≠ none ∧ p.isBlocked f = false ∧ (∀ x ∈ p.left, x.1 = f.rule → x.2.1 ≠ f.span) ∧
      e.reason p f = .passLimit) := by
  unfold reason
  cases hfix : e.fixOf? f with
  | none => exact .inl ⟨rfl, rfl⟩
  | some fix =>
    right
    have hsome : some fix ≠ none := Option.some_ne_none fix
    cases hblocked : p.isBlocked f with
    | true => exact .inl ⟨hsome, rfl, rfl⟩
    | false =>
      right
      cases hfind : p.left.find? (fun l => l.1 == f.rule && l.2.1 == f.span) with
      | some x =>
        have hx := List.find?_some hfind
        rw [Bool.and_eq_true_iff, beq_iff_eq, beq_iff_eq] at hx
        exact .inl ⟨hsome, rfl, x, List.mem_of_find?_eq_some hfind, hx.1, hx.2, rfl⟩
      | none =>
        refine .inr ⟨hsome, rfl, ?_, rfl⟩
        intro x hx hrule hspan
        have hnot := List.find?_eq_none.mp hfind x hx
        simp [hrule, hspan] at hnot

theorem exists_left_of_unchanged {e : FixEngine} (hfaithful : e.registry.Faithful) {p : Pass} {r : Revision}
    (hp : p.Fitting) (hbatch : e.fixBatch p.source (e.fixable p) = .ok r) (hchanged : r.isChanged = false)
    {f : Finding} (hf : f ∈ p.findings) (haux : f.auxiliary = false) (hfix : e.fixOf? f ≠ none)
    (hfree : (p.revise r).isBlocked f = false) (hfit : f.span.stop ≤ 0xFFFFFFFF) :
    ∃ x ∈ (p.revise r).left, x.1 = f.rule ∧ x.2.1 = f.span := by
  obtain ⟨-, hoffsets, hleft⟩ := fixBatch_unchanged hbatch hchanged
  -- What could be fixed was tried, and what was tried is left, since nothing was fixed.
  have htried : f ∈ (e.fixable p).filter (!·.auxiliary) := by
    rw [Pass.isBlocked, Pass.blocked_revise hp hoffsets hleft] at hfree
    have hopen : p.isBlocked f = false := hfree
    refine List.mem_filter.mpr ⟨List.mem_filter.mpr ⟨hf, ?_⟩, by rw [haux]; rfl⟩
    rw [hopen, Option.isSome_iff_ne_none.mpr hfix]
    rfl
  have hnone : r.applied = [] := by
    obtain ⟨edits, skipped, r₀, -, happly, -, -, hr⟩ := fixBatch_outcome hbatch
    obtain rfl := hr hchanged
    obtain ⟨happlied, -⟩ := Batch.apply_outcome happly
    have hempty := accepted_of_unchanged happly (by simpa [Revision.isChanged] using hchanged)
    exact happlied.trans (by rw [hempty]; rfl)
  obtain ⟨-, hperm, -⟩ := perm_fixBatch hfaithful hbatch
  rw [← hperm.mem_iff, hnone, List.nil_append, List.mem_map] at htried
  obtain ⟨l, hl, rfl⟩ := htried
  refine ⟨(l.finding.rule, r.offsets.mapSpan l.finding.span, l.reason), ?_, rfl, ?_⟩
  · exact List.mem_map.mpr ⟨l, List.mem_filter.mpr ⟨hl, bne_iff_ne.mpr (hleft l hl)⟩, rfl⟩
  · rw [hoffsets]
    exact OffsetMap.mapSpan_nil hfit

theorem Passing.limitReached_of_reason {e : FixEngine} (hfaithful : e.registry.Faithful) {n : Nat} {p q : Pass}
    {halt : Halt} (h : e.Passing n p q halt) (hp : p.Fitting) (hfound : e.survey p.source = .ok p.findings)
    {f : Finding} (hf : f ∈ q.findings) (hfit : f.span.stop ≤ 0xFFFFFFFF) (hfix : e.fixOf? f ≠ none)
    (hfree : q.isBlocked f = false) (hleft : ∀ x ∈ q.left, x.1 = f.rule → x.2.1 ≠ f.span) : halt = .limitReached := by
  obtain ⟨hlast, -⟩ := h.chain hfound
  cases halt with
  | limitReached => rfl
  | nothingFixable =>
    have hnone := List.filter_eq_nil_iff.mp (h.fixable_eq_nil rfl) f hf
    rw [hfree, Option.isSome_iff_ne_none.mpr hfix] at hnone
    exact absurd rfl hnone
  | nothingChanged =>
    obtain ⟨p', r, hfits, -, hbatch, hchanged, rfl⟩ := h.last rfl hp
    obtain ⟨x, hx, hrule, hspan⟩ := exists_left_of_unchanged hfaithful hfits hbatch hchanged hf
      (primary_survey hlast f hf) hfix hfree hfit
    exact absurd hspan (hleft x hx hrule)

theorem Passing.getLast_changed {e : FixEngine} {n : Nat} {p q : Pass} {halt : Halt} (h : e.Passing n p q halt)
    (hhalt : halt = .limitReached) :
    (n = 0 ∧ q.done = p.done) ∨ ∃ r, q.done.getLast? = some r ∧ r.isChanged = true := by
  induction h with
  | nothingFixable | nothingChanged => cases hhalt
  | limitReached => exact .inl ⟨rfl, rfl⟩
  | @changed n p q r found halt hsome hbatch hchanged hfound hrest ih =>
    right
    obtain ⟨-, hdone⟩ | hlast := ih hhalt
    · refine ⟨r, ?_, hchanged⟩
      rw [hdone]
      exact List.getLast?_concat
    · exact hlast

/-- The reasons for which findings are left after fixing a file. A finding is left for want of a fix exactly if its rule
has none. The number of passes is the reason only if all passes were made and the last one made an edit. A finding was
fixed in vain only if some pass said so of a finding of its rule, and the place of that one, carried along with all that
was done from then on, meets its own. Spans are of words of 32 bits. -/
theorem fixAll_explains {e : FixEngine} (hfaithful : e.registry.Faithful) {source : Source} {o : FixOutcome}
    (h : e.fixAll source = .ok o) (hfit : ∀ l ∈ o.leftovers, l.finding.span.stop ≤ 0xFFFFFFFF) :
    ∀ l ∈ o.leftovers,
      (l.reason = .noFix ↔ e.fixOf? l.finding = none) ∧
      (l.reason = .passLimit → o.passes.length = e.maxPasses ∧ ∃ r, o.passes.getLast? = some r ∧ r.edits ≠ []) ∧
      (l.reason = .notIdempotent →
        ∃ s, Revision.FixedInVain o.passes l.finding.rule s ∧ s.meets l.finding.span = true) := by
  obtain ⟨halt, found, q, hfound, hpassing, rfl⟩ := fixAll_eq_ok_iff.mp h
  intro l hl
  have hspan := hfit l hl
  obtain ⟨f, hf, rfl⟩ := List.mem_map.mp hl
  have hkept := hpassing.kept ⟨List.forall_mem_nil _, List.forall_mem_nil _⟩
  dsimp only at hspan ⊢
  obtain ⟨hnone, hreason⟩ | ⟨hfix, hblocked, hreason⟩ | ⟨hfix, -, x, hx, -, -, hreason⟩
    | ⟨hfix, hfree, hleft, hreason⟩ := reason_cases e q f
  · rw [hreason]
    refine ⟨⟨fun _ => hnone, fun _ => rfl⟩, ?_, ?_⟩ <;> rintro ⟨⟩
  · rw [hreason]
    refine ⟨⟨?_, fun hnone => absurd hnone hfix⟩, ?_, fun _ => ?_⟩
    · rintro ⟨⟩
    · rintro ⟨⟩
    obtain ⟨b, hb, hmeets⟩ := List.any_eq_true.mp hblocked
    rw [Bool.and_eq_true_iff, beq_iff_eq] at hmeets
    exact ⟨b.2, hmeets.1 ▸ hkept.blocked b hb, hmeets.2⟩
  · have hrefusal := hkept.left x hx
    rw [hreason]
    refine ⟨⟨fun hno => ?_, fun hnone => absurd hnone hfix⟩, fun hlimit => ?_, fun hvain => ?_⟩
    · rw [hno] at hrefusal
      cases hrefusal
    · rw [hlimit] at hrefusal
      cases hrefusal
    · rw [hvain] at hrefusal
      cases hrefusal
  · rw [hreason]
    refine ⟨⟨?_, fun hnone => absurd hnone hfix⟩, fun _ => ?_, ?_⟩
    · rintro ⟨⟩
    swap
    · rintro ⟨⟩
    obtain rfl := hpassing.limitReached_of_reason hfaithful (List.forall_mem_nil _) hfound hf hspan hfix hfree hleft
    refine ⟨Ends.length_passes ⟨found, q, hfound, hpassing, rfl⟩, ?_⟩
    obtain ⟨hzero, -⟩ | ⟨r, hr, hchanged⟩ := hpassing.getLast_changed rfl
    · exact absurd hzero (Nat.pos_iff_ne_zero.mp (Nat.le_max_right _ _))
    · exact ⟨r, hr, by simpa [Revision.isChanged] using hchanged⟩

end FixEngine

namespace Respelling

def hasty : FixEngine :=
  { registry := { settings := {}, exempts := fun _ => false
                  rules := [
                    { rule "x" 'x' (some 'v') with
                      check := fun _ z => .ok (if z.focus.text == ['x'] || z.focus.text == ['v'] then
                        .violations [{ rule := "x", span := z.span }] else .clean) },
                    rule "v" 'v' (some 'u'), { rule "w" 'w' none with fix? := none }] }
    limit := some 1 }

theorem faithful_hasty : hasty.registry.Faithful := by
  intro r hr fix hfix t f edit hedit
  simp only [hasty, List.mem_cons, List.not_mem_nil, or_false] at hr
  obtain rfl | rfl | rfl := hr
  · exact @faithful_rule "x" 'x' (some 'v') fix hfix t f edit hedit
  · exact faithful_rule hfix hedit
  · cases hfix

def hastyLeftovers : List Leftover :=
  [⟨{ rule := "x", span := ⟨0, 1⟩ }, .notIdempotent⟩, ⟨{ rule := "v", span := ⟨0, 1⟩ }, .passLimit⟩,
    ⟨{ rule := "w", span := ⟨2, 1⟩ }, .noFix⟩]

theorem fixAll_hasty :
    (hasty.fixAll (.ofText "x;w;".toList none)).toOption.map (·.leftovers) = some hastyLeftovers := by
  decide +kernel

theorem fixAll_explains_hasty : hasty.registry.Faithful ∧
    ∃ o, hasty.fixAll (.ofText "x;w;".toList none) = .ok o ∧ o.leftovers = hastyLeftovers ∧
      (∀ l ∈ o.leftovers, l.finding.span.stop ≤ 0xFFFFFFFF) ∧
      (∃ s, Revision.FixedInVain o.passes "x" s ∧ s.meets ⟨0, 1⟩ = true) ∧
      (o.passes.length = hasty.maxPasses ∧ ∃ r, o.passes.getLast? = some r ∧ r.edits ≠ []) ∧
      hasty.fixOf? { rule := "w", span := ⟨2, 1⟩ } = none := by
  refine ⟨faithful_hasty, ?_⟩
  obtain ⟨o, ho, hleft⟩ := exists_ok_of_toOption_map fixAll_hasty
  have hfit : ∀ l ∈ o.leftovers, l.finding.span.stop ≤ 0xFFFFFFFF := by
    rw [hleft]
    decide
  have hexplains := FixEngine.fixAll_explains faithful_hasty ho hfit
  rw [hleft] at hexplains
  obtain ⟨hx, hrest⟩ := List.forall_mem_cons.mp hexplains
  obtain ⟨hv, hrest⟩ := List.forall_mem_cons.mp hrest
  have hw := List.forall_mem_singleton.mp hrest
  exact ⟨o, ho, hleft, hfit, hx.2.2 rfl, hv.2.1 rfl, hw.1.mp rfl⟩

end Respelling

end Lintel
