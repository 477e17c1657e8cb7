import Lintel.Proofs.FixPasses
import Lintel.Proofs.SpacingOffsets

/-!
Fixing what was fixed. A run that was not cut off has done all it can: if nothing was fixed in vain, another run on
what it gives back looks at the same findings, changes nothing and leaves them for the same reasons. The first run
remembers what it fixed in vain, and the second does not; it makes no difference, since there is nothing to remember.
-/

namespace Lintel

namespace FixEngine

def Pass.Fitting (p : Pass) : Prop :=
  ∀ b ∈ p.blocked, ({} : OffsetMap).mapSpan b.2 = b.2

theorem Pass.fitting_revise (p : Pass) (r : Revision) : (p.revise r).Fitting := by
  intro b hb
  obtain hb | hb := List.mem_append.mp hb
  · obtain ⟨c, -, rfl⟩ := List.mem_map.mp hb
    exact OffsetMap.mapSpan_mapSpan _ _
  · obtain ⟨l, -, rfl⟩ := List.mem_map.mp hb
    exact OffsetMap.mapSpan_mapSpan _ _

theorem Pass.blocked_revise {p : Pass} {r : Revision} (hp : p.Fitting) (hoffsets : r.offsets = {})
    (hleft : ∀ l ∈ r.leftovers, l.reason ≠ .notIdempotent) : (p.revise r).blocked = p.blocked := by
  have hmapped : p.blocked.map (fun b => (b.1, r.offsets.mapSpan b.2)) = p.blocked := by
    rw [hoffsets]
    refine (List.map_congr_left fun b hb => ?_).trans (List.map_id _)
    rw [hp b hb]
    rfl
  have hnone : r.leftovers.filter (·.reason == .notIdempotent) = [] := by
    rw [List.filter_eq_nil_iff]
    intro l hl
    simpa using hleft l hl
  rw [revise, hmapped, hnone]
  simp

theorem unblocked_of_reason {e : FixEngine} {p : Pass} {f : Finding} (h : e.reason p f ≠ .notIdempotent)
    (hfix : (e.fixOf? f).isSome = true) : p.isBlocked f = false := by
  rw [← Bool.not_eq_true]
  intro hblocked
  apply h
  rw [reason, if_neg (by simpa using Option.isSome_iff_ne_none.mp hfix), if_pos hblocked]

theorem fixable_eq_filter {e : FixEngine} {p : Pass}
    (h : ∀ f ∈ p.findings, (e.fixOf? f).isSome = true → p.isBlocked f = false) :
    e.fixable p = p.findings.filter (fun f => (e.fixOf? f).isSome) := by
  apply List.filter_congr
  intro f hf
  cases hfix : (e.fixOf? f).isSome with
  | false => rfl
  | true => simp [h f hf hfix]

theorem reason_congr {e : FixEngine} {p q : Pass} {f : Finding} (hleft : p.left = q.left)
    (hp : (e.fixOf? f).isSome = true → p.isBlocked f = false)
    (hq : (e.fixOf? f).isSome = true → q.isBlocked f = false) : e.reason p f = e.reason q f := by
  cases hfix : e.fixOf? f with
  | none => simp [reason, hfix]
  | some fix =>
    have hsome : (e.fixOf? f).isSome = true := by rw [hfix]; rfl
    simp [reason, hfix, hp hsome, hq hsome, hleft]

theorem Passing.fixable_eq_nil {e : FixEngine} {n : Nat} {p q : Pass} {halt : Halt} (h : e.Passing n p q halt)
    (hhalt : halt = .nothingFixable) : e.fixable q = [] := by
  induction h with
  | nothingFixable hnone => exact hnone
  | limitReached | nothingChanged => cases hhalt
  | changed hsome hbatch hchanged hfound hrest ih => exact ih hhalt

theorem Passing.last {e : FixEngine} {n : Nat} {p q : Pass} {halt : Halt} (h : e.Passing n p q halt)
    (hhalt : halt = .nothingChanged) (hp : p.Fitting) : ∃ p' r, p'.Fitting ∧ e.fixable p' ≠ [] ∧
      e.fixBatch p'.source (e.fixable p') = .ok r ∧ r.isChanged = false ∧ q = p'.revise r := by
  induction h with
  | nothingFixable | limitReached => cases hhalt
  | @nothingChanged n p r hsome hbatch hchanged => exact ⟨p, r, hp, hsome, hbatch, hchanged, rfl⟩
  | @changed n p q r found halt hsome hbatch hchanged hfound hrest ih => exact ih hhalt (p.fitting_revise r)

theorem Passing.length_done {e : FixEngine} {n : Nat} {p q : Pass} {halt : Halt} (h : e.Passing n p q halt)
    (hhalt : halt = .limitReached) : q.done.length = p.done.length + n := by
  induction h with
  | nothingFixable | nothingChanged => cases hhalt
  | limitReached => rfl
  | @changed n p q r found halt hsome hbatch hchanged hfound hrest ih =>
    have hlength : (p.revise r).done.length = p.done.length + 1 := List.length_append
    rw [ih hhalt, hlength]
    omega

theorem Ends.length_passes {e : FixEngine} {source : Source} {o : FixOutcome}
    (h : e.Ends source o .limitReached) : o.passes.length = e.maxPasses := by
  obtain ⟨found, p, -, hpassing, rfl⟩ := h
  have hlength := hpassing.length_done rfl
  rwa [List.length_nil, Nat.zero_add] at hlength

theorem Ends.again_nothingFixable {e : FixEngine} {p : Pass} (hfound : e.survey p.source = .ok p.findings)
    (hnone : e.fixable p = []) (hreason : ∀ f ∈ p.findings, e.reason p f ≠ .notIdempotent) :
    ∃ o, e.Ends p.source o .nothingFixable ∧ o.source = p.source ∧ o.passes = [] ∧
      o.leftovers = (e.report p).leftovers := by
  have hfree : ∀ f ∈ p.findings, (e.fixOf? f).isSome = true → p.isBlocked f = false :=
    fun f hf => unblocked_of_reason (hreason f hf)
  rw [fixable_eq_filter hfree] at hnone
  let p₀ : Pass := { source := p.source, findings := p.findings }
  have hnone₀ : e.fixable p₀ = [] := (fixable_eq_filter (fun _ _ _ => rfl)).trans hnone
  refine ⟨e.report p₀, ⟨p.findings, p₀, hfound, .nothingFixable hnone₀, rfl⟩, rfl, rfl, ?_⟩
  apply List.map_congr_left
  intro f hf
  have hfix : e.fixOf? f = none := by simpa using List.filter_eq_nil_iff.mp hnone f hf
  simp [reason, hfix]

theorem Ends.again_nothingChanged {e : FixEngine} {p : Pass} {r : Revision} (hp : p.Fitting)
    (hfound : e.survey p.source = .ok p.findings) (hsome : e.fixable p ≠ [])
    (hbatch : e.fixBatch p.source (e.fixable p) = .ok r) (hchanged : r.isChanged = false)
    (hreason : ∀ f ∈ p.findings, e.reason (p.revise r) f ≠ .notIdempotent) :
    ∃ o, e.Ends p.source o .nothingChanged ∧ o.source = r.source ∧ o.passes = [r] ∧
      o.leftovers = (e.report (p.revise r)).leftovers := by
  obtain ⟨-, hoffsets, hleft⟩ := fixBatch_unchanged hbatch hchanged
  have hblocked := Pass.blocked_revise hp hoffsets hleft
  have hfree : ∀ f ∈ p.findings, (e.fixOf? f).isSome = true → (p.revise r).isBlocked f = false :=
    fun f hf => unblocked_of_reason (hreason f hf)
  -- The second run starts with the same batch.
  let p₀ : Pass := { source := p.source, findings := p.findings }
  have hsame : e.fixable p₀ = e.fixable p := by
    rw [fixable_eq_filter (p := p), fixable_eq_filter (p := p₀) (fun _ _ _ => rfl)]
    intro f hf hfix
    have hf' := hfree f hf hfix
    rwa [Pass.isBlocked, hblocked] at hf'
  have hblocked₀ : (p₀.revise r).blocked = [] := Pass.blocked_revise (p := p₀) nofun hoffsets hleft
  obtain ⟨n, hn⟩ : ∃ n, e.maxPasses = n + 1 := Nat.exists_eq_add_of_le' (Nat.le_max_right _ _)
  have hpassing : e.Passing e.maxPasses p₀ (p₀.revise r) .nothingChanged := by
    rw [hn]
    exact .nothingChanged (hsame ▸ hsome) (hsame ▸ hbatch) hchanged
  refine ⟨e.report (p₀.revise r), ⟨p.findings, _, hfound, hpassing, rfl⟩, rfl, rfl, ?_⟩
  apply List.map_congr_left
  intro f hf
  rw [reason_congr (p := p₀.revise r) (q := p.revise r) rfl ?_ (hfree f hf)]
  intro _
  rw [Pass.isBlocked, hblocked₀]
  rfl

/-- Fixing reaches a fixpoint. If a run ended of itself, because nothing was left to fix or the last pass changed
nothing, and no finding is left that was fixed in vain, then a second run changes nothing, and leaves the same
findings for the same reasons. -/
theorem fixAll_settled {e : FixEngine} {source : Source} {o : FixOutcome} (h : e.fixAll source = .ok o)
    (hhalt : ¬e.Ends source o .limitReached) (hreason : ∀ l ∈ o.leftovers, l.reason ≠ .notIdempotent) :
    ∃ o', e.fixAll o.source = .ok o' ∧ o'.source = o.source ∧ (∀ r ∈ o'.passes, r.isChanged = false) ∧
      o'.leftovers = o.leftovers := by
  obtain ⟨halt, found, q, hfound, hpassing, rfl⟩ := fixAll_eq_ok_iff.mp h
  obtain ⟨hlast, -⟩ := hpassing.chain hfound
  have hreason' : ∀ f ∈ q.findings, e.reason q f ≠ .notIdempotent :=
    fun f hf => hreason ⟨f, e.reason q f⟩ (List.mem_map.mpr ⟨f, hf, rfl⟩)
  cases halt with
  | limitReached => exact absurd ⟨found, q, hfound, hpassing, rfl⟩ hhalt
  | nothingFixable =>
    obtain ⟨o', hends, hsource, hpasses, hleft⟩ :=
      Ends.again_nothingFixable hlast (hpassing.fixable_eq_nil rfl) hreason'
    exact ⟨o', fixAll_eq_ok_iff.mpr ⟨_, hends⟩, hsource, by simp [hpasses], hleft⟩
  | nothingChanged =>
    obtain ⟨p, r, hfits, hsome, hbatch, hchanged, rfl⟩ := hpassing.last rfl nofun
    have hsource : r.source = p.source := (fixBatch_unchanged hbatch hchanged).1
    have hlast' : e.survey r.source = .ok p.findings := hlast
    rw [hsource] at hlast'
    obtain ⟨o', hends, hsource', hpasses, hleft⟩ :=
      Ends.again_nothingChanged hfits hlast' hsome hbatch hchanged hreason'
    refine ⟨o', ?_, hsource', by simp [hpasses, hchanged], hleft⟩
    rw [show (e.report (p.revise r)).source = r.source from rfl, hsource]
    exact fixAll_eq_ok_iff.mpr ⟨_, hends⟩

end FixEngine

theorem Respelling.fixAll_settled_statement : ∃ o o', engine.fixAll statement = .ok o ∧
    ¬engine.Ends statement o .limitReached ∧ (∀ l ∈ o.leftovers, l.reason ≠ .notIdempotent) ∧
    engine.fixAll o.source = .ok o' ∧ o'.source = o.source ∧ (∀ r ∈ o'.passes, r.isChanged = false) ∧
    o'.leftovers = [⟨{ rule := "z", span := ⟨0, 1⟩ }, .notApplicable "no better name"⟩] := by
  obtain ⟨o, ho, -, hpasses, hleft⟩ := exists_outcome
  have hhalt : ¬engine.Ends statement o .limitReached := by
    intro hends
    have hlength := hends.length_passes
    rw [← List.length_map (f := (·.isChanged)), hpasses] at hlength
    cases hlength
  have hreason : ∀ l ∈ o.leftovers, l.reason ≠ .notIdempotent := by
    rw [hleft]
    decide
  obtain ⟨o', ho', hsource, hsame, hleft'⟩ := FixEngine.fixAll_settled ho hhalt hreason
  exact ⟨o, o', ho, hhalt, hreason, ho', hsource, hsame, hleft'.trans hleft⟩

end Lintel
