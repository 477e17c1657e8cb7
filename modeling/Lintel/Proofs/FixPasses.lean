import Lintel.Proofs.BatchAccounting
import Lintel.Proofs.BuiltinFindings
import Lintel.Proofs.ReparseCheck

/-!
Fixing a file in passes. A run is a chain of batches, each made in the tree that the one before it left, and what it
reports in the end is what is found in the tree that it gives back: a batch that changes nothing leaves the tree as it
was, so that what was found before it need not be looked for again.
-/

namespace Lintel

theorem bind_eq_ok_iff {ε α β : Type} {x : Except ε α} {f : α → Except ε β} {b : β} :
    (x >>= f) = .ok b ↔ ∃ a, x = .ok a ∧ f a = .ok b := by
  cases x with
  | error e => simp [bind, Except.bind]
  | ok a => simp [bind, Except.bind]

def LeftReason.isRefusal : LeftReason → Bool
  | conflict _ | vanished | notApplicable _ => true
  | _ => false

theorem LeftReason.ne_of_isRefusal {r : LeftReason} (h : r.isRefusal = true) : r ≠ .notIdempotent := by
  rintro rfl
  cases h

theorem Consistency.fixed?_lossless {old : Text} {r : Revision} {i : Issue} (h : lossless? old r = some i) :
    i.fixed? = none := by
  rw [lossless?] at h
  split at h
  · cases h
  · obtain rfl := Option.some.inj h
    rfl

theorem Consistency.fixed?_reparse {c : Consistency} {source : Source} {i : Issue}
    (h : c.reparse? source = .ok (some i)) :
    i.fixed? = none := by
  obtain ⟨tree, -, h⟩ := bind_eq_ok_iff.mp h
  split at h
  · obtain rfl := Option.some.inj (Except.ok.inj h)
    rfl
  · obtain ⟨detail, -, rfl⟩ := Option.map_eq_some_iff.mp (Except.ok.inj h)
    rfl

namespace FixEngine

def survey (e : FixEngine) (source : Source) : Except Failure (List Finding) :=
  ({ registry := e.registry } : Dispatch).collectPrimary source e.cancelled

theorem survey_uncancelled {e : FixEngine} {source : Source} {fs : List Finding} (h : e.survey source = .ok fs) :
    ({ registry := e.registry } : Dispatch).collectPrimary source false = .ok fs := by
  cases hc : e.cancelled with
  | false => rwa [survey, hc] at h
  | true =>
    rw [survey, hc, Dispatch.collectPrimary_cancelled] at h
    cases h

section Batches

variable {e : FixEngine} {source : Source}

theorem apply_ok {edits : List Edit} {r : Revision} (h : e.apply source edits = .ok r) :
    Batch.apply source edits e.cancelled = .ok r := by
  rw [apply] at h
  split at h
  · rename_i hr
    rw [hr, Except.ok.inj h]
  · cases h
  · cases h

def editOf? (e : FixEngine) (t : Tree) (f : Finding) : Option Edit :=
  (e.fixOf? f).bind (fun fix => (fix t f).toOption)

theorem editsFor_cons {f : Finding} {fs : List Finding} {edits : List Edit} {skipped : List Leftover}
    (h : e.editsFor source (f :: fs) = .ok (edits, skipped)) :
    (∃ edit rest, e.editOf? source.tree f = some edit ∧ e.editsFor source fs = .ok (rest, skipped) ∧
      edits = edit :: rest) ∨
    ∃ reason rest, e.editOf? source.tree f = none ∧ e.editsFor source fs = .ok (edits, rest) ∧
      skipped = ⟨f, reason⟩ :: rest ∧ (reason = .noFix ∧ e.fixOf? f = none ∨ ∃ text, reason = .notApplicable text) := by
  rw [editsFor] at h
  rw [editOf?]
  cases hof : e.fixOf? f with
  | none =>
    rw [hof] at h
    obtain ⟨⟨rest, left⟩, hrest, h⟩ := bind_eq_ok_iff.mp h
    cases h
    exact .inr ⟨_, _, rfl, hrest, rfl, .inl ⟨rfl, rfl⟩⟩
  | some fix =>
    rw [hof] at h
    simp only [runFix, Option.bind_some] at h ⊢
    cases hfix : fix source.tree f with
    | ok edit =>
      simp only [hfix] at h
      obtain ⟨⟨rest, left⟩, hrest, h⟩ := bind_eq_ok_iff.mp h
      cases h
      exact .inl ⟨_, _, rfl, hrest, rfl⟩
    | error refusal =>
      simp only [hfix] at h
      cases refusal with
      | notApplicable rule reason =>
        obtain ⟨⟨rest, left⟩, hrest, h⟩ := bind_eq_ok_iff.mp h
        cases h
        exact .inr ⟨_, _, rfl, hrest, rfl, .inr ⟨_, rfl⟩⟩
      | abort a =>
        split at h
        · cases h
        · rename_i habort
          split at habort <;> simp_all
        · rename_i habort
          split at habort <;> simp_all

theorem editsFor_eq {fs : List Finding} {edits : List Edit} {skipped : List Leftover}
    (h : e.editsFor source fs = .ok (edits, skipped)) : edits = fs.filterMap (e.editOf? source.tree) := by
  induction fs generalizing edits skipped with
  | nil =>
    cases h
    rfl
  | cons f fs ih =>
    rw [List.filterMap_cons]
    obtain ⟨edit, rest, hedit, hrest, rfl⟩ | ⟨reason, rest, hnone, hrest, -, -⟩ := editsFor_cons h
    · rw [hedit, ih hrest]
    · rw [hnone, ih hrest]

theorem reason_editsFor {fs : List Finding} {edits : List Edit} {skipped : List Leftover}
    (h : e.editsFor source fs = .ok (edits, skipped)) : ∀ l ∈ skipped, l.reason ≠ .notIdempotent := by
  induction fs generalizing edits skipped with
  | nil =>
    cases h
    exact nofun
  | cons f fs ih =>
    obtain ⟨edit, rest, -, hrest, -⟩ | ⟨reason, rest, -, hrest, rfl, hreason⟩ := editsFor_cons h
    · exact ih hrest
    · refine List.forall_mem_cons.mpr ⟨?_, ih hrest⟩
      obtain ⟨rfl, -⟩ | ⟨text, rfl⟩ := hreason <;> rintro ⟨⟩

theorem refusal_dropped {root : Tree} {edits : List Edit} {l : Leftover}
    (h : l ∈ Batch.dropped edits (Batch.verdicts root edits)) : l.reason.isRefusal = true := by
  rw [Batch.dropped, List.mem_filterMap] at h
  obtain ⟨x, hx, hl⟩ := h
  obtain ⟨reason, hreason, rfl⟩ := Option.map_eq_some_iff.mp hl
  obtain ⟨i, hi⟩ := List.mem_iff_getElem?.mp (List.of_mem_zip hx).2
  have hj := Batch.getElem?_verdicts.mp hi
  rw [hreason] at hj
  cases hj with
  | rival | noParts | vanished => rfl

theorem leftovers_withdraw (fs : List Finding) (r : Revision) :
    (fs.foldl withdraw r).leftovers = r.leftovers ++ fs.map (⟨·, .notIdempotent⟩) := by
  induction fs generalizing r with
  | nil => simp
  | cons f fs ih =>
    rw [List.foldl_cons, ih, show (withdraw r f).leftovers = r.leftovers ++ [⟨f, .notIdempotent⟩] from rfl]
    simp

theorem applied_withdraw (fs : List Finding) (r : Revision) :
    (fs.foldl withdraw r).applied = r.applied.filter (· ∉ fs) := by
  induction fs generalizing r with
  | nil => simp
  | cons f fs ih =>
    rw [List.foldl_cons, ih, show (withdraw r f).applied = r.applied.filter (· != f) from rfl, List.filter_filter]
    refine List.filter_congr fun g _ => ?_
    rw [Bool.eq_iff_iff]
    simp [and_comm]

theorem verified_residuals {r r' : Revision} (h : e.verified source r = .ok r') :
    ∃ issues, e.consistency.residuals r = .ok issues ∧ r' = (issues.filterMap (·.fixed?)).foldl withdraw r := by
  obtain ⟨issues, hcheck, hall, rfl⟩ := verified_cases h
  obtain ⟨reparsed, hreparsed, hcheck⟩ := bind_eq_ok_iff.mp hcheck
  obtain ⟨found, hfound, hissues⟩ := bind_eq_ok_iff.mp hcheck
  replace hissues := Except.ok.inj hissues
  have hlossless : Consistency.lossless? source.text r = none := by
    by_contra hne
    obtain ⟨i, hi⟩ := Option.ne_none_iff_exists'.mp hne
    have hsome := hall i (by rw [← hissues, hi]; simp)
    rw [Consistency.fixed?_lossless hi] at hsome
    cases hsome
  have hread : reparsed = none := by
    by_contra hne
    obtain ⟨i, rfl⟩ := Option.ne_none_iff_exists'.mp hne
    have hsome := hall i (by rw [← hissues]; simp)
    rw [Consistency.fixed?_reparse hreparsed] at hsome
    cases hsome
  refine ⟨found, hfound, ?_⟩
  rw [← hissues, hlossless, hread]
  rfl

theorem fixBatch_outcome {fs : List Finding} {r : Revision} (h : e.fixBatch source fs = .ok r) :
    ∃ edits skipped r₀, e.editsFor source (fs.filter (!·.auxiliary)) = .ok (edits, skipped) ∧
      Batch.apply source edits e.cancelled = .ok r₀ ∧ r.source = r₀.source ∧ r.edits = r₀.edits ∧
      (r.isChanged = false → r = { r₀ with leftovers := r₀.leftovers ++ skipped }) := by
  obtain ⟨⟨edits, skipped⟩, hedits, hrest⟩ := bind_eq_ok_iff.mp h
  obtain ⟨r₀, happly, -⟩ := bind_eq_ok_iff.mp hrest
  rw [fixBatch_eq hedits happly] at h
  refine ⟨edits, skipped, r₀, hedits, apply_ok happly, ?_⟩
  split at h
  · rename_i hchanged
    obtain ⟨issues, -, -, rfl⟩ := verified_cases h
    obtain ⟨hsource, hmade⟩ := foldl_withdraw (issues.filterMap (·.fixed?))
      { r₀ with leftovers := r₀.leftovers ++ skipped }
    refine ⟨hsource, hmade, fun hnone => ?_⟩
    rw [Revision.isChanged, hmade] at hnone
    rw [Bool.and_eq_true, Revision.isChanged] at hchanged
    rw [hchanged.2] at hnone
    cases hnone
  · cases h
    exact ⟨rfl, rfl, fun _ => rfl⟩

theorem accepted_of_unchanged {edits : List Edit} {cancelled : Bool} {r : Revision}
    (h : Batch.apply source edits cancelled = .ok r) (hmade : r.edits = []) :
    Batch.accepted source.tree edits = [] := by
  obtain ⟨-, -, -, hrecords, -⟩ := Batch.apply_outcome h
  by_contra hne
  obtain ⟨edit, hedit⟩ := List.exists_mem_of_ne_nil _ hne
  obtain ⟨p, hp⟩ := List.exists_mem_of_ne_nil _ (Batch.parts_ne_nil_of_accepted hedit)
  have hmem : (edit.rule, p) ∈ (Batch.partsOf (Batch.accepted source.tree edits)).reverse := by
    rw [List.mem_reverse, Batch.partsOf, List.mem_mergeSort, List.mem_flatMap]
    exact ⟨edit, hedit, List.mem_map.mpr ⟨p, hp, rfl⟩⟩
  rw [hmade, List.forall₂_nil_right_iff] at hrecords
  rw [hrecords] at hmem
  cases hmem

theorem fixBatch_unchanged {fs : List Finding} {r : Revision} (h : e.fixBatch source fs = .ok r)
    (hchanged : r.isChanged = false) :
    r.source = source ∧ r.offsets = {} ∧ ∀ l ∈ r.leftovers, l.reason ≠ .notIdempotent := by
  obtain ⟨edits, skipped, r₀, hedits, happly, -, -, hr⟩ := fixBatch_outcome h
  obtain rfl := hr hchanged
  obtain ⟨-, hleft, -, -, hnone⟩ := Batch.apply_outcome happly
  have hempty := accepted_of_unchanged happly (by simpa [Revision.isChanged] using hchanged)
  obtain ⟨hsource, -, hoffsets⟩ := hnone hempty
  refine ⟨hsource, hoffsets, ?_⟩
  intro l hl
  obtain hl | hl := List.mem_append.mp hl
  · exact LeftReason.ne_of_isRefusal (refusal_dropped (hleft ▸ hl))
  · exact reason_editsFor hedits l hl

end Batches

inductive Halt where
  | nothingFixable
  | nothingChanged
  | limitReached

inductive Passing (e : FixEngine) : Nat → Pass → Pass → Halt → Prop
  | nothingFixable {n : Nat} {p : Pass} (hnone : e.fixable p = []) : Passing e n p p .nothingFixable
  | limitReached {p : Pass} (hsome : e.fixable p ≠ []) : Passing e 0 p p .limitReached
  | nothingChanged {n : Nat} {p : Pass} {r : Revision} (hsome : e.fixable p ≠ [])
      (hbatch : e.fixBatch p.source (e.fixable p) = .ok r) (hchanged : r.isChanged = false) :
      Passing e (n + 1) p (p.revise r) .nothingChanged
  | changed {n : Nat} {p q : Pass} {r : Revision} {found : List Finding} {halt : Halt} (hsome : e.fixable p ≠ [])
      (hbatch : e.fixBatch p.source (e.fixable p) = .ok r) (hchanged : r.isChanged = true)
      (hfound : e.survey r.source = .ok found) (hrest : Passing e n { p.revise r with findings := found } q halt) :
      Passing e (n + 1) p q halt

theorem passes_succ {e : FixEngine} {n : Nat} {p : Pass} (hsome : e.fixable p ≠ []) : e.passes (n + 1) p =
    (do
      let r ← e.fixBatch p.source (e.fixable p)
      if r.isChanged then
        let found ← e.survey r.source
        e.passes n { p.revise r with findings := found }
      else return p.revise r) := by
  rw [passes, if_neg (fun h => hsome (List.isEmpty_iff.mp h))]
  rfl

theorem passes_eq_ok_iff {e : FixEngine} {n : Nat} {p q : Pass} :
    e.passes n p = .ok q ↔ ∃ halt, e.Passing n p q halt := by
  constructor
  · intro h
    induction n generalizing p with
    | zero =>
      cases h
      by_cases hsome : e.fixable q = []
      · exact ⟨_, .nothingFixable hsome⟩
      · exact ⟨_, .limitReached hsome⟩
    | succ n ih =>
      by_cases hsome : e.fixable p = []
      · simp only [passes, hsome, List.isEmpty_nil, if_true, Except.ok.injEq] at h
        subst h
        exact ⟨_, .nothingFixable hsome⟩
      · rw [passes_succ hsome] at h
        obtain ⟨r, hbatch, h⟩ := bind_eq_ok_iff.mp h
        split at h
        · rename_i hchanged
          obtain ⟨found, hfound, h⟩ := bind_eq_ok_iff.mp h
          obtain ⟨halt, hrest⟩ := ih h
          exact ⟨halt, .changed hsome hbatch hchanged hfound hrest⟩
        · rename_i hchanged
          cases h
          exact ⟨_, .nothingChanged hsome hbatch (Bool.not_eq_true _ ▸ hchanged)⟩
  · rintro ⟨halt, h⟩
    induction h with
    | @nothingFixable n p hnone =>
      cases n with
      | zero => rfl
      | succ n => simp [passes, hnone]
    | limitReached hsome => rfl
    | nothingChanged hsome hbatch hchanged =>
      rw [passes_succ hsome, bind_eq_ok_iff]
      exact ⟨_, hbatch, by rw [hchanged]; rfl⟩
    | changed hsome hbatch hchanged hfound hrest ih =>
      rw [passes_succ hsome, bind_eq_ok_iff]
      refine ⟨_, hbatch, ?_⟩
      rw [if_pos hchanged, bind_eq_ok_iff]
      exact ⟨_, hfound, ih⟩

def report (e : FixEngine) (p : Pass) : FixOutcome :=
  { source := p.source, passes := p.done, leftovers := p.findings.map (fun f => ⟨f, e.reason p f⟩) }

def Ends (e : FixEngine) (source : Source) (o : FixOutcome) (halt : Halt) : Prop :=
  ∃ found p, e.survey source = .ok found ∧ e.Passing e.maxPasses { source, findings := found } p halt ∧ o = e.report p

theorem fixAll_eq (e : FixEngine) (source : Source) : e.fixAll source =
    (do
      let found ← e.survey source
      let p ← e.passes e.maxPasses { source, findings := found }
      return e.report p) :=
  rfl

theorem fixAll_eq_ok_iff {e : FixEngine} {source : Source} {o : FixOutcome} :
    e.fixAll source = .ok o ↔ ∃ halt, e.Ends source o halt := by
  rw [fixAll_eq, bind_eq_ok_iff]
  simp only [bind_eq_ok_iff, passes_eq_ok_iff, Ends]
  constructor
  · rintro ⟨found, hfound, p, ⟨halt, hpassing⟩, ho⟩
    exact ⟨halt, found, p, hfound, hpassing, (Except.ok.inj ho).symm⟩
  · rintro ⟨halt, found, p, hfound, hpassing, rfl⟩
    exact ⟨found, hfound, p, ⟨halt, hpassing⟩, rfl⟩

/-- Batches made one after the other: each fixes some of what is found in the source that the one before it left. -/
inductive Chain (e : FixEngine) : Source → List Revision → Source → Prop
  | done (source : Source) : Chain e source [] source
  | batch {source last : Source} {found fs : List Finding} {r : Revision} {rs : List Revision}
      (hfound : ({ registry := e.registry } : Dispatch).collectPrimary source false = .ok found)
      (hsub : fs.Sublist found) (hbatch : e.fixBatch source fs = .ok r) (hrest : Chain e r.source rs last) :
      Chain e source (r :: rs) last

theorem Passing.chain {e : FixEngine} {n : Nat} {p q : Pass} {halt : Halt} (h : e.Passing n p q halt)
    (hfound : e.survey p.source = .ok p.findings) :
    e.survey q.source = .ok q.findings ∧ ∃ rs, q.done = p.done ++ rs ∧ e.Chain p.source rs q.source ∧
      (∀ r ∈ rs.dropLast, r.isChanged = true) ∧ rs.length ≤ n := by
  induction h with
  | nothingFixable hnone => exact ⟨hfound, [], by simp, .done _, by simp, Nat.zero_le _⟩
  | limitReached hsome => exact ⟨hfound, [], by simp, .done _, by simp, Nat.le_refl 0⟩
  | @nothingChanged n p r hsome hbatch hchanged =>
    obtain ⟨hsource, -, -⟩ := fixBatch_unchanged hbatch hchanged
    refine ⟨?_, [r], rfl, ?_, by simp, by simp⟩
    · exact (congrArg e.survey hsource).trans hfound
    · exact .batch (survey_uncancelled hfound) List.filter_sublist hbatch (.done _)
  | @changed n p q r found halt hsome hbatch hchanged hfound' hrest ih =>
    obtain ⟨hlast, rs, hdone, hchain, hall, hlength⟩ := ih hfound'
    refine ⟨hlast, r :: rs, ?_, ?_, ?_, by simpa using hlength⟩
    · rw [hdone, show Pass.done { p.revise r with findings := found } = p.done ++ [r] from rfl, List.append_assoc]
      rfl
    · exact .batch (survey_uncancelled hfound) List.filter_sublist hbatch hchain
    · intro r' hr'
      cases rs with
      | nil => cases hr'
      | cons s rs =>
        rw [List.dropLast_cons_cons] at hr'
        obtain rfl | hr' := List.mem_cons.mp hr'
        · exact hchanged
        · exact hall r' hr'

/-- Fixing a file tells the truth about the tree it gives back: the leftovers are all that is found there, and the
passes lead to it from the tree it was given, each changing something but perhaps the last. -/
theorem fixAll_truthful {e : FixEngine} {source : Source} {o : FixOutcome} (h : e.fixAll source = .ok o) :
    ({ registry := e.registry } : Dispatch).collectPrimary o.source false = .ok (o.leftovers.map (·.finding)) ∧
      e.Chain source o.passes o.source ∧ (∀ r ∈ o.passes.dropLast, r.isChanged = true) ∧
      o.passes.length ≤ e.maxPasses := by
  obtain ⟨halt, found, p, hfound, hpassing, rfl⟩ := fixAll_eq_ok_iff.mp h
  obtain ⟨hlast, rs, hdone, hchain, hchanged, hlength⟩ := hpassing.chain hfound
  have hfindings : (e.report p).leftovers.map (·.finding) = p.findings := by simp [report, Function.comp_def]
  have hpasses : (e.report p).passes = rs := hdone
  rw [hfindings, hpasses]
  exact ⟨survey_uncancelled hlast, hchain, hchanged, hlength⟩

end FixEngine

namespace Respelling

def rule (id : String) (name : Char) (better : Option Char) : Rule :=
  { id, name := id, message := "", kinds := [.ident]
    check := fun _ z =>
      .ok (if z.focus.text == [name] then .violations [{ rule := id, span := z.span }] else .clean)
    fix? := some fun _ f =>
      match better with
      | some c => .ok (({ finding := f } : Edit).replaceTokens f.span [.token .ident [c]])
      | none => .error (.notApplicable id "no better name") }

def engine : FixEngine :=
  { registry := { settings := {}, exempts := fun _ => false
                  rules := [rule "x" 'x' (some 'y'), rule "y" 'y' (some 'z'), rule "z" 'z' none] }
    limit := some 5 }

def statement : Source :=
  .ofText "x;".toList none

theorem fixAll_statement : (engine.fixAll statement).toOption.map
    (fun o => (o.source.text, o.passes.map (·.isChanged), o.leftovers)) =
      some ("z;".toList, [true, true, false],
      [⟨{ rule := "z", span := ⟨0, 1⟩ }, .notApplicable "no better name"⟩]) := by
  decide +kernel

theorem exists_outcome : ∃ o, engine.fixAll statement = .ok o ∧ o.source.text = "z;".toList ∧
    o.passes.map (·.isChanged) = [true, true, false] ∧
    o.leftovers = [⟨{ rule := "z", span := ⟨0, 1⟩ }, .notApplicable "no better name"⟩] := by
  obtain ⟨o, ho, heq⟩ := exists_ok_of_toOption_map fixAll_statement
  simp only [Prod.mk.injEq] at heq
  exact ⟨o, ho, heq⟩

theorem fixAll_truthful_statement : ∃ o, engine.fixAll statement = .ok o ∧ o.source.text = "z;".toList ∧
    ({ registry := engine.registry } : Dispatch).collectPrimary o.source false = .ok [{ rule := "z", span := ⟨0, 1⟩ }] ∧
    engine.Chain statement o.passes o.source ∧ (∀ r ∈ o.passes.dropLast, r.isChanged = true) ∧
    o.passes.length ≤ engine.maxPasses := by
  obtain ⟨o, ho, htext, -, hleft⟩ := exists_outcome
  have htruth := FixEngine.fixAll_truthful ho
  rw [hleft] at htruth
  exact ⟨o, ho, htext, htruth⟩

end Respelling

end Lintel
