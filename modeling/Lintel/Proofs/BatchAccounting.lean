import Mathlib.Data.List.Forall2
import Lintel.Proofs.LosslessRewrite
import Lintel.Proofs.OrderedBatch

namespace Lintel

namespace Part

def Found (p : Part) (root : Tree) : Prop :=
  ∃ target, p.resolve root 0 = .ok target

def Writes (p : Part) (text : Text) : Prop :=
  match p.change with
  | .replaceNode _ t => text = t.text
  | .replaceTokens ts | .insertAfter _ ts => text = Tree.textAll ts
  | .removeToken _ _ => text = [] ∨ text = [' ']

theorem found_iff {p : Part} {root : Tree} : p.Found root ↔ (p.resolve root 0).toOption.isSome = true := by
  rw [Found]
  cases p.resolve root 0 with
  | error u => simp [Except.toOption]
  | ok target => simp [Except.toOption]

theorem writes_fold {p : Part} {target : Target} {made : Tree × Text} (h : p.fold target = some made) :
    p.Writes made.2 := by
  rw [Writes]
  cases hc : p.change with
  | replaceNode kind t =>
    cases target with
    | node z =>
      simp only [fold, hc, Option.some.injEq] at h
      subst h
      rfl
    | token z | children z first stop | after z => simp [fold, hc] at h
  | replaceTokens ts =>
    cases target with
    | node z | token z =>
      simp only [fold, hc, Option.map_eq_some_iff] at h
      obtain ⟨t, -, rfl⟩ := h
      rfl
    | children z first stop =>
      simp only [fold, hc, Option.some.injEq] at h
      subst h
      rfl
    | after z => simp [fold, hc] at h
  | removeToken kind unwrap =>
    cases target with
    | token z =>
      simp only [fold, hc, Zipper.removeToken?] at h
      split at h
      · cases h
      · cases h
        dsimp only
        split
        · exact Or.inr rfl
        · exact Or.inl rfl
    | node z | children z first stop | after z => simp [fold, hc] at h
  | insertAfter anchor ts =>
    cases target with
    | after z =>
      simp only [fold, hc, Option.map_eq_some_iff] at h
      obtain ⟨t, -, rfl⟩ := h
      rfl
    | node z | token z | children z first stop => simp [fold, hc] at h

end Part

namespace Batch

def Rivals (edits : List Edit) (i j : Nat) : Prop :=
  i ≠ j ∧ ∃ e f, edits[i]? = some e ∧ edits[j]? = some f ∧ e.conflicts f = true

/-- What a batch decides about the edit at an index: why it is left out, or nothing if it is made. -/
inductive Judged (root : Tree) (edits : List Edit) (i : Nat) : Option LeftReason → Prop
  | rival {j : Nat} {f : Edit} (hf : edits[j]? = some f) (hij : Rivals edits i j)
      (hfirst : ∀ k < j, ¬Rivals edits i k) : Judged root edits i (some (.conflict f.rule))
  | noParts {e : Edit} (he : edits[i]? = some e) (hfree : ∀ j, ¬Rivals edits i j) (hnone : e.parts = []) :
      Judged root edits i (some (.notApplicable "edit has no parts"))
  | vanished {e : Edit} {p : Part} (he : edits[i]? = some e) (hfree : ∀ j, ¬Rivals edits i j) (hp : p ∈ e.parts)
      (hgone : ¬p.Found root) : Judged root edits i (some .vanished)
  | made {e : Edit} (he : edits[i]? = some e) (hfree : ∀ j, ¬Rivals edits i j) (hne : e.parts ≠ [])
      (hall : ∀ p ∈ e.parts, p.Found root) : Judged root edits i none

section Rival

variable {edits : List Edit} {i : Nat} {e : Edit} (he : edits[i]? = some e)

include he

theorem rivals_iff {j : Nat} : Rivals edits i j ↔ j ≠ i ∧ ∃ f, edits[j]? = some f ∧ e.conflicts f = true := by
  constructor
  · rintro ⟨hij, e', f, he', hf, hc⟩
    rw [he] at he'
    cases he'
    exact ⟨hij.symm, f, hf, hc⟩
  · rintro ⟨hji, f, hf, hc⟩
    exact ⟨hji.symm, e, f, he, hf, hc⟩

theorem rival?_eq_none_iff : rival? edits i e = none ↔ ∀ j, ¬Rivals edits i j := by
  rw [rival?, Option.map_eq_none_iff, List.find?_eq_none]
  constructor
  · intro h j hj
    obtain ⟨hji, f, hf, hc⟩ := (rivals_iff he).mp hj
    have hmem : (f, j) ∈ edits.zipIdx := List.mk_mem_zipIdx_iff_getElem?.mpr hf
    exact h (f, j) (List.mem_filter.mpr ⟨hmem, by simpa using hji⟩) hc
  · rintro h ⟨f, j⟩ hmem hc
    obtain ⟨hmem, hji⟩ := List.mem_filter.mp hmem
    apply h j
    exact (rivals_iff he).mpr ⟨by simpa using hji, f, List.mk_mem_zipIdx_iff_getElem?.mp hmem, hc⟩

theorem rival?_eq_some_iff {f : Edit} : rival? edits i e = some f ↔
    ∃ j, edits[j]? = some f ∧ Rivals edits i j ∧ ∀ k < j, ¬Rivals edits i k := by
  have hpoint (k : Nat) (hk : k < edits.zipIdx.length) :
      (decide ((edits.zipIdx[k].2 != i) = true ∧ e.conflicts edits.zipIdx[k].1 = true)) = true ↔ Rivals edits i k := by
    have hk' : k < edits.length := by simpa using hk
    rw [rivals_iff he]
    simp [List.getElem?_eq_getElem hk']
  rw [rival?, List.find?_filter, Option.map_eq_some_iff]
  constructor
  · rintro ⟨⟨f', j'⟩, hfind, rfl⟩
    obtain ⟨hp, j, hj, hget, hbefore⟩ := List.find?_eq_some_iff_getElem.mp hfind
    have hj' : j < edits.length := by simpa using hj
    rw [List.getElem_zipIdx] at hget
    cases hget
    refine ⟨j, List.getElem?_eq_getElem hj', (hpoint j hj).mp (by simpa using hp), ?_⟩
    intro k hk hrival
    have hno := hbefore k hk
    rw [(hpoint k (by omega)).mpr hrival] at hno
    cases hno
  · rintro ⟨j, hf, hrival, hfirst⟩
    obtain ⟨hj', rfl⟩ := List.getElem?_eq_some_iff.mp hf
    have hj : j < edits.zipIdx.length := by simpa using hj'
    refine ⟨edits.zipIdx[j], List.find?_eq_some_iff_getElem.mpr ⟨(hpoint j hj).mpr hrival, j, hj, rfl, ?_⟩, by simp⟩
    intro k hk
    rw [Bool.not_eq_true', ← Bool.not_eq_true, hpoint k (by omega)]
    exact hfirst k hk

theorem judged_iff {root : Tree} {v : Option LeftReason} : Judged root edits i v ↔ objection? root edits i e = v := by
  have hall : e.parts.all (fun p => (p.resolve root 0).toOption.isSome) = true ↔ ∀ p ∈ e.parts, p.Found root := by
    simp only [List.all_eq_true, Part.found_iff]
  rw [objection?]
  constructor
  · intro h
    cases h with
    | rival hf hij hfirst => rw [(rival?_eq_some_iff he).mpr ⟨_, hf, hij, hfirst⟩]
    | noParts he' hfree hnone =>
      rw [he] at he'
      cases he'
      simp [(rival?_eq_none_iff he).mpr hfree, hnone]
    | @vanished _ p he' hfree hp hgone =>
      rw [he] at he'
      cases he'
      have hne : e.parts ≠ [] := List.ne_nil_of_mem hp
      have hsome : ¬e.parts.all (fun p => (p.resolve root 0).toOption.isSome) = true :=
        fun h => hgone (hall.mp h p hp)
      simp only [(rival?_eq_none_iff he).mpr hfree, List.isEmpty_iff, hne, if_false, hsome]
      rfl
    | made he' hfree hne hfound =>
      rw [he] at he'
      cases he'
      simp [(rival?_eq_none_iff he).mpr hfree, hne, hall.mpr hfound]
  · rintro rfl
    cases hr : rival? edits i e with
    | some f =>
      obtain ⟨j, hf, hij, hfirst⟩ := (rival?_eq_some_iff he).mp hr
      exact .rival hf hij hfirst
    | none =>
      have hfree := (rival?_eq_none_iff he).mp hr
      dsimp only
      split
      · rename_i hnone
        exact .noParts he hfree (List.isEmpty_iff.mp hnone)
      · rename_i hne
        split
        · rename_i hfound
          exact .made he hfree (by simpa using hne) (hall.mp hfound)
        · rename_i hgone
          rw [hall] at hgone
          push Not at hgone
          obtain ⟨p, hp, hgone⟩ := hgone
          exact .vanished he hfree hp hgone

end Rival

theorem getElem?_verdicts {root : Tree} {edits : List Edit} {i : Nat} {v : Option LeftReason} :
    (verdicts root edits)[i]? = some v ↔ Judged root edits i v := by
  rw [verdicts, List.getElem?_map, List.getElem?_zipIdx]
  cases he : edits[i]? with
  | none =>
    simp only [Option.map_none, reduceCtorEq, false_iff]
    intro h
    cases h with
    | rival hf hij hfirst =>
      obtain ⟨-, e, f, he', -⟩ := hij
      rw [he] at he'
      cases he'
    | noParts he' | vanished he' | made he' =>
      rw [he] at he'
      cases he'
  | some e => simp [judged_iff he]

theorem parts_ne_nil_of_accepted {root : Tree} {edits : List Edit} {e : Edit} (h : e ∈ accepted root edits) :
    e.parts ≠ [] := by
  simp only [accepted, List.mem_filterMap, List.mem_map] at h
  obtain ⟨_, ⟨⟨f, i⟩, hf, rfl⟩, he⟩ := h
  rw [Option.ite_none_right_eq_some, Option.some.injEq] at he
  obtain ⟨hnone, rfl⟩ := he
  have hj := (judged_iff (List.mk_mem_zipIdx_iff_getElem?.mp hf)).mpr (Option.isNone_iff_eq_none.mp hnone)
  cases hj with
  | made he' hfree hne hall =>
    rw [List.mk_mem_zipIdx_iff_getElem?.mp hf] at he'
    cases he'
    exact hne

theorem perm_kept_dropped {edits : List Edit} {verdicts : List (Option LeftReason)}
    (h : verdicts.length = edits.length) : ((kept edits verdicts).map (·.finding) ++
      (dropped edits verdicts).map (·.finding)).Perm (edits.map (·.finding)) := by
  induction edits generalizing verdicts with
  | nil => simp [kept, dropped]
  | cons e edits ih =>
    cases verdicts with
    | nil => cases h
    | cons v verdicts =>
      have hrest := ih (Nat.succ.inj h)
      cases v with
      | none => exact hrest.cons e.finding
      | some reason => exact List.perm_middle.trans (hrest.cons e.finding)

def Records (x : String × Part) (a : Applied) : Prop :=
  a.rule = x.1 ∧ a.span = x.2.span ∧ x.2.Writes a.replacement

theorem step_records {g g' : Progress} {x : String × Part} (h : step g x = .ok g') :
    ∃ a, Records x a ∧ g'.made = a :: g.made := by
  simp only [step] at h
  cases hr : x.2.resolve g.tree (g.shift x.2.span.start) with
  | error u => simp [hr, bind, Except.bind] at h
  | ok target =>
    simp only [hr, bind, Except.bind, pure, Except.pure] at h
    cases hf : x.2.fold target with
    | none => simp [hf] at h
    | some made =>
      simp only [hf, Except.ok.injEq] at h
      subst h
      exact ⟨_, ⟨rfl, rfl, Part.writes_fold hf⟩, rfl⟩

theorem run_records {g g' : Progress} {parts : List (String × Part)} (h : parts.foldlM step g = .ok g') :
    ∃ made, List.Forall₂ Records parts.reverse made ∧ g'.made = made ++ g.made := by
  induction parts generalizing g with
  | nil =>
    cases h
    exact ⟨[], .nil, rfl⟩
  | cons x parts ih =>
    rw [List.foldlM_cons] at h
    cases hs : step g x with
    | error f => simp [hs, bind, Except.bind] at h
    | ok g₁ =>
      obtain ⟨a, ha, hmade⟩ := step_records hs
      obtain ⟨made, hrest, hmade'⟩ := ih (by simpa only [hs, bind, Except.bind] using h)
      refine ⟨made ++ [a], ?_, by rw [hmade', hmade, List.append_assoc]; rfl⟩
      rw [List.reverse_cons]
      exact List.rel_append hrest (.cons ha .nil)

theorem apply_outcome {source : Source} {edits : List Edit} {cancelled : Bool} {r : Revision}
    (h : apply source edits cancelled = .ok r) :
    r.applied = (accepted source.tree edits).map (·.finding) ∧
      r.leftovers = dropped edits (verdicts source.tree edits) ∧
      r.needsRetry = r.leftovers.any (fun l => l.reason == .vanished) ∧
      List.Forall₂ Records (partsOf (accepted source.tree edits)).reverse r.edits ∧
      (accepted source.tree edits = [] → r.source = source ∧ r.edits = [] ∧ r.offsets = {}) := by
  replace h := apply_of_cancelled h
  rw [apply_uncancelled] at h
  dsimp only at h
  split at h
  · rename_i hnil
    rw [List.isEmpty_iff] at hnil
    cases h
    rw [hnil]
    exact ⟨rfl, rfl, rfl, by simp [partsOf], fun _ => ⟨rfl, rfl, rfl⟩⟩
  · rename_i hne
    split at h
    · cases h
    · split at h
      · cases h
      · rename_i g hg
        cases h
        obtain ⟨made, hrecords, hmade⟩ := run_records hg
        rw [List.append_nil] at hmade
        exact ⟨rfl, rfl, rfl, hmade ▸ hrecords, fun hnil => absurd (List.isEmpty_iff.mpr hnil) hne⟩

/-- Every edit of a batch is accounted for. It is made exactly if nothing is against it, and else left out for what
is against it first; all parts of the edits that are made are recorded, each once, and no others. -/
theorem apply_accounts {source : Source} {edits : List Edit} {cancelled : Bool} {r : Revision}
    (h : apply source edits cancelled = .ok r) :
    ∃ verdicts : List (Option LeftReason),
      (∀ i v, verdicts[i]? = some v ↔ Judged source.tree edits i v) ∧
      r.applied = (kept edits verdicts).map (·.finding) ∧
      r.leftovers = dropped edits verdicts ∧
      (r.applied ++ r.leftovers.map (·.finding)).Perm (edits.map (·.finding)) ∧
      (r.needsRetry = true ↔ ∃ l ∈ r.leftovers, l.reason = .vanished) ∧
      (∃ row, row.Perm (tagged (kept edits verdicts)) ∧ List.Forall₂ Records row r.edits) ∧
      (r.applied = [] → r.source = source ∧ r.edits = [] ∧ r.offsets = {}) := by
  obtain ⟨happlied, hleft, hretry, hrecords, hnone⟩ := apply_outcome h
  refine ⟨verdicts source.tree edits, fun i v => getElem?_verdicts, ?_, hleft, ?_, ?_, ?_, ?_⟩
  · rw [kept_verdicts, happlied]
  · have hlength : (verdicts source.tree edits).length = edits.length := by simp [verdicts]
    rw [happlied, hleft, ← kept_verdicts]
    exact perm_kept_dropped hlength
  · rw [hretry, List.any_eq_true]
    simp only [beq_iff_eq]
  · refine ⟨_, ?_, hrecords⟩
    rw [kept_verdicts]
    exact (List.reverse_perm _).trans (List.mergeSort_perm _ _)
  · intro hempty
    rw [happlied, List.map_eq_nil_iff] at hempty
    exact hnone hempty

def crowded : List Edit :=
  [{ finding := { rule := "a", span := ⟨0, 6⟩ }
     parts := [⟨⟨0, 6⟩, .replaceTokens [.token .throwKw "throw".toList], nofun⟩] },
    { finding := { rule := "b", span := ⟨0, 9⟩ }
      parts := [⟨⟨0, 9⟩, .replaceTokens [], nofun⟩] },
    { finding := { rule := "c", span := ⟨8, 1⟩ }
      parts := [⟨⟨8, 1⟩, .removeToken .rParen false, nofun⟩] },
    { finding := { rule := "d", span := ⟨0, 0⟩ } },
    { finding := { rule := "e", span := ⟨20, 1⟩ }
      parts := [⟨⟨20, 1⟩, .replaceTokens [], nofun⟩] },
    { finding := { rule := "f", span := ⟨9, 1⟩ }
      parts := [⟨⟨9, 1⟩, .removeToken .semicolon false, nofun⟩,
        ⟨⟨9, 0⟩, .insertAfter .rParen [.token .semicolon [';']], fun _ => rfl⟩] }]

theorem apply_crowded : ∃ r, apply parenthesizedReturn crowded false = .ok r ∧
    r.applied.map (·.rule) = ["f"] ∧ r.needsRetry = true ∧ r.leftovers.map (·.reason) =
      [.conflict "b", .conflict "a", .conflict "b", .notApplicable "edit has no parts", .vanished] := by
  have hparts : partsOf (accepted parenthesizedReturn.tree crowded) = (tagged (crowded.drop 5)).reverse :=
    partsOf_eq (List.reverse_perm _).symm (by decide)
  rw [apply_uncancelled]
  dsimp only
  rw [hparts]
  exact ⟨_, rfl, rfl, rfl, rfl⟩

theorem apply_accounts_crowded : ∃ r, apply parenthesizedReturn crowded false = .ok r ∧
    r.applied.map (·.rule) = ["f"] ∧ r.needsRetry = true ∧
    r.leftovers.map (·.reason) =
      [.conflict "b", .conflict "a", .conflict "b", .notApplicable "edit has no parts", .vanished] ∧
    (r.applied ++ r.leftovers.map (·.finding)).Perm (crowded.map (·.finding)) ∧
    ∃ verdicts, (∀ i v, verdicts[i]? = some v ↔ Judged parenthesizedReturn.tree crowded i v) ∧
      ∃ row, row.Perm (tagged (kept crowded verdicts)) ∧ List.Forall₂ Records row r.edits := by
  obtain ⟨r, hr, happlied, hretry, hleft⟩ := apply_crowded
  obtain ⟨verdicts, hjudged, -, -, hperm, -, hrecords, -⟩ := apply_accounts hr
  exact ⟨r, hr, happlied, hretry, hleft, hperm, verdicts, hjudged, hrecords⟩

end Batch

end Lintel
