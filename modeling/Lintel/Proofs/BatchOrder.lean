import Lintel.Proofs.BatchTriage
import Lintel.Proofs.Splicing

namespace Lintel.Batch

theorem before_iff (a b : Applied) : Applied.before a b = true ↔
    a.span.start < b.span.start ∨ (a.span.start = b.span.start ∧ a.span.length ≤ b.span.length) := by
  simp only [Applied.before, Bool.or_eq_true, Bool.and_eq_true, beq_iff_eq, decide_eq_true_eq]
  simp only [Span.stop]
  omega

theorem mergeSort_eq_of_leads {made ordered : List Applied} (hp : made.Perm ordered)
    (ho : ordered.Pairwise (fun a b => a.span.leads b.span)) : made.mergeSort Applied.before = ordered := by
  have hsorted : (made.mergeSort Applied.before).Pairwise (fun a b => Applied.before a b = true) := by
    apply List.pairwise_mergeSort
    · intro a b c hab hbc
      rw [before_iff] at *
      omega
    · intro a b
      rw [Bool.or_eq_true, before_iff, before_iff]
      omega
  have hbefore : ordered.Pairwise (fun a b => Applied.before a b = true) := by
    apply ho.imp
    intro a b hab
    simp only [before_iff, Span.leads, Span.stop] at hab ⊢
    omega
  have hapart : ∀ a ∈ ordered, ∀ b ∈ ordered, a = b ∨ a.span.leads b.span ∨ b.span.leads a.span := by
    apply List.Pairwise.forall_of_forall_of_flip
    · exact fun a _ => Or.inl rfl
    · exact ho.imp (fun h => Or.inr (Or.inl h))
    · exact ho.imp (fun h => Or.inr (Or.inr h))
  apply List.Perm.eq_of_pairwise _ hsorted hbefore ((List.mergeSort_perm _ _).trans hp)
  intro a b ha hb hab hba
  have ha' : a ∈ ordered := hp.mem_iff.mp (List.mem_mergeSort.mp ha)
  rw [before_iff] at hab hba
  rcases hapart a ha' b hb with h | h | h
  · exact h
  · simp only [Span.leads, Span.stop] at h
    omega
  · simp only [Span.leads, Span.stop] at h
    omega

theorem rival?_none {edits : List Edit} {i j : Nat} {e f : Edit} (h : rival? edits i e = none)
    (hf : (f, j) ∈ edits.zipIdx) (hij : j ≠ i) : e.conflicts f = false := by
  rw [rival?, Option.map_eq_none_iff, List.find?_eq_none] at h
  have hx := h (f, j) (List.mem_filter.mpr ⟨hf, by simpa using hij⟩)
  simpa using hx

theorem mem_accepted {root : Tree} {edits : List Edit} {e : Edit} (h : e ∈ accepted root edits) : e ∈ edits := by
  simp only [accepted, List.mem_filterMap, List.mem_map] at h
  obtain ⟨_, ⟨⟨f, i⟩, hf, rfl⟩, he⟩ := h
  split at he
  · cases he
    exact (List.mem_zipIdx' hf).2 ▸ List.getElem_mem _
  · cases he

theorem pairwise_accepted (root : Tree) (edits : List Edit) :
    (accepted root edits).Pairwise (fun e f => e.conflicts f = false) := by
  have hidx : edits.zipIdx.Pairwise (fun x y => x.2 < y.2) := by
    have h : (edits.zipIdx.map Prod.snd).Pairwise (· < ·) := by
      rw [List.zipIdx_map_snd]
      exact List.pairwise_lt_range'
    exact List.pairwise_map.mp h
  rw [accepted, List.filterMap_map, List.pairwise_filterMap]
  apply List.Pairwise.imp_of_mem _ hidx
  intro x y hx hy hlt e he f hf
  simp only [Function.comp_apply, Option.isNone_iff_eq_none, Option.ite_none_right_eq_some,
    Option.some.injEq] at he hf
  obtain ⟨ho, rfl⟩ := he
  obtain ⟨-, rfl⟩ := hf
  rw [objection?] at ho
  cases hr : rival? edits x.2 x.1 with
  | some r => simp [hr] at ho
  | none => exact rival?_none hr hy (by omega)

theorem rightmost_iff (x y : String × Part) : rightmost x y = true ↔ y.2.span.start < x.2.span.start ∨
    (x.2.span.start = y.2.span.start ∧ x.2.span.length ≤ y.2.span.length) := by
  have hx : x.2.span.stop = x.2.span.start + x.2.span.length := rfl
  have hy : y.2.span.stop = y.2.span.start + y.2.span.length := rfl
  simp only [rightmost, Bool.or_eq_true, Bool.and_eq_true, beq_iff_eq, decide_eq_true_eq]
  omega

theorem pairwise_rightmost (edits : List Edit) : (partsOf edits).Pairwise (fun x y => rightmost x y = true) := by
  apply List.pairwise_mergeSort
  · intro x y z hxy hyz
    rw [rightmost_iff] at *
    omega
  · intro x y
    rw [Bool.or_eq_true, rightmost_iff, rightmost_iff]
    omega

theorem pairwise_partsOf {root : Tree} {edits : List Edit}
    (h : ∀ e ∈ edits, e.parts.Pairwise (fun p q => p.span.conflicts q.span = false)) :
    (partsOf (accepted root edits)).Pairwise (fun x y => x.2.span.yields y.2.span) := by
  have hclear : ((accepted root edits).flatMap (fun e => e.parts.map (fun p => (e.rule, p)))).Pairwise
      (fun x y => x.2.span.conflicts y.2.span = false) := by
    rw [List.pairwise_flatMap]
    constructor
    · intro e he
      exact List.pairwise_map.mpr (h e (mem_accepted he))
    · apply (pairwise_accepted root edits).imp
      intro e f hef x hx y hy
      obtain ⟨p, hp, rfl⟩ := List.mem_map.mp hx
      obtain ⟨q, hq, rfl⟩ := List.mem_map.mp hy
      have hp' := List.any_eq_false.mp hef p hp
      exact Bool.not_eq_true _ ▸ List.any_eq_false.mp (Bool.not_eq_true _ ▸ hp') q hq
  have hsorted := pairwise_rightmost (accepted root edits)
  have hperm := hclear.perm (List.mergeSort_perm _ rightmost).symm
    (fun {x y} hxy => by rw [Span.conflicts_comm]; exact hxy)
  apply (hperm.and hsorted).imp
  intro x y hxy
  apply Span.yields_of_conflicts hxy.1
  simpa only [rightmost, Bool.or_eq_true, Bool.and_eq_true, beq_iff_eq, decide_eq_true_eq] using hxy.2

theorem overlap?_of_pairwise {parts : List (String × Part)}
    (h : parts.Pairwise (fun x y => x.2.span.yields y.2.span)) : overlap? parts = none := by
  fun_induction overlap? parts with
  | case1 a b rest later earlier hc ih => exact ih (List.pairwise_cons.mp h).2
  | case2 a b rest later earlier hc =>
    have hyield := (List.pairwise_cons.mp h).1 b List.mem_cons_self
    simp only [Bool.or_eq_true, Bool.and_eq_true, decide_eq_true_eq, beq_iff_eq, Span.isEmpty, later, earlier] at hc
    simp only [Span.yields, Span.leads] at hyield
    omega
  | case3 => rfl

end Lintel.Batch
