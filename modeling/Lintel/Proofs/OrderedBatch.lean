import Lintel.Proofs.BatchOrder

namespace Lintel

def Part.Leads (p q : Part) : Prop :=
  p.span.start < q.span.start ∧ p.span.stop ≤ q.span.start

/-- Whether a part comes before another in a row. A stretch comes before an insertion at its start. -/
def Part.Precedes (p q : Part) : Prop :=
  p.Leads q ∨ p.span.start = q.span.start ∧ 0 < p.span.length ∧ q.span.length = 0

theorem Part.Precedes.conflicts {p q : Part} (h : p.Precedes q) : p.span.conflicts q.span = false := by
  have hstop : q.span.start ≤ q.span.stop := Nat.le_add_right _ _
  rw [Bool.eq_false_iff, Ne, Span.conflicts_iff]
  simp only [Precedes, Leads, Span.stop] at *
  omega

theorem Part.Precedes.yields {p q : Part} (h : p.Precedes q) : q.span.yields p.span := by
  simp only [Precedes, Leads, Span.yields, Span.leads, Span.stop] at *
  omega

namespace Batch

theorem rightmost_of_precedes {x y : String × Part} (h : x.2.Precedes y.2) :
    rightmost y x = true ∧ rightmost x y = false := by
  rw [Bool.eq_false_iff, Ne]
  simp only [rightmost, Bool.or_eq_true, Bool.and_eq_true, beq_iff_eq, decide_eq_true_eq]
  simp only [Part.Precedes, Part.Leads, Span.stop] at *
  omega

def tagged (edits : List Edit) : List (String × Part) :=
  edits.flatMap (fun e => e.parts.map (fun p => (e.rule, p)))

theorem pairwise_tagged {edits : List Edit} (h : (edits.flatMap (·.parts)).Pairwise Part.Leads) :
    (tagged edits).Pairwise (fun x y => x.2.Precedes y.2) := by
  have hmap : (tagged edits).map (·.2) = edits.flatMap (·.parts) := by
    simp [tagged, List.map_flatMap, Function.comp_def]
  exact (List.pairwise_map.mp (hmap ▸ h)).imp Or.inl

theorem partsOf_eq {edits : List Edit} {row : List (String × Part)} (hrow : (tagged edits).Perm row)
    (hstrict : row.Pairwise (fun x y => rightmost x y = true ∧ rightmost y x = false)) : partsOf edits = row := by
  have hties : ∀ x ∈ row, ∀ y ∈ row, rightmost x y = true → rightmost y x = true → x = y := by
    apply List.Pairwise.forall_of_forall_of_flip
    · exact fun x _ _ _ => rfl
    · exact hstrict.imp fun h _ hback => absurd (h.2.symm.trans hback) Bool.false_ne_true
    · exact hstrict.imp fun h hback _ => absurd (h.2.symm.trans hback) Bool.false_ne_true
  apply List.Perm.eq_of_pairwise _ (pairwise_rightmost edits) (hstrict.imp And.left)
    ((List.mergeSort_perm _ _).trans hrow)
  intro x y hx hy
  exact hties x (hrow.mem_iff.mp (List.mem_mergeSort.mp hx)) y hy

section Ordered

variable {edits : List Edit} {row : List (String × Part)} (hrow : (tagged edits).Perm row)
  (horder : row.Pairwise (fun x y => x.2.Precedes y.2))

include hrow horder

theorem rival?_ordered {e : Edit} {i : Nat} (he : (e, i) ∈ edits.zipIdx) : rival? edits i e = none := by
  have hclear : (tagged edits).Pairwise (fun x y => x.2.span.conflicts y.2.span = false) :=
    hrow.symm.pairwise (horder.imp fun h => h.conflicts) fun h => by rwa [Span.conflicts_comm]
  have hpair := (List.pairwise_flatMap.mp hclear).2
  rw [List.pairwise_iff_getElem] at hpair
  rw [rival?, Option.map_eq_none_iff, List.find?_eq_none]
  rintro ⟨f, j⟩ hf
  obtain ⟨hf, hji⟩ := List.mem_filter.mp hf
  obtain ⟨hi, hei⟩ := List.mem_zipIdx' he
  obtain ⟨hj, hfj⟩ := List.mem_zipIdx' hf
  have hne : j ≠ i := by simpa using hji
  simp only [Edit.conflicts, Bool.not_eq_true, List.any_eq_false]
  intro p hp q hq
  have hpi : (edits[i].rule, p) ∈ edits[i].parts.map (fun p => (edits[i].rule, p)) :=
    List.mem_map.mpr ⟨p, hei ▸ hp, rfl⟩
  have hqj : (edits[j].rule, q) ∈ edits[j].parts.map (fun p => (edits[j].rule, p)) :=
    List.mem_map.mpr ⟨q, hfj ▸ hq, rfl⟩
  rcases Nat.lt_or_gt_of_ne hne with hlt | hlt
  · rw [Span.conflicts_comm]
    exact hpair j i hj hi hlt _ hqj _ hpi
  · exact hpair i j hi hj hlt _ hpi _ hqj

theorem partsOf_ordered : partsOf edits = row.reverse :=
  partsOf_eq (hrow.trans (List.reverse_perm row).symm)
    (List.pairwise_reverse.mpr (horder.imp fun h => rightmost_of_precedes h))

theorem objection?_ordered {root : Tree} {e : Edit} {i : Nat} (he : (e, i) ∈ edits.zipIdx) (hne : e.parts ≠ [])
    (hresolve : ∀ p ∈ e.parts, (p.resolve root 0).toOption.isSome = true) : objection? root edits i e = none := by
  rw [objection?, rival?_ordered hrow horder he]
  have hall : e.parts.all (fun p => (p.resolve root 0).toOption.isSome) = true := List.all_eq_true.mpr hresolve
  simp [hne, hall]

theorem apply_ordered {source : Source} (hedits : edits ≠ []) (hne : ∀ e ∈ edits, e.parts ≠ [])
    (hresolve : ∀ e ∈ edits, ∀ p ∈ e.parts, (p.resolve source.tree 0).toOption.isSome = true) {g : Progress}
    (hfold : row.reverse.foldlM step { tree := source.tree } = .ok g) :
    apply source edits false = .ok
      { source := { source with tree := g.tree }, applied := edits.map (·.finding), edits := g.made
        offsets := deltas g.made } := by
  have hjudged : edits.zipIdx.map (fun x => (x.1, objection? source.tree edits x.2 x.1)) =
      edits.map (fun e => (e, none)) := by
    have hnone : edits.zipIdx.map (fun x => (x.1, objection? source.tree edits x.2 x.1)) =
        edits.zipIdx.map (fun x => (x.1, none)) := by
      refine List.map_congr_left fun x hx => ?_
      have hmem : x.1 ∈ edits := (List.mem_zipIdx' hx).2 ▸ List.getElem_mem _
      rw [objection?_ordered hrow horder hx (hne x.1 hmem) (hresolve x.1 hmem)]
    have hfst := congrArg (List.map (fun e => ((e, none) : Edit × Option LeftReason))) (List.zipIdx_map_fst 0 edits)
    rw [List.map_map] at hfst
    rw [hnone]
    exact hfst
  have hleft : dropped edits (verdicts source.tree edits) = [] := by
    rw [dropped, zip_verdicts, hjudged, List.filterMap_map]
    simp
  have haccepted : accepted source.tree edits = edits := by
    rw [accepted, hjudged, List.filterMap_map]
    exact List.filterMap_some
  have hoverlap : overlap? row.reverse = none :=
    overlap?_of_pairwise (List.pairwise_reverse.mpr (horder.imp Part.Precedes.yields))
  simp only [apply_uncancelled, haccepted, hleft, List.isEmpty_iff, hedits, partsOf_ordered hrow horder, hoverlap,
    hfold]
  rfl

end Ordered

end Batch

end Lintel
