import Lintel.Proofs.BatchAccounting
import Lintel.Proofs.FoldTotality

/-!
What the check for overlapping parts finds. It looks at neighbours in the order in which parts are made. An insertion at
the start of a part comes between it and the parts that start further right, so an overlap with one of these is missed;
every other overlap is found.
-/

namespace Lintel

namespace Span

def Passes (later earlier : Span) : Prop :=
  earlier.stop ≤ later.start ∨ (later.start = earlier.start ∧ later.length = 0)

def Overlaps (a b : Span) : Prop :=
  0 < a.length ∧ a.start ≤ b.start ∧ b.start < a.stop ∧ (a.start < b.start ∨ 0 < b.length)

end Span

namespace Batch

theorem overlap?_eq_none_iff (parts : List (String × Part)) :
    overlap? parts = none ↔ parts.IsChain (fun x y => x.2.span.Passes y.2.span) := by
  fun_induction overlap? parts with
  | case1 a b rest later earlier hc ih =>
    have hpass : a.2.span.Passes b.2.span := by simpa [Span.Passes, Span.isEmpty, later, earlier] using hc
    rw [ih, List.isChain_cons_cons]
    exact ⟨fun h => ⟨hpass, h⟩, fun h => h.2⟩
  | case2 a b rest later earlier hc =>
    rw [List.isChain_cons_cons]
    constructor
    · intro h
      cases h
    · rintro ⟨hpass, -⟩
      apply absurd _ hc
      simpa [Span.Passes, Span.isEmpty] using hpass
  | case3 parts hshort =>
    simp only [true_iff]
    rcases parts with _ | ⟨a, _ | ⟨b, rest⟩⟩
    · exact .nil
    · exact .singleton a
    · exact absurd rfl (hshort a b rest)

def InsertsAt (edits : List Edit) (offset : Nat) : Prop :=
  ∃ e ∈ edits, ∃ p ∈ e.parts, p.span = ⟨offset, 0⟩

/-- Two parts that do not overlap, or whose overlap the check does not see. -/
def Unnoticed (edits : List Edit) (a b : Span) : Prop :=
  (a.Overlaps b → a.start < b.start ∧ InsertsAt edits a.start) ∧
    (b.Overlaps a → b.start < a.start ∧ InsertsAt edits b.start)

theorem Unnoticed.symm {edits : List Edit} {a b : Span} (h : Unnoticed edits a b) : Unnoticed edits b a :=
  ⟨h.2, h.1⟩

variable {edits : List Edit} {x y z : String × Part}

theorem unnoticed_iff (h : rightmost x y = true) : Unnoticed edits x.2.span y.2.span ↔
    x.2.span.Passes y.2.span ∨
      (0 < y.2.span.length ∧ y.2.span.start < x.2.span.start ∧ InsertsAt edits y.2.span.start) := by
  rw [rightmost_iff] at h
  simp only [Unnoticed, Span.Overlaps, Span.Passes, Span.stop]
  constructor
  · rintro ⟨hxy, hyx⟩
    by_cases hpass : y.2.span.start + y.2.span.length ≤ x.2.span.start
    · exact .inl (.inl hpass)
    · by_cases hempty : x.2.span.start = y.2.span.start ∧ x.2.span.length = 0
      · exact .inl (.inr hempty)
      · obtain ⟨hlt, hins⟩ := hyx (by omega)
        exact .inr ⟨by omega, hlt, hins⟩
  · rintro (hpass | ⟨hpos, hlt, hins⟩)
    · constructor <;> intro hover <;> omega
    · exact ⟨fun hover => by omega, fun _ => ⟨hlt, hins⟩⟩

theorem inserts_of_mem_partsOf (h : z ∈ partsOf edits) (hz : z.2.span.length = 0) :
    InsertsAt edits z.2.span.start := by
  obtain ⟨e, he, hp⟩ := mem_partsOf h
  refine ⟨e, he, z.2, hp, ?_⟩
  rw [← hz]

theorem exists_partsOf_of_inserts {offset : Nat} (h : InsertsAt edits offset) :
    ∃ z ∈ partsOf edits, z.2.span = ⟨offset, 0⟩ := by
  obtain ⟨e, he, p, hp, hspan⟩ := h
  refine ⟨(e.rule, p), ?_, hspan⟩
  apply List.mem_mergeSort.mpr
  exact List.mem_flatMap.mpr ⟨e, he, List.mem_map_of_mem hp⟩

theorem pairwise_unnoticed {parts : List (String × Part)}
    (hins : ∀ z ∈ parts, z.2.span.length = 0 → InsertsAt edits z.2.span.start)
    (hsorted : parts.Pairwise (fun x y => rightmost x y = true))
    (hchain : parts.IsChain (fun x y => x.2.span.Passes y.2.span)) :
    parts.Pairwise (fun x y => Unnoticed edits x.2.span y.2.span) := by
  induction parts with
  | nil => exact .nil
  | cons a parts ih =>
    obtain ⟨ha, hrest⟩ := List.pairwise_cons.mp hsorted
    have hih := ih (fun z hz => hins z (List.mem_cons_of_mem _ hz)) hrest hchain.tail
    apply List.pairwise_cons.mpr ⟨_, hih⟩
    cases parts with
    | nil => intro b hb; cases hb
    | cons c parts =>
      have hac := (List.isChain_cons_cons.mp hchain).1
      intro b hb
      rw [unnoticed_iff (ha b hb)]
      obtain rfl | hb := List.mem_cons.mp hb
      · exact .inl hac
      · -- The overlap of `a` and `b` goes by way of the neighbour `c` of `a`.
        have hcb := (List.pairwise_cons.mp hrest).1 b hb
        have hac' := ha c List.mem_cons_self
        have hstep := (List.pairwise_cons.mp hih).1 b hb
        rw [unnoticed_iff hcb] at hstep
        have hc := hins c (by simp)
        rw [rightmost_iff] at hcb hac'
        simp only [Span.Passes, Span.stop] at hac hstep ⊢
        obtain (hpass | ⟨hstart, hempty⟩) | ⟨hpos, hlt, hinsert⟩ := hstep
        · exact .inl (by omega)
        · rw [hstart] at hc
          by_cases hlt : b.2.span.start < a.2.span.start ∧ 0 < b.2.span.length
          · exact .inr ⟨hlt.2, hlt.1, hc hempty⟩
          · exact .inl (by omega)
        · exact .inr ⟨hpos, by omega, hinsert⟩

theorem isChain_of_unnoticed {parts : List (String × Part)}
    (hins : ∀ offset, InsertsAt edits offset → ∃ z ∈ parts, z.2.span = ⟨offset, 0⟩)
    (hsorted : parts.Pairwise (fun x y => rightmost x y = true))
    (h : parts.Pairwise (fun x y => Unnoticed edits x.2.span y.2.span)) :
    parts.IsChain (fun x y => x.2.span.Passes y.2.span) := by
  rw [List.isChain_iff_getElem]
  intro i hi
  rw [List.pairwise_iff_getElem] at h hsorted
  obtain hpass | ⟨hpos, hlt, hinsert⟩ := (unnoticed_iff (hsorted i (i + 1) (by omega) hi (by omega))).mp
    (h i (i + 1) (by omega) hi (by omega))
  · exact hpass
  · obtain ⟨z, hz, hspan⟩ := hins _ hinsert
    obtain ⟨k, hk, rfl⟩ := List.getElem_of_mem hz
    have hstart : parts[k].2.span.start = parts[i + 1].2.span.start := by rw [hspan]
    have hlength : parts[k].2.span.length = 0 := by rw [hspan]
    obtain hki | rfl | hik : k < i ∨ k = i ∨ i < k := by omega
    · have hle := (rightmost_iff _ _).mp (hsorted k i hk (by omega) hki)
      omega
    · omega
    · obtain rfl | hik : k = i + 1 ∨ i + 1 < k := by omega
      · omega
      · have hle := (rightmost_iff _ _).mp (hsorted (i + 1) k hi hk hik)
        omega

theorem unnoticed_of_conflicts {a b : Span} (h : a.conflicts b = false) : Unnoticed edits a b := by
  rw [← Bool.not_eq_true, Span.conflicts_iff] at h
  simp only [Unnoticed, Span.Overlaps, Span.stop] at h ⊢
  constructor <;> intro hover <;> omega

theorem pairwise_partsOf_iff (root : Tree) :
    (partsOf (accepted root edits)).Pairwise (fun x y => Unnoticed (accepted root edits) x.2.span y.2.span) ↔
      ∀ e ∈ accepted root edits, e.parts.Pairwise (fun p q => Unnoticed (accepted root edits) p.span q.span) := by
  rw [partsOf, (List.mergeSort_perm _ rightmost).pairwise_iff (fun {x y} hxy => hxy.symm), List.pairwise_flatMap]
  constructor
  · rintro ⟨hown, -⟩ e he
    have hpairs := hown e he
    rwa [List.pairwise_map] at hpairs
  · intro hown
    refine ⟨fun e he => List.pairwise_map.mpr (hown e he), ?_⟩
    apply (pairwise_accepted root edits).imp
    intro e f hef x hx y hy
    obtain ⟨p, hp, rfl⟩ := List.mem_map.mp hx
    obtain ⟨q, hq, rfl⟩ := List.mem_map.mp hy
    apply unnoticed_of_conflicts
    have hp' := List.any_eq_false.mp hef p hp
    exact Bool.not_eq_true _ ▸ List.any_eq_false.mp (Bool.not_eq_true _ ▸ hp') q hq

theorem overlap?_partsOf_eq_none_iff (root : Tree) : overlap? (partsOf (accepted root edits)) = none ↔
    ∀ e ∈ accepted root edits, e.parts.Pairwise (fun p q => Unnoticed (accepted root edits) p.span q.span) := by
  rw [overlap?_eq_none_iff, ← pairwise_partsOf_iff]
  constructor
  · intro hchain
    exact pairwise_unnoticed (fun z hz => inserts_of_mem_partsOf hz) (pairwise_rightmost _) hchain
  · intro h
    exact isChain_of_unnoticed (fun _ => exists_partsOf_of_inserts) (pairwise_rightmost _) h

theorem apply_crash_iff (source : Source) (edits : List Edit) :
    (∃ later earlier : Span, apply source edits false = .error (.crash (some
        s!"overlapping edit parts reached the folding pass: {earlier.render} and {later.render}"))) ↔
      overlap? (partsOf (accepted source.tree edits)) ≠ none := by
  rw [apply_uncancelled]
  dsimp only
  split
  · rename_i hnil
    rw [List.isEmpty_iff.mp hnil]
    constructor
    · rintro ⟨later, earlier, h⟩
      cases h
    · intro h
      exact absurd (by simp [partsOf, overlap?]) h
  · cases hover : overlap? (partsOf (accepted source.tree edits)) with
    | some spans =>
      constructor
      · intro _ hnone
        cases hnone
      · intro _
        exact ⟨spans.1, spans.2, rfl⟩
    | none =>
      dsimp only
      constructor
      · rintro ⟨later, earlier, h⟩
        split at h <;> cases h
      · intro h
        exact absurd rfl h

/-- A batch is refused for overlapping parts exactly if two parts of an edit that would be made overlap, and either
start together or have no insertion at the start of the one further left. -/
theorem apply_refuses_overlap_iff (source : Source) (edits : List Edit) :
    (∃ later earlier : Span, apply source edits false = .error (.crash (some
        s!"overlapping edit parts reached the folding pass: {earlier.render} and {later.render}"))) ↔
      ∃ e ∈ accepted source.tree edits, ∃ (i j : Nat) (p q : Part), i ≠ j ∧ e.parts[i]? = some p ∧
        e.parts[j]? = some q ∧ p.span.Overlaps q.span ∧
        (p.span.start < q.span.start → ¬InsertsAt (accepted source.tree edits) p.span.start) := by
  rw [apply_crash_iff, ne_eq, overlap?_partsOf_eq_none_iff]
  constructor
  · intro h
    simp only [not_forall] at h
    obtain ⟨e, he, hpairs⟩ := h
    rw [List.pairwise_iff_getElem] at hpairs
    simp only [not_forall] at hpairs
    obtain ⟨i, j, hi, hj, hij, hnot⟩ := hpairs
    have hor : (e.parts[i].span.Overlaps e.parts[j].span ∧ ¬(e.parts[i].span.start < e.parts[j].span.start ∧
          InsertsAt (accepted source.tree edits) e.parts[i].span.start)) ∨
        (e.parts[j].span.Overlaps e.parts[i].span ∧ ¬(e.parts[j].span.start < e.parts[i].span.start ∧
          InsertsAt (accepted source.tree edits) e.parts[j].span.start)) := by
      by_contra hneither
      apply hnot
      constructor
      · intro hover
        by_contra hsee
        exact hneither (.inl ⟨hover, hsee⟩)
      · intro hover
        by_contra hsee
        exact hneither (.inr ⟨hover, hsee⟩)
    obtain ⟨hover, hsee⟩ | ⟨hover, hsee⟩ := hor
    · exact ⟨e, he, i, j, _, _, by omega, List.getElem?_eq_getElem hi, List.getElem?_eq_getElem hj, hover,
        fun hlt hins => hsee ⟨hlt, hins⟩⟩
    · exact ⟨e, he, j, i, _, _, by omega, List.getElem?_eq_getElem hj, List.getElem?_eq_getElem hi, hover,
        fun hlt hins => hsee ⟨hlt, hins⟩⟩
  · rintro ⟨e, he, i, j, p, q, hij, hp, hq, hover, hsee⟩ hall
    have hpairs := hall e he
    rw [List.pairwise_iff_getElem] at hpairs
    obtain ⟨hi, rfl⟩ := List.getElem?_eq_some_iff.mp hp
    obtain ⟨hj, rfl⟩ := List.getElem?_eq_some_iff.mp hq
    have hhidden : Unnoticed (accepted source.tree edits) e.parts[i].span e.parts[j].span := by
      obtain hlt | hlt : i < j ∨ j < i := by omega
      · exact hpairs i j hi hj hlt
      · exact (hpairs j i hj hi hlt).symm
    obtain ⟨hlt, hins⟩ := hhidden.1 hover
    exact hsee hlt hins

def assignStatement : Source :=
  ⟨.node .exprStmt [.node .assignmentExpr [.node .nameExpr [.token .ident ['x']], .token .eq ['='],
    .node .nameExpr [.token .ident ['y']]], .token .semicolon [';']], none⟩

def veiledOverlap : List Edit :=
  [{ finding := { rule := "a", span := ⟨0, 0⟩ }
     parts := [⟨⟨1, 0⟩, .insertAfter .ident [.token .whitespace [' ']], fun _ => Eq.refl 0⟩,
       ⟨⟨1, 2⟩, .replaceTokens [.token .eq ['='], .token .ident ['w']], fun h => Bool.noConfusion h⟩,
       ⟨⟨2, 1⟩, .replaceTokens [.token .ident ['z']], fun h => Bool.noConfusion h⟩] }]

/-- The space hides the overlap: the batch goes through and makes both replacements, one inside the other. -/
theorem apply_veiledOverlap : accepted assignStatement.tree veiledOverlap = veiledOverlap ∧
    (⟨1, 2⟩ : Span).Overlaps ⟨2, 1⟩ ∧
    ∃ r, apply assignStatement veiledOverlap false = .ok r ∧ r.edits.map (·.span) = [⟨1, 2⟩, ⟨1, 0⟩, ⟨2, 1⟩] ∧
      r.source.tree.text = "x =w;".toList := by
  have hall : accepted assignStatement.tree veiledOverlap = veiledOverlap := rfl
  have hparts : partsOf veiledOverlap = (tagged veiledOverlap).drop 2 ++ (tagged veiledOverlap).take 2 :=
    partsOf_eq (List.perm_append_comm.trans (.of_eq (List.take_append_drop 2 _))).symm (by decide)
  refine ⟨hall, by simp [Span.Overlaps, Span.stop], ?_⟩
  rw [apply_uncancelled]
  dsimp only
  rw [hall, hparts]
  exact ⟨_, rfl, rfl, rfl⟩

end Batch

end Lintel
