import Lintel.Proofs.OrderedBatch
import Lintel.Proofs.Surgery

namespace Lintel

namespace Batch

def insertedAt (offset : Nat) : List Applied → Nat
  | [] => 0
  | a :: _ => if a.span.length = 0 ∧ a.span.start = offset then a.replacement.size else 0

/-- What holds between two parts of a batch: `ordered` are the parts made so far from left to right, and
`ahead` those still to be made from right to left. -/
structure Inv (old : Text) (g : Progress) (ordered : List Applied) (ahead : List (String × Part)) : Prop where
  perm : g.made.Perm ordered
  order : ordered.Pairwise (fun a b => a.span.leads b.span)
  spliced : Spliced 0 old ordered g.tree.text
  clear : ∀ x ∈ ahead, ∀ a ∈ ordered, a.span.yields x.2.span
  shift : ∀ x ∈ ahead, g.shift x.2.span.start = insertedAt x.2.span.start ordered

theorem Inv.initial (t : Tree) (ahead : List (String × Part)) : Inv t.text { tree := t } [] ahead :=
  ⟨.refl _, .nil, .rest 0 _, by simp, fun _ _ => rfl⟩

theorem step_cases {g g' : Progress} {x : String × Part} (h : step g x = .ok g') :
    ∃ tree new, Rewrites g.tree tree (x.2.span.shift (g.shift x.2.span.start)) new ∧
      g' = { tree
             made := ⟨x.1, x.2.span, new⟩ :: g.made
             inserted := if x.2.span.isEmpty then some (x.2.span.start, g.shift x.2.span.start + new.size)
               else g.inserted } := by
  obtain ⟨rule, p⟩ := x
  simp only [step] at h
  cases hr : p.resolve g.tree (g.shift p.span.start) with
  | error u => simp [hr, bind, Except.bind] at h
  | ok target =>
    simp only [hr, bind, Except.bind, pure, Except.pure] at h
    cases hf : p.fold target with
    | none => simp [hf] at h
    | some made =>
      simp only [hf, Except.ok.injEq] at h
      exact ⟨made.1, made.2, Part.rewrites_fold hr hf, h.symm⟩

theorem Inv.step_after {old : Text} {g g' : Progress} {a : Applied} {ordered : List Applied} {x : String × Part}
    {ahead : List (String × Part)} (hi : Inv old g (a :: ordered) (x :: ahead))
    (hx : ∀ y ∈ ahead, x.2.span.yields y.2.span) (ha : a.span.length = 0 ∧ a.span.start = x.2.span.start)
    (h : step g x = .ok g') : ∃ ordered', Inv old g' ordered' ahead := by
  obtain ⟨tree, new, hw, rfl⟩ := step_cases h
  have hshift : g.shift x.2.span.start = a.replacement.size := by
    rw [hi.shift x List.mem_cons_self, insertedAt, if_pos ha]
  have hpos : 0 < x.2.span.length := by
    have hc := hi.clear x List.mem_cons_self a List.mem_cons_self
    simp only [Span.yields, Span.leads, Span.stop] at hc
    omega
  obtain ⟨hfirst, hrest⟩ := List.pairwise_cons.mp hi.order
  have hleads : ∀ b ∈ ordered, x.2.span.leads b.span := by
    intro b hb
    have hab := hfirst b hb
    have hc := hi.clear x List.mem_cons_self b (List.mem_cons_of_mem _ hb)
    simp only [Span.yields, Span.leads, Span.stop] at hab hc ⊢
    omega
  have hax : a.span.leads x.2.span := ⟨by simp only [Span.stop]; omega, Or.inr hpos⟩
  refine ⟨a :: ⟨x.1, x.2.span, new⟩ :: ordered, ?_, ?_, ?_, ?_, ?_⟩
  · exact ((hi.perm.cons _).trans (.swap _ _ _))
  · refine List.pairwise_cons.mpr ⟨?_, List.pairwise_cons.mpr ⟨hleads, hrest⟩⟩
    intro b hb
    rcases List.mem_cons.mp hb with rfl | hb
    · exact hax
    · exact hfirst b hb
  · obtain ⟨before, gone, after, ht, hb, hg, hn⟩ := hw
    have hs := hi.spliced
    rw [ht] at hs
    rw [hn]
    generalize ho : before ++ gone ++ after = out at hs
    cases hs with
    | @edit _ kept cut rest out _ _ hstart hlength hs =>
      rw [List.append_assoc before] at ho
      simp only [Span.shift, hshift] at hb hg
      obtain ⟨rfl, rfl⟩ := Text.append_inj_size ho (by rw [Text.size_append]; omega)
      rw [List.append_assoc (kept ++ a.replacement)]
      apply Spliced.edit hstart hlength
      apply Spliced.cons [] gone after ⟨x.1, x.2.span, new⟩ hs
      · simp only [Span.stop, Text.size_nil]
        omega
      · exact hg.symm
      · exact hleads
  · intro y hy b hb
    rcases List.mem_cons.mp hb with rfl | hb
    · exact hi.clear y (List.mem_cons_of_mem _ hy) _ List.mem_cons_self
    · rcases List.mem_cons.mp hb with rfl | hb
      · exact hx y hy
      · exact hi.clear y (List.mem_cons_of_mem _ hy) b (List.mem_cons_of_mem _ hb)
  · intro y hy
    have hne : x.2.span.isEmpty = false := by
      simp only [Span.isEmpty, beq_eq_false_iff_ne]
      omega
    rw [hne]
    exact hi.shift y (List.mem_cons_of_mem _ hy)

theorem Inv.step_before {old : Text} {g g' : Progress} {ordered : List Applied} {x : String × Part}
    {ahead : List (String × Part)} (hi : Inv old g ordered (x :: ahead))
    (hx : ∀ y ∈ ahead, x.2.span.yields y.2.span)
    (hfree : ∀ a ∈ ordered.head?, ¬(a.span.length = 0 ∧ a.span.start = x.2.span.start))
    (h : step g x = .ok g') : ∃ ordered', Inv old g' ordered' ahead := by
  obtain ⟨tree, new, hw, rfl⟩ := step_cases h
  have hzero (offset : Nat) (hf : ∀ a ∈ ordered.head?, ¬(a.span.length = 0 ∧ a.span.start = offset)) :
      insertedAt offset ordered = 0 := by
    cases ordered with
    | nil => rfl
    | cons a ordered => rw [insertedAt, if_neg (hf a rfl)]
  have hshift : g.shift x.2.span.start = 0 := by
    rw [hi.shift x List.mem_cons_self, hzero _ hfree]
  have hleads : ∀ b ∈ ordered, x.2.span.leads b.span := by
    intro b hb
    have hc := hi.clear x List.mem_cons_self b hb
    cases ordered with
    | nil => cases hb
    | cons a ordered =>
      have hfa := hfree a rfl
      have hca := hi.clear x List.mem_cons_self a List.mem_cons_self
      rcases List.mem_cons.mp hb with rfl | hb
      · simp only [Span.yields, Span.leads, Span.stop] at hc ⊢
        omega
      · have hab := (List.pairwise_cons.mp hi.order).1 b hb
        simp only [Span.yields, Span.leads, Span.stop] at hc hca hab ⊢
        omega
  refine ⟨⟨x.1, x.2.span, new⟩ :: ordered, hi.perm.cons _, List.pairwise_cons.mpr ⟨hleads, hi.order⟩, ?_, ?_, ?_⟩
  · obtain ⟨before, gone, after, ht, hb, hg, hn⟩ := hw
    have hs := hi.spliced
    rw [ht] at hs
    rw [hn]
    simp only [Span.shift, hshift] at hb hg
    exact hs.cons before gone after ⟨x.1, x.2.span, new⟩ (by simp only; omega) hg.symm hleads
  · intro y hy b hb
    rcases List.mem_cons.mp hb with rfl | hb
    · exact hx y hy
    · exact hi.clear y (List.mem_cons_of_mem _ hy) b hb
  · intro y hy
    by_cases he : x.2.span.length = 0
    · have hem : x.2.span.isEmpty = true := by simp [Span.isEmpty, he]
      rw [hshift, hem]
      simp [Progress.shift, insertedAt, he]
    · have hem : x.2.span.isEmpty = false := by simp [Span.isEmpty, he]
      have hy' := hi.shift y (List.mem_cons_of_mem _ hy)
      rw [hzero y.2.span.start] at hy'
      · rw [hem, insertedAt, if_neg (fun hc : _ ∧ _ => he hc.1)]
        exact hy'
      · intro a ha hea
        have hxa := hleads a (List.mem_of_head? ha)
        have hxy := hx y hy
        simp only [Span.yields, Span.leads, Span.stop] at hxa hxy
        omega

theorem Inv.step {old : Text} {g g' : Progress} {ordered : List Applied} {x : String × Part}
    {ahead : List (String × Part)} (hi : Inv old g ordered (x :: ahead))
    (hx : ∀ y ∈ ahead, x.2.span.yields y.2.span) (h : Batch.step g x = .ok g') :
    ∃ ordered', Inv old g' ordered' ahead := by
  cases ordered with
  | nil => exact hi.step_before hx (by simp) h
  | cons a ordered =>
    by_cases ha : a.span.length = 0 ∧ a.span.start = x.2.span.start
    · exact hi.step_after hx ha h
    · exact hi.step_before hx (by simpa using ha) h

theorem Inv.run {old : Text} {g g' : Progress} {ordered : List Applied} {ahead : List (String × Part)}
    (hi : Inv old g ordered ahead) (hx : ahead.Pairwise (fun x y => x.2.span.yields y.2.span))
    (h : ahead.foldlM Batch.step g = .ok g') : ∃ ordered', Inv old g' ordered' [] := by
  induction ahead generalizing g ordered with
  | nil =>
    cases h
    exact ⟨ordered, hi⟩
  | cons x ahead ih =>
    obtain ⟨hfirst, hrest⟩ := List.pairwise_cons.mp hx
    rw [List.foldlM_cons] at h
    cases hs : Batch.step g x with
    | error f => simp [hs, bind, Except.bind] at h
    | ok g₁ =>
      obtain ⟨ordered₁, hi₁⟩ := hi.step hfirst hs
      exact ih hi₁ hrest (by simpa only [hs, bind, Except.bind] using h)

theorem apply_cases {source : Source} {edits : List Edit} {r : Revision} (h : apply source edits false = .ok r) :
    (r.source = source ∧ r.edits = [] ∧ r.offsets = {}) ∨
      ∃ g, (partsOf (accepted source.tree edits)).foldlM step { tree := source.tree } = .ok g ∧
        r.source.tree = g.tree ∧ r.edits = g.made ∧ r.offsets = deltas g.made := by
  rw [apply_uncancelled] at h
  dsimp only at h
  split at h
  · cases h
    exact Or.inl ⟨rfl, rfl, rfl⟩
  · split at h
    · cases h
    · split at h
      · cases h
      · rename_i g hg
        cases h
        exact Or.inr ⟨g, hg, rfl, rfl, rfl⟩

theorem apply_from_left {source : Source} {edits : List Edit} {r : Revision}
    (hparts : ∀ e ∈ edits, e.parts.Pairwise (fun p q => p.span.conflicts q.span = false))
    (h : apply source edits false = .ok r) :
    ∃ ordered, r.edits.Perm ordered ∧ ordered.Pairwise (fun a b => a.span.leads b.span) ∧
      Spliced 0 source.text ordered r.source.text ∧ r.offsets = deltas r.edits := by
  rcases apply_cases h with ⟨hs, he, ho⟩ | ⟨g, hg, ht, he, ho⟩
  · rw [hs, he, ho]
    exact ⟨[], .nil, .nil, .rest 0 _, by simp [deltas, OffsetMap.ofDeltas]⟩
  · obtain ⟨ordered, hi⟩ := (Inv.initial source.tree _).run (pairwise_partsOf hparts) hg
    rw [he, ho]
    refine ⟨ordered, hi.perm, hi.order, ?_, rfl⟩
    rw [Source.text, Source.text, ht]
    exact hi.spliced

theorem apply_spliced {source : Source} {edits : List Edit} {r : Revision}
    (hparts : ∀ e ∈ edits, e.parts.Pairwise (fun p q => p.span.conflicts q.span = false))
    (h : apply source edits false = .ok r) :
    Spliced 0 source.text (r.edits.mergeSort Applied.before) r.source.text := by
  obtain ⟨ordered, hperm, horder, hspliced, -⟩ := apply_from_left hparts h
  rwa [mergeSort_eq_of_leads hperm horder]

end Batch

namespace Consistency

theorem reparse?_ne_notLossless {c : Consistency} {source : Source} {issue : Issue}
    (h : c.reparse? source = .ok (some issue)) (offset : Nat) : issue ≠ .notLossless offset := by
  simp only [reparse?, bind, Except.bind, pure, Except.pure] at h
  split at h
  · cases h
  · split at h
    · cases h
      exact nofun
    · simp only [Except.ok.injEq, Option.map_eq_some_iff] at h
      obtain ⟨detail, -, rfl⟩ := h
      exact nofun

theorem exists_of_mem_residuals {c : Consistency} {r : Revision} {issues : List Issue} (h : c.residuals r = .ok issues)
    {issue : Issue} (hi : issue ∈ issues) : ∃ fixed found, issue = .notIdempotent fixed found := by
  simp only [residuals, bind, Except.bind, pure, Except.pure] at h
  split at h
  · cases h
    cases hi
  · split at h
    · cases h
    · cases h
      obtain ⟨fixed, -, hf⟩ := List.mem_filterMap.mp hi
      obtain ⟨found, -, rfl⟩ := Option.map_eq_some_iff.mp hf
      exact ⟨fixed, found, rfl⟩

theorem notLossless_not_mem_check {c : Consistency} {old : Source} {r : Revision} {issues : List Issue}
    (hl : lossless? old.text r = none) (h : c.check old r = .ok issues) (offset : Nat) :
    Issue.notLossless offset ∉ issues := by
  simp only [check, bind, Except.bind, pure, Except.pure] at h
  cases hp : c.reparse? r.source with
  | error f => simp [hp] at h
  | ok reparsed =>
    cases hd : c.residuals r with
    | error f => simp [hp, hd] at h
    | ok found =>
      simp only [hp, hd, hl, Except.ok.injEq] at h
      subst h
      simp only [Option.toList_none, List.nil_append, List.mem_append, Option.mem_toList, not_or]
      constructor
      · rintro rfl
        exact reparse?_ne_notLossless hp offset rfl
      · intro hm
        obtain ⟨fixed, found', he⟩ := exists_of_mem_residuals hd hm
        cases he

end Consistency

/-- A batch of edits is lossless: the new text is the old one with the replacements put in where the edits
say, and the check of a revision never finds it otherwise. -/
theorem Batch.lossless_apply {source : Source} {edits : List Edit} {r : Revision}
    (hparts : ∀ e ∈ edits, e.parts.Pairwise (fun p q => p.span.conflicts q.span = false))
    (h : apply source edits false = .ok r) :
    r.source.text = Applied.splice source.text r.edits ∧
      Spliced 0 source.text (r.edits.mergeSort Applied.before) r.source.text ∧
      ∀ (c : Consistency) (issues : List Issue), c.check source r = .ok issues →
        ∀ offset, Issue.notLossless offset ∉ issues := by
  have hs := apply_spliced hparts h
  have ht : r.source.text = Applied.splice source.text r.edits :=
    (hs.spliceFrom_eq [] _ rfl rfl).symm
  refine ⟨ht, hs, ?_⟩
  intro c issues hc offset
  exact Consistency.notLossless_not_mem_check (by simp [Consistency.lossless?, ht]) hc offset

theorem exists_ok_of_toOption_map {ε α β : Type} {x : Except ε α} {f : α → β} {b : β} (h : x.toOption.map f = some b) :
    ∃ a, x = .ok a ∧ f a = b := by
  cases x with
  | error e => cases h
  | ok a => exact ⟨a, rfl, Option.some.inj h⟩

def parenthesizedReturn : Source :=
  ⟨.node .returnStmt [.token .returnKw "return".toList,
    .node .parenExpr [.token .lParen ['('], .node .nameExpr [.token .ident ['x']], .token .rParen [')']],
    .token .semicolon [';']], none⟩

def unparenthesizing : List Edit :=
  [{ finding := { rule := "a", span := ⟨6, 3⟩ }
     parts := [⟨⟨6, 1⟩, .removeToken .lParen true, nofun⟩, ⟨⟨8, 1⟩, .removeToken .rParen true, nofun⟩] },
    { finding := { rule := "b", span := ⟨9, 1⟩ }
      parts := [⟨⟨9, 1⟩, .replaceTokens [.token .semicolon [';'], .token .semicolon [';']], nofun⟩,
        ⟨⟨9, 0⟩, .insertAfter .rParen [.token .blockComment "/**/".toList], fun _ => rfl⟩] }]

theorem Batch.lossless_apply_unparenthesizing :
    ∃ r, apply parenthesizedReturn unparenthesizing false = .ok r ∧ r.source.text = "return x/**/;;".toList ∧
      r.source.text = Applied.splice parenthesizedReturn.text r.edits := by
  have horder : (tagged unparenthesizing).Pairwise (fun x y => x.2.Precedes y.2) := by
    simp [tagged, unparenthesizing, Part.Precedes, Part.Leads, Span.stop]
  have hresolve : ∀ e ∈ unparenthesizing, ∀ p ∈ e.parts,
      (p.resolve parenthesizedReturn.tree 0).toOption.isSome = true := by decide +kernel
  have hfold : ((tagged unparenthesizing).reverse.foldlM step { tree := parenthesizedReturn.tree }).toOption.map
      (fun g => g.tree.text) = some "return x/**/;;".toList := by decide +kernel
  obtain ⟨g, hr, htext⟩ := exists_ok_of_toOption_map hfold
  have happly := apply_ordered (.refl _) horder (by decide) (by decide) hresolve hr
  exact ⟨_, happly, htext, (lossless_apply (by decide) happly).1⟩

end Lintel
