import Lintel.Proofs.OrderedBatch
import Lintel.Proofs.SpacingFixes

namespace Lintel.KeywordSpacing

open Word

theorem mem_clearing {offset : Nat} {gap : List Cell} {p : Part} (h : p ∈ clearing offset gap) :
    offset ≤ p.span.start ∧ p.span.stop ≤ offset + Cell.extent gap := by
  rw [clearing_eq] at h
  obtain ⟨b, hb, rfl⟩ := List.mem_map.mp h
  exact mem_blanks hb

theorem pairwise_clearing {gap : List Cell} (hfull : ∀ c ∈ gap, 0 < c.text.size) (offset : Nat) :
    (clearing offset gap).Pairwise Part.Leads := by
  induction gap generalizing offset with
  | nil => exact .nil
  | cons c gap ih =>
    have hc := hfull c (by simp)
    have htail := ih (fun d hd => hfull d (by simp [hd])) (offset + c.text.size)
    rw [clearing]
    split
    · refine .cons (fun p hp => ?_) htail
      have hle := (mem_clearing hp).1
      simp only [Part.Leads, Part.removal, Part.removing, Span.stop]
      omega
    · exact htail

theorem mem_partsAt {offset : Nat} {w : Word} {rest : List Word} {p : Part} (h : p ∈ partsAt offset w rest) :
    offset + w.head.text.size ≤ p.span.start ∧ p.span.stop ≤ offset + Cell.extent w.cells := by
  rw [cells, Cell.extent_cons]
  rw [partsAt] at h
  split at h
  · obtain rfl := List.mem_singleton.mp h
    simp only [Part.padding, Span.stop]
    omega
  · have := mem_clearing h
    omega
  · simp at h

theorem mem_partsFrom {offset : Nat} {ws : List Word} (hfull : ∀ c ∈ flatten ws, 0 < c.text.size) {p : Part}
    (h : p ∈ partsFrom offset ws) : offset < p.span.start := by
  induction ws generalizing offset with
  | nil => simp [partsFrom] at h
  | cons w ws ih =>
    have hw := hfull w.head (by simp)
    obtain h | h := List.mem_append.mp h
    · have := (mem_partsAt h).1
      omega
    · have := ih (fun c hc => hfull c (by simp [hc])) h
      omega

theorem pairwise_partsFrom {ws : List Word} (hfull : ∀ c ∈ flatten ws, 0 < c.text.size) (offset : Nat) :
    (partsFrom offset ws).Pairwise Part.Leads := by
  induction ws generalizing offset with
  | nil => exact .nil
  | cons w ws ih =>
    have htail : ∀ c ∈ flatten ws, 0 < c.text.size := fun c hc => hfull c (by simp [hc])
    refine List.pairwise_append.mpr ⟨?_, ih htail _, fun p hp q hq => ?_⟩
    · rw [partsAt]
      split
      · exact List.pairwise_singleton _ _
      · exact pairwise_clearing (fun c hc => hfull c (by simp [hc])) _
      · exact .nil
    · -- The head of the next word stands between the two parts.
      have hle := (mem_partsAt hp).2
      have hlt := mem_partsFrom htail hq
      have := p.span.start_le_stop
      exact ⟨by omega, by omega⟩

theorem exists_finding {w : Word} {ws : List Word} (h : ruling w ws ≠ .fine) (offset : Nat) :
    ∃ f, finding? offset w ws = some f := by
  have hgap := gap_of_ruling w ws
  have hblank := isSome_blankSpan? (offset + w.head.text.size) w.gap
  rw [finding?]
  cases hr : ruling w ws with
  | fine => exact absurd hr h
  | pad => exact ⟨_, rfl⟩
  | clear | decline =>
    rw [hr] at hgap
    rw [hgap.1, Option.isSome_iff_exists] at hblank
    obtain ⟨s, hs⟩ := hblank
    exact ⟨_, by rw [hs]; rfl⟩

theorem mem_editsFrom {offset : Nat} {ws : List Word} {e : Edit} (h : e ∈ editsFrom offset ws) :
    e.rule = id ∧ e.parts ≠ [] := by
  induction ws generalizing offset with
  | nil => simp [editsFrom] at h
  | cons w ws ih =>
    rw [editsFrom, List.mem_append] at h
    obtain h | h := h
    · split at h
      · simp at h
      · rename_i hdecline
        obtain ⟨f, hf, rfl⟩ := List.mem_map.mp h
        rw [Option.mem_toList] at hf
        refine ⟨rule_of_finding? hf, ?_⟩
        have hgap := gap_of_ruling w ws
        have hblank := isSome_blankSpan? (offset + w.head.text.size) w.gap
        rw [finding?] at hf
        cases hr : ruling w ws with
        | fine => simp [hr] at hf
        | decline => exact absurd hr hdecline
        | pad => simp [partsAt, hr]
        | clear =>
          rw [hr] at hgap
          rw [hgap.1] at hblank
          simp only [partsAt, hr, clearing_eq, ne_eq, List.map_eq_nil_iff]
          intro hnil
          simp [blankSpan?, hnil, Span.hull?] at hblank
    · exact ih h

theorem flatMap_parts_editsFrom (offset : Nat) (ws : List Word) :
    (editsFrom offset ws).flatMap (·.parts) = partsFrom offset ws := by
  induction ws generalizing offset with
  | nil => rfl
  | cons w ws ih =>
    rw [editsFrom, List.flatMap_append, ih, partsFrom]
    congr 1
    by_cases hfine : ruling w ws = .fine
    · simp [partsAt, hfine, finding?]
    · obtain ⟨f, hf⟩ := exists_finding hfine offset
      rw [hf]
      by_cases hdecline : ruling w ws = .decline
      · simp [partsAt, hdecline]
      · simp [hdecline]

theorem tagged_editsFrom (offset : Nat) (ws : List Word) :
    Batch.tagged (editsFrom offset ws) = (partsFrom offset ws).map (Prod.mk id) := by
  rw [← flatMap_parts_editsFrom, List.map_flatMap, Batch.tagged]
  refine List.flatMap_congr fun e he => ?_
  rw [(mem_editsFrom he).1]

section Apply

variable {k : Kind} {bs : List Tree} {t : Tree} {pre suf gap : List Cell} {ws : List Word}

theorem resolve_clearing (h : Layout k bs t (pre ++ (gap ++ suf))) :
    ∀ p ∈ clearing (Cell.extent pre) gap, (p.resolve t 0).toOption.isSome = true := by
  induction gap generalizing pre with
  | nil => simp [clearing]
  | cons c gap ih =>
    have hsplit : Layout k bs t ((pre ++ [c]) ++ (gap ++ suf)) := by simpa using h
    have htail := ih hsplit
    rw [Cell.extent_append, Cell.extent_cons, Cell.extent_nil, Nat.add_zero] at htail
    intro p hp
    rw [clearing] at hp
    split at hp
    · obtain rfl | hp := List.mem_cons.mp hp
      · obtain ⟨z, hz⟩ := Layout.exists_removal (show Layout k bs t (pre ++ c :: (gap ++ suf)) from h)
        rw [hz]
        rfl
      · exact htail p hp
    · exact htail p hp

theorem resolve_partsFrom (h : Layout k bs t (pre ++ flatten ws)) :
    ∀ p ∈ partsFrom (Cell.extent pre) ws, (p.resolve t 0).toOption.isSome = true := by
  induction ws generalizing pre with
  | nil => simp [partsFrom]
  | cons w ws ih =>
    have hsplit : Layout k bs t ((pre ++ w.cells) ++ flatten ws) := by simpa [cells] using h
    intro p hp
    rw [partsFrom, List.mem_append] at hp
    obtain hp | hp := hp
    · rw [partsAt] at hp
      split at hp
      · obtain rfl := List.mem_singleton.mp hp
        obtain ⟨z, hz⟩ := Layout.exists_padding (show Layout k bs t (pre ++ w.head :: (w.gap ++ flatten ws)) from h)
        rw [hz]
        rfl
      · have hgap : Layout k bs t ((pre ++ [w.head]) ++ (w.gap ++ flatten ws)) := by simpa using h
        apply resolve_clearing hgap
        rwa [Cell.extent_append, Cell.extent_cons, Cell.extent_nil, Nat.add_zero]
      · simp at hp
    · apply ih hsplit
      rwa [Cell.extent_append]

theorem apply_editsFrom {source : Source} (h : Layout k bs source.tree (pre ++ flatten ws)) (hclear : Clearable ws)
    (hedits : editsFrom (Cell.extent pre) ws ≠ []) :
    ∃ tree, Layout k bs tree (pre ++ flatten (respaceAll ws)) ∧
      Batch.apply source (editsFrom (Cell.extent pre) ws) false = .ok
        { source := { source with tree }, applied := (editsFrom (Cell.extent pre) ws).map (·.finding)
          edits := (partsFrom (Cell.extent pre) ws).map madeOf
          offsets := Batch.deltas ((partsFrom (Cell.extent pre) ws).map madeOf) } := by
  obtain ⟨g, hfold, hlayout, hmade, -⟩ := fold_partsFrom h hclear
  have hfull : ∀ c ∈ flatten ws, 0 < c.text.size := fun c hc => h.full c (by simp [hc])
  have horder : ((editsFrom (Cell.extent pre) ws).flatMap (·.parts)).Pairwise Part.Leads := by
    rw [flatMap_parts_editsFrom]
    exact pairwise_partsFrom hfull _
  have hresolve : ∀ e ∈ editsFrom (Cell.extent pre) ws, ∀ p ∈ e.parts,
      (p.resolve source.tree 0).toOption.isSome = true := by
    intro e he p hp
    apply resolve_partsFrom h
    rw [← flatMap_parts_editsFrom]
    exact List.mem_flatMap.mpr ⟨e, he, hp⟩
  rw [← tagged_editsFrom] at hfold
  refine ⟨g.tree, hlayout, ?_⟩
  rw [Batch.apply_ordered (.refl _) (Batch.pairwise_tagged horder) hedits (fun e he => (mem_editsFrom he).2) hresolve
    hfold, hmade]

end Apply

end Lintel.KeywordSpacing
