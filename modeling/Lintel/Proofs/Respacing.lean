import Lintel.Proofs.CellEdits
import Lintel.Proofs.KeywordGaps

namespace Lintel.KeywordSpacing

open Word

def respacedGap (w : Word) (rest : List Word) : List Cell :=
  match ruling w rest with
  | .pad => Cell.space w.head.owner :: w.gap
  | .clear => w.gap.filter (!·.isBlank)
  | _ => w.gap

theorem isTrivia_respacedGap (w : Word) (rest : List Word) : ∀ c ∈ respacedGap w rest, c.isTrivia = true := by
  intro c hc
  rw [respacedGap] at hc
  split at hc
  · obtain rfl | hc := List.mem_cons.mp hc
    · rfl
    · exact w.gap_trivia c hc
  · exact w.gap_trivia c (List.mem_filter.mp hc).1
  · exact w.gap_trivia c hc

def respace (w : Word) (rest : List Word) : Word :=
  ⟨w.head, respacedGap w rest, w.head_significant, isTrivia_respacedGap w rest⟩

def respaceAll : List Word → List Word
  | [] => []
  | w :: ws => respace w ws :: respaceAll ws

def clearing (offset : Nat) : List Cell → List Part
  | [] => []
  | c :: cs =>
    if c.isBlank then .removal offset c :: clearing (offset + c.text.size) cs
    else clearing (offset + c.text.size) cs

def partsAt (offset : Nat) (w : Word) (rest : List Word) : List Part :=
  match ruling w rest with
  | .pad => [.padding offset w.head]
  | .clear => clearing (offset + w.head.text.size) w.gap
  | _ => []

def partsFrom (offset : Nat) : List Word → List Part
  | [] => []
  | w :: ws => partsAt offset w ws ++ partsFrom (offset + Cell.extent w.cells) ws

def madeOf (p : Part) : Applied :=
  ⟨id, p.span, match p.change with | .insertAfter _ ts => Tree.textAll ts | _ => []⟩

def Clearable : List Word → Prop
  | [] => True
  | w :: ws =>
    (ruling w ws = .clear → ∀ n ∈ ws.head?, staysApart w.head.text n.head.text = true) ∧ Clearable ws

theorem fold_clearing {k : Kind} {bs : List Tree} {g : Batch.Progress} {pre gap suf : List Cell}
    (h : Layout k bs g.tree (pre ++ (gap ++ suf))) (hgap : ∀ c ∈ gap, c.isTrivia = true)
    (hshift : ∀ x ∈ g.inserted, Cell.extent (pre ++ gap) ≤ x.1)
    (hapart : ∀ p ∈ pre.getLast?, ∀ s ∈ suf.head?,
      p.isTrivia = true ∨ s.isTrivia = true ∨ staysApart p.text s.text = true) :
    ∃ tree, Layout k bs tree (pre ++ (gap.filter (!·.isBlank) ++ suf)) ∧
      ((clearing (Cell.extent pre) gap).map (Prod.mk id)).reverse.foldlM Batch.step g =
        .ok { tree, made := (clearing (Cell.extent pre) gap).map madeOf ++ g.made, inserted := g.inserted } := by
  induction gap generalizing pre with
  | nil => exact ⟨g.tree, h, rfl⟩
  | cons c gap ih =>
    have hc : c.isTrivia = true := hgap c (by simp)
    have hpos : 0 < c.text.size := h.full c (by simp)
    have hsplit : Layout k bs g.tree ((pre ++ [c]) ++ (gap ++ suf)) := by simpa using h
    have hshift' : ∀ x ∈ g.inserted, Cell.extent ((pre ++ [c]) ++ gap) ≤ x.1 := by simpa using hshift
    obtain ⟨tree, hlayout, hfold⟩ := ih hsplit (fun d hd => hgap d (by simp [hd])) hshift' (by simp [hc])
    rw [Cell.extent_append, Cell.extent_cons, Cell.extent_nil, Nat.add_zero] at hfold
    rw [List.append_assoc, List.singleton_append] at hlayout
    rw [clearing, List.filter_cons]
    cases hb : c.isBlank with
    | false => exact ⟨tree, hlayout, hfold⟩
    | true =>
      -- What follows the blank is trivia that stays, or else what follows the gap.
      have hapart' : ∀ p ∈ pre.getLast?, ∀ s ∈ (gap.filter (!·.isBlank) ++ suf).head?,
          p.isTrivia = true ∨ s.isTrivia = true ∨ staysApart p.text s.text = true := by
        intro p hp s hs
        cases hf : gap.filter (!·.isBlank) with
        | nil => exact hapart p hp s (by simpa [hf] using hs)
        | cons d ds =>
          have hd : d ∈ gap := (List.mem_filter.mp (by rw [hf]; simp : d ∈ gap.filter (!·.isBlank))).1
          obtain rfl : d = s := by simpa [hf] using hs
          exact .inr (.inl (hgap d (by simp [hd])))
      have hfree : ∀ x ∈ g.inserted, x.1 ≠ Cell.extent pre := by
        intro x hx
        have hle := hshift x hx
        rw [Cell.extent_append, Cell.extent_cons] at hle
        omega
      obtain ⟨tree', hlayout', hstep⟩ := Batch.step_removal (g := ⟨tree, _, g.inserted⟩) hlayout hc hfree hapart' id
      refine ⟨tree', hlayout', ?_⟩
      rw [if_pos rfl, List.map_cons, List.reverse_cons, List.foldlM_append, hfold]
      exact (bind_pure _).trans hstep

theorem fold_partsAt {k : Kind} {bs : List Tree} {g : Batch.Progress} {pre suf : List Cell} {w : Word}
    {rest : List Word} (h : Layout k bs g.tree (pre ++ w.head :: (w.gap ++ suf)))
    (hshift : ∀ x ∈ g.inserted, Cell.extent (pre ++ w.cells) < x.1)
    (hapart : ruling w rest = .clear → ∀ s ∈ suf.head?, staysApart w.head.text s.text = true) :
    ∃ g', ((partsAt (Cell.extent pre) w rest).map (Prod.mk id)).reverse.foldlM Batch.step g = .ok g' ∧
      Layout k bs g'.tree (pre ++ w.head :: (respacedGap w rest ++ suf)) ∧
      g'.made = (partsAt (Cell.extent pre) w rest).map madeOf ++ g.made ∧
      ∀ x ∈ g'.inserted, Cell.extent pre < x.1 := by
  have hpos : 0 < w.head.text.size := h.full _ (by simp)
  rw [cells, Cell.extent_append, Cell.extent_cons] at hshift
  have hstay : ∀ x ∈ g.inserted, Cell.extent pre < x.1 := by
    intro x hx
    have := hshift x hx
    omega
  rw [partsAt, respacedGap]
  cases hr : ruling w rest with
  | fine => exact ⟨g, rfl, h, rfl, hstay⟩
  | decline => exact ⟨g, rfl, h, rfl, hstay⟩
  | pad =>
    have hfree : ∀ x ∈ g.inserted, x.1 ≠ Cell.extent pre + w.head.text.size := by
      intro x hx
      have := hshift x hx
      omega
    obtain ⟨tree, hlayout, hstep⟩ := Batch.step_padding h hfree id
    refine ⟨_, (bind_pure _).trans hstep, hlayout, rfl, ?_⟩
    intro x hx
    obtain rfl := Option.mem_some.mp hx
    show Cell.extent pre < Cell.extent pre + w.head.text.size
    omega
  | clear =>
    have hsplit : Layout k bs g.tree ((pre ++ [w.head]) ++ (w.gap ++ suf)) := by simpa using h
    have hshift' : ∀ x ∈ g.inserted, Cell.extent ((pre ++ [w.head]) ++ w.gap) ≤ x.1 := by
      intro x hx
      have := hshift x hx
      simp only [Cell.extent_append, Cell.extent_cons, Cell.extent_nil]
      omega
    have hapart' : ∀ p ∈ (pre ++ [w.head]).getLast?, ∀ s ∈ suf.head?,
        p.isTrivia = true ∨ s.isTrivia = true ∨ staysApart p.text s.text = true := by
      intro p hp s hs
      obtain rfl : w.head = p := by simpa using hp
      exact .inr (.inr (hapart hr s hs))
    obtain ⟨tree, hlayout, hfold⟩ := fold_clearing hsplit w.gap_trivia hshift' hapart'
    rw [Cell.extent_append, Cell.extent_cons, Cell.extent_nil, Nat.add_zero] at hfold
    exact ⟨_, hfold, by simpa using hlayout, rfl, hstay⟩

theorem head?_respaceAll (ws : List Word) : (respaceAll ws).head?.map (·.head) = ws.head?.map (·.head) := by
  cases ws <;> rfl

theorem head?_flatten (ws : List Word) : (flatten ws).head? = ws.head?.map (·.head) := by
  cases ws <;> rfl

theorem fold_partsFrom {k : Kind} {bs : List Tree} {t : Tree} {pre : List Cell} {ws : List Word}
    (h : Layout k bs t (pre ++ flatten ws)) (hclear : Clearable ws) :
    ∃ g, ((partsFrom (Cell.extent pre) ws).map (Prod.mk id)).reverse.foldlM Batch.step { tree := t } = .ok g ∧
      Layout k bs g.tree (pre ++ flatten (respaceAll ws)) ∧
      g.made = (partsFrom (Cell.extent pre) ws).map madeOf ∧ ∀ x ∈ g.inserted, Cell.extent pre < x.1 := by
  induction ws generalizing pre with
  | nil => exact ⟨_, rfl, h, rfl, by simp⟩
  | cons w ws ih =>
    have hsplit : Layout k bs t ((pre ++ w.cells) ++ flatten ws) := by simpa [cells] using h
    obtain ⟨g, hfold, hlayout, hmade, hshift⟩ := ih hsplit hclear.2
    have hapart : ruling w ws = .clear → ∀ s ∈ (flatten (respaceAll ws)).head?,
        staysApart w.head.text s.text = true := by
      intro hr s hs
      rw [head?_flatten, head?_respaceAll] at hs
      obtain ⟨n, hn, rfl⟩ := Option.map_eq_some_iff.mp hs
      exact hclear.1 hr n hn
    obtain ⟨g', hfold', hlayout', hmade', hshift'⟩ :=
      fold_partsAt (by simpa [cells] using hlayout) hshift hapart
    refine ⟨g', ?_, hlayout', ?_, hshift'⟩
    · rw [Cell.extent_append] at hfold
      rw [partsFrom, List.map_append, List.reverse_append, List.foldlM_append, hfold]
      exact hfold'
    · rw [Cell.extent_append] at hmade
      rw [hmade', hmade, partsFrom, List.map_append]

end Lintel.KeywordSpacing
