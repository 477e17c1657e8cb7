import Lintel.Proofs.OffsetMaps
import Lintel.Proofs.SpacingBatch

namespace Lintel

theorem Span.not_meets_of_lt {a b : Span} (h : a.stop < b.start) : a.meets b = false ∧ b.meets a = false := by
  have ha := a.start_le_stop
  have hb := b.start_le_stop
  simp only [meets, contains, Bool.or_eq_true]
  constructor <;> split <;> simp <;> omega

namespace KeywordSpacing

open Word OffsetMap

theorem spacingOf?_respace (w : Word) (ws : List Word) :
    spacingOf? (respace w ws) (respaceAll ws) = spacingOf? w ws := by
  have hnext : (respaceAll ws).head?.map (·.head.kind) = ws.head?.map (·.head.kind) := by
    cases ws <;> rfl
  rw [spacingOf?, spacingOf?, hnext]
  rfl

theorem ruling_respace (w : Word) (ws : List Word) :
    ruling (respace w ws) (respaceAll ws) = if ruling w ws = .decline then .decline else .fine := by
  have hends : (respaceAll ws).isEmpty = ws.isEmpty := by
    cases ws <;> rfl
  have hsame : respacedGap w ws = w.gap → ruling (respace w ws) (respaceAll ws) = ruling w ws := by
    intro hgap
    rw [ruling, ruling, spacingOf?_respace, hends, show (respace w ws).gap = w.gap from hgap]
  have hspacing := spacingOf?_respace w ws
  cases hr : ruling w ws with
  | fine | decline => simp [hsame (by simp [respacedGap, hr]), hr]
  | pad =>
    have hblank : (respace w ws).gap.any (·.isBlank) = true := by
      simp [respace, respacedGap, hr, Cell.space, Cell.isBlank]
    rw [ruling] at hr
    rw [ruling, hspacing, hblank]
    split at hr
    · cases hr
    · simp
    · split at hr
      · cases hr
      · split at hr <;> cases hr
  | clear =>
    have hblank : (respace w ws).gap.any (·.isBlank) = false := by
      simp [respace, respacedGap, hr]
    rw [ruling] at hr
    rw [ruling, hspacing, hblank]
    split at hr
    · cases hr
    · split at hr <;> cases hr
    · simp

theorem finding?_respace (offset : Nat) (w : Word) (ws : List Word) :
    finding? offset (respace w ws) (respaceAll ws) = if ruling w ws = .decline then finding? offset w ws else none := by
  rw [finding?, ruling_respace]
  by_cases hr : ruling w ws = .decline
  · simp only [hr, if_true, finding?, show (respace w ws).gap = w.gap by simp [respace, respacedGap, hr]]
    rfl
  · simp only [hr, if_false]

theorem editsFrom_respaceAll (offset : Nat) (ws : List Word) : editsFrom offset (respaceAll ws) = [] := by
  induction ws generalizing offset with
  | nil => rfl
  | cons w ws ih =>
    rw [respaceAll, editsFrom, ih, ruling_respace, finding?_respace]
    by_cases hr : ruling w ws = .decline
    · simp [hr]
    · simp [hr]

def deltaOf (p : Part) : Delta :=
  ⟨p.span, (madeOf p).replacement.size⟩

def deltasAt (offset : Nat) (w : Word) (ws : List Word) : List Delta :=
  (partsAt offset w ws).map deltaOf

def deltasFrom (offset : Nat) (ws : List Word) : List Delta :=
  (partsFrom offset ws).map deltaOf

theorem deltasFrom_cons (offset : Nat) (w : Word) (ws : List Word) :
    deltasFrom offset (w :: ws) = deltasAt offset w ws ++ deltasFrom (offset + Cell.extent w.cells) ws :=
  List.map_append

theorem growth_clearing (offset : Nat) (gap : List Cell) :
    growth ((clearing offset gap).map deltaOf) =
      (Cell.extent (gap.filter (!·.isBlank)) : Int) - Cell.extent gap := by
  induction gap generalizing offset with
  | nil => rfl
  | cons c gap ih =>
    rw [clearing]
    cases hb : c.isBlank with
    | false =>
      rw [if_neg (by simp), ih, List.filter_cons_of_pos (by simp [hb]), Cell.extent_cons, Cell.extent_cons]
      omega
    | true =>
      have hgrowth : (deltaOf (.removal offset c)).growth = -(c.text.size : Int) := by
        simp [Delta.growth, deltaOf, madeOf, Part.removal, Part.removing]
      rw [if_pos rfl, List.map_cons, growth_cons, ih, hgrowth, List.filter_cons_of_neg (by simp [hb]),
        Cell.extent_cons]
      omega

theorem growth_deltasAt (offset : Nat) (w : Word) (ws : List Word) :
    growth (deltasAt offset w ws) = Cell.extent (respace w ws).cells - Cell.extent w.cells := by
  rw [deltasAt, partsAt, Word.cells, Word.cells, Cell.extent_cons, Cell.extent_cons]
  cases hr : ruling w ws with
  | fine | decline => simp [respace, respacedGap, hr]
  | pad =>
    have hgap : (respace w ws).gap = Cell.space w.head.owner :: w.gap := by simp [respace, respacedGap, hr]
    have hgrowth : (deltaOf (.padding offset w.head)).growth = 1 := by
      simp [Delta.growth, deltaOf, madeOf, Part.padding, Tree.textAll, Tree.text]
      decide
    have hspace : (Cell.space w.head.owner).text.size = 1 := rfl
    rw [hgap, Cell.extent_cons, hspace, show (respace w ws).head = w.head from rfl]
    simp only [List.map_cons, List.map_nil, growth_cons, growth_nil, hgrowth]
    omega
  | clear =>
    have hgap : (respace w ws).gap = w.gap.filter (!·.isBlank) := by simp [respace, respacedGap, hr]
    rw [growth_clearing, hgap, show (respace w ws).head = w.head from rfl]
    omega

theorem mem_deltas {ps : List Part} {d : Delta} (h : d ∈ ps.map deltaOf) : ∃ p ∈ ps, p.span = d.span := by
  obtain ⟨p, hp, rfl⟩ := List.mem_map.mp h
  exact ⟨p, hp, rfl⟩

theorem mapFrom_clearing {gap : List Cell} (hfull : ∀ c ∈ gap, 0 < c.text.size) {start x n : Nat} {shift : Int}
    (hshift : start + shift = n) (hstart : start ≤ x) (hstop : x ≤ start + Cell.extent gap) {ds : List Delta}
    (hds : ∀ d ∈ ds, x < d.span.start) (hfit : n + Cell.extent (gap.filter (!·.isBlank)) ≤ 0xFFFFFFFF) :
    n ≤ mapFrom x shift ((clearing start gap).map deltaOf ++ ds) ∧
      mapFrom x shift ((clearing start gap).map deltaOf ++ ds) ≤ n + Cell.extent (gap.filter (!·.isBlank)) := by
  induction gap generalizing start n shift with
  | nil =>
    have hx : x = start := by simpa using Nat.le_antisymm hstop hstart
    rw [clearing, List.map_nil, List.nil_append, mapFrom_of_lt hds, clamp_of_le (n := n) (by omega) (by omega)]
    omega
  | cons c gap ih =>
    have hc := hfull c (by simp)
    have hfull' : ∀ d ∈ gap, 0 < d.text.size := fun d hd => hfull d (by simp [hd])
    rw [Cell.extent_cons] at hstop
    rw [clearing]
    cases hb : c.isBlank with
    | false =>
      rw [List.filter_cons_of_pos (by simp [hb]), Cell.extent_cons] at hfit ⊢
      rw [if_neg (by simp)]
      by_cases hpast : start + c.text.size ≤ x
      · have hshift' : (start + c.text.size : Nat) + shift = (n + c.text.size : Nat) := by omega
        have hrest := ih hfull' hshift' hpast (by omega) (by omega)
        omega
      · have hahead : ∀ d ∈ (clearing (start + c.text.size) gap).map deltaOf ++ ds, x < d.span.start := by
          intro d hd
          obtain hd | hd := List.mem_append.mp hd
          · obtain ⟨p, hp, hspan⟩ := mem_deltas hd
            have := (mem_clearing hp).1
            rw [hspan] at this
            omega
          · exact hds d hd
        rw [mapFrom_of_lt hahead, clamp_of_le (n := n + (x - start)) (by omega) (by omega)]
        omega
    | true =>
      rw [List.filter_cons_of_neg (by simp [hb])] at hfit ⊢
      have hdelta : deltaOf (.removal start c) = ⟨⟨start, c.text.size⟩, 0⟩ := rfl
      have hpassed := Delta.isPassed_iff ⟨⟨start, c.text.size⟩, 0⟩ x
      simp only [Span.stop] at hpassed
      rw [if_pos rfl, List.map_cons, List.cons_append, hdelta, mapFrom]
      by_cases hpast : start + c.text.size ≤ x
      · rw [if_pos (hpassed.mpr (by omega))]
        refine ih hfull' ?_ hpast (by omega) hfit
        simp only [Delta.growth]
        omega
      · rw [if_neg (by rw [hpassed]; omega)]
        have hend : ∀ y : Int, y = n → n ≤ clamp y ∧ clamp y ≤ n + Cell.extent (gap.filter (!·.isBlank)) := by
          intro y hy
          rw [clamp_of_le hy (by omega)]
          omega
        by_cases hin : start < x
        · rw [if_pos hin]
          exact hend _ (by simp only [Nat.min_zero]; omega)
        · rw [if_neg hin]
          exact hend _ (by omega)

theorem span_of_finding? {offset : Nat} {w : Word} {ws : List Word} {f : Finding} (h : finding? offset w ws = some f) :
    offset + w.head.text.size ≤ f.span.start ∧ f.span.stop ≤ offset + Cell.extent w.cells ∧
      (ruling w ws = .pad → f.span = ⟨offset + w.head.text.size, 0⟩) := by
  rw [Word.cells, Cell.extent_cons]
  have hblanks : (blankSpan? (offset + w.head.text.size) w.gap).map (findingAt offset w · " not") = some f →
      offset + w.head.text.size ≤ f.span.start ∧ f.span.stop ≤ offset + (w.head.text.size + Cell.extent w.gap) := by
    intro hf
    obtain ⟨s, hs, rfl⟩ := Option.map_eq_some_iff.mp hf
    obtain ⟨before, c, after, -, -, hstart, -, hstop, -⟩ := blankSpan?_eq_some hs
    simp only [findingAt]
    omega
  rw [finding?] at h
  cases hr : ruling w ws with
  | fine => simp [hr] at h
  | pad =>
    simp only [hr, Option.some.injEq] at h
    subst h
    exact ⟨Nat.le_refl _, by simp only [findingAt, Span.stop]; omega, fun _ => rfl⟩
  | clear | decline =>
    rw [hr] at h
    exact ⟨(hblanks h).1, (hblanks h).2, by simp⟩

theorem mapFrom_word {w : Word} {ws : List Word} (hfull : ∀ c ∈ w.cells, 0 < c.text.size) {offset x n : Nat}
    {shift : Int} (hshift : offset + shift = n) (hstart : offset + w.head.text.size ≤ x)
    (hstop : x ≤ offset + Cell.extent w.cells) (hr : ruling w ws = .pad ∧ x = offset + w.head.text.size ∨
      ruling w ws = .clear)
    {ds : List Delta} (hds : ∀ d ∈ ds, x < d.span.start) (hfit : n + Cell.extent (respace w ws).cells ≤ 0xFFFFFFFF) :
    n + w.head.text.size ≤ mapFrom x shift (deltasAt offset w ws ++ ds) ∧
      mapFrom x shift (deltasAt offset w ws ++ ds) ≤ n + Cell.extent (respace w ws).cells := by
  rw [Word.cells, Cell.extent_cons, show (respace w ws).head = w.head from rfl] at hfit ⊢
  rw [deltasAt, partsAt]
  obtain ⟨hr, rfl⟩ | hr := hr
  · rw [hr]
    have hmap : mapFrom (offset + w.head.text.size) shift ([Part.padding offset w.head].map deltaOf ++ ds) =
        clamp ((offset + w.head.text.size : Nat) + shift) := by
      refine mapFrom_ahead fun d hd => ?_
      obtain rfl : deltaOf (.padding offset w.head) = d := Option.some.inj hd
      rw [Delta.isPassed_iff]
      simp [deltaOf, Part.padding]
    rw [hmap, clamp_of_le (n := n + w.head.text.size) (by omega) (by omega)]
    omega
  · rw [hr]
    have hgap : (respace w ws).gap = w.gap.filter (!·.isBlank) := by simp [respace, respacedGap, hr]
    rw [Word.cells, Cell.extent_cons] at hstop
    rw [hgap] at hfit ⊢
    have hgap' : ∀ c ∈ w.gap, 0 < c.text.size := fun c hc => hfull c (List.mem_cons_of_mem _ hc)
    have hshift' : (offset + w.head.text.size : Nat) + shift = (n + w.head.text.size : Nat) := by omega
    have hmap := mapFrom_clearing hgap' hshift' hstart (by omega) hds (by omega)
    exact ⟨hmap.1, hmap.2.trans (by omega)⟩

theorem mem_deltasFrom {offset : Nat} {ws : List Word} (hfull : ∀ c ∈ flatten ws, 0 < c.text.size) {d : Delta}
    (h : d ∈ deltasFrom offset ws) : offset < d.span.start := by
  obtain ⟨p, hp, hspan⟩ := mem_deltas h
  rw [← hspan]
  exact mem_partsFrom hfull hp

theorem start_of_findings {offset : Nat} {ws : List Word} (hfull : ∀ c ∈ flatten ws, 0 < c.text.size) {f : Finding}
    (h : f ∈ findings offset ws) : offset < f.span.start := by
  induction ws generalizing offset with
  | nil => simp [findings] at h
  | cons w ws ih =>
    have hw := hfull w.head (by simp)
    rw [findings, List.mem_append, Option.mem_toList] at h
    obtain h | h := h
    · have := (span_of_finding? h).1
      omega
    · have := ih (fun c hc => hfull c (by simp [hc])) h
      omega

theorem mem_editsFrom_cons {offset : Nat} {w : Word} {ws : List Word} {e : Edit} (h : e ∈ editsFrom offset (w :: ws)) :
    (ruling w ws = .pad ∨ ruling w ws = .clear) ∧ finding? offset w ws = some e.finding ∨
      e ∈ editsFrom (offset + Cell.extent w.cells) ws := by
  rw [editsFrom, List.mem_append] at h
  refine h.imp_left fun h => ?_
  split at h
  · simp at h
  · rename_i hdecline
    obtain ⟨f, hf, rfl⟩ := List.mem_map.mp h
    rw [Option.mem_toList] at hf
    refine ⟨?_, hf⟩
    cases hr : ruling w ws with
    | fine => simp [finding?, hr] at hf
    | pad => exact .inl rfl
    | clear => exact .inr rfl
    | decline => exact absurd hr hdecline

theorem not_meets_fixed {ws : List Word} (hfull : ∀ c ∈ flatten ws, 0 < c.text.size)
    (hfull' : ∀ c ∈ flatten (respaceAll ws), 0 < c.text.size) {ds : List Delta} {offset n : Nat}
    (hds : ∀ d ∈ ds, d.span.stop ≤ offset) (hn : offset + growth ds = n)
    (hfit : n + Cell.extent (flatten (respaceAll ws)) ≤ 0xFFFFFFFF) :
    ∀ e ∈ editsFrom offset ws, n < (mapSpan ⟨ds ++ deltasFrom offset ws⟩ e.finding.span).start ∧
      ∀ f ∈ findings n (respaceAll ws), f.span.meets (mapSpan ⟨ds ++ deltasFrom offset ws⟩ e.finding.span) = false := by
  induction ws generalizing ds offset n with
  | nil => simp [editsFrom]
  | cons w ws ih =>
    have htail : ∀ c ∈ flatten ws, 0 < c.text.size := fun c hc => hfull c (by simp [hc])
    have htail' : ∀ c ∈ flatten (respaceAll ws), 0 < c.text.size := fun c hc => hfull' c (by simp [respaceAll, hc])
    have hhead := hfull w.head (by simp)
    have hsplit : Cell.extent (flatten (respaceAll (w :: ws))) =
        Cell.extent (respace w ws).cells + Cell.extent (flatten (respaceAll ws)) := Cell.extent_append _ _
    rw [hsplit] at hfit
    intro e he
    rw [respaceAll, findings]
    obtain ⟨hr, hf⟩ | he := mem_editsFrom_cons he
    · obtain ⟨hstart, hstop, hpad⟩ := span_of_finding? hf
      have hle := e.finding.span.start_le_stop
      have hmap : ∀ x, x = e.finding.span.start ∨ x = e.finding.span.stop →
          n + w.head.text.size ≤ map ⟨ds ++ deltasFrom offset (w :: ws)⟩ x ∧
            map ⟨ds ++ deltasFrom offset (w :: ws)⟩ x ≤ n + Cell.extent (respace w ws).cells := by
        intro x hx
        have hpassed : ∀ d ∈ ds, d.isPassed x = true := by
          intro d hd
          have hd := hds d hd
          have := d.span.start_le_stop
          rw [Delta.isPassed_iff]
          omega
        have hahead : ∀ d ∈ deltasFrom (offset + Cell.extent w.cells) ws, x < d.span.start := by
          intro d hd
          have := mem_deltasFrom htail hd
          omega
        rw [map, mapFrom_passed hpassed, deltasFrom_cons]
        refine mapFrom_word (fun c hc => hfull c ?_) (by omega) (by omega) (by omega) ?_ hahead (by omega)
        · exact List.mem_append_left _ hc
        · refine hr.imp_left fun hr => ⟨hr, ?_⟩
          rw [hpad hr, Span.stop] at hx
          simpa using hx
      have hfirst := hmap _ (.inl rfl)
      have hlast := hmap _ (.inr rfl)
      have hspan : (mapSpan ⟨ds ++ deltasFrom offset (w :: ws)⟩ e.finding.span).stop ≤
          n + Cell.extent (respace w ws).cells := by
        rw [mapSpan, Span.stop_between (Nat.le_max_right _ _)]
        omega
      have hfine : finding? n (respace w ws) (respaceAll ws) = none := by
        rw [finding?_respace, if_neg]
        rintro hdecline
        simp [hdecline] at hr
      refine ⟨?_, fun f hf => ?_⟩
      · rw [mapSpan, Span.start_between]
        omega
      · rw [hfine, Option.toList_none, List.nil_append] at hf
        have := start_of_findings htail' hf
        exact (Span.not_meets_of_lt (by omega)).2
    · have hds' : ∀ d ∈ ds ++ deltasAt offset w ws, d.span.stop ≤ offset + Cell.extent w.cells := by
        intro d hd
        obtain hd | hd := List.mem_append.mp hd
        · have := hds d hd
          omega
        · obtain ⟨p, hp, hspan⟩ := mem_deltas hd
          rw [← hspan]
          exact (mem_partsAt hp).2
      have hn' : ((offset + Cell.extent w.cells : Nat) : Int) + growth (ds ++ deltasAt offset w ws) =
          (n + Cell.extent (respace w ws).cells : Nat) := by
        rw [growth_append, growth_deltasAt]
        omega
      obtain ⟨hstart, hrest⟩ := ih htail htail' hds' hn' (by omega) e he
      rw [List.append_assoc, ← deltasFrom_cons] at hstart hrest
      refine ⟨by omega, fun f hf => ?_⟩
      rw [List.mem_append, Option.mem_toList] at hf
      obtain hf | hf := hf
      · have hstop := (span_of_finding? hf).2.1
        exact (Span.not_meets_of_lt (by omega)).1
      · exact hrest f hf

end KeywordSpacing

end Lintel
