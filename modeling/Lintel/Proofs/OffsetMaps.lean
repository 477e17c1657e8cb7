import Mathlib.Logic.Basic
import Lintel.Edit.OffsetMap
import Lintel.Proofs.Splicing

namespace Lintel

theorem Delta.isPassed_iff (d : Delta) (x : Nat) :
    d.isPassed x = true ↔ d.span.stop ≤ x ∧ (d.span.length = 0 → d.span.start ≠ x) := by
  simp only [isPassed, Span.isEmpty, Bool.and_eq_true, decide_eq_true_eq, Bool.not_eq_true', Bool.and_eq_false_iff,
    beq_eq_false_iff_ne, ne_eq]
  rw [imp_iff_not_or]

theorem Delta.before_iff (a b : Delta) : a.before b = true ↔
    a.span.start < b.span.start ∨ (a.span.start = b.span.start ∧ a.span.length ≤ b.span.length) := by
  simp only [before, Bool.or_eq_true, Bool.and_eq_true, beq_iff_eq, decide_eq_true_eq]
  simp only [Span.stop]
  omega

namespace OffsetMap

theorem clamp_of_le {x : Int} {n : Nat} (h : x = n) (hn : n ≤ 0xFFFFFFFF) : clamp x = n := by
  rw [clamp, h, Int.toNat_natCast]
  exact Nat.min_eq_left hn

def growth (ds : List Delta) : Int :=
  ds.foldr (fun d n => d.growth + n) 0

@[simp] theorem growth_nil : growth [] = 0 := rfl

@[simp] theorem growth_cons (d : Delta) (ds : List Delta) : growth (d :: ds) = d.growth + growth ds := rfl

@[simp] theorem growth_append (ds es : List Delta) : growth (ds ++ es) = growth ds + growth es := by
  induction ds with
  | nil => simp
  | cons d ds ih => simp [ih, Int.add_assoc]

def targetFrom (offset : Nat) (shift : Int) : List Delta → Int
  | [] => offset + shift
  | d :: ds =>
    if d.isPassed offset then targetFrom offset (shift + d.growth) ds
    else if d.span.start < offset then d.span.start + shift + min (offset - d.span.start) d.newLength
    else offset + shift

def target (m : OffsetMap) (offset : Nat) : Int :=
  targetFrom offset 0 m.deltas

theorem mapFrom_eq (x : Nat) (shift : Int) (ds : List Delta) : mapFrom x shift ds = clamp (targetFrom x shift ds) := by
  fun_induction targetFrom x shift ds with
  | case1 shift => rfl
  | case2 shift d ds hpassed ih => rw [mapFrom, if_pos hpassed, ih]
  | case3 shift d ds hpassed hlt => rw [mapFrom, if_neg hpassed, if_pos hlt]
  | case4 shift d ds hpassed hle => rw [mapFrom, if_neg hpassed, if_neg hle]

theorem targetFrom_passed {x : Nat} {shift : Int} {ds : List Delta} (h : ∀ d ∈ ds, d.isPassed x = true)
    (es : List Delta) : targetFrom x shift (ds ++ es) = targetFrom x (shift + growth ds) es := by
  induction ds generalizing shift with
  | nil => simp
  | cons d ds ih =>
    rw [List.cons_append, targetFrom, if_pos (h d (by simp)), ih (fun e he => h e (by simp [he])), growth_cons,
      Int.add_assoc]

theorem targetFrom_ahead {x : Nat} {shift : Int} {ds : List Delta}
    (h : ∀ d ∈ ds.head?, ¬ d.isPassed x = true ∧ x ≤ d.span.start) : targetFrom x shift ds = x + shift := by
  cases ds with
  | nil => rfl
  | cons d ds =>
    obtain ⟨hpassed, hstart⟩ := h d rfl
    rw [targetFrom, if_neg hpassed, if_neg (by omega)]

theorem mapFrom_passed {x : Nat} {shift : Int} {ds : List Delta} (h : ∀ d ∈ ds, d.isPassed x = true) (es : List Delta) :
    mapFrom x shift (ds ++ es) = mapFrom x (shift + growth ds) es := by
  rw [mapFrom_eq, targetFrom_passed h, mapFrom_eq]

theorem mapFrom_ahead {x : Nat} {shift : Int} {ds : List Delta}
    (h : ∀ d ∈ ds.head?, ¬ d.isPassed x = true ∧ x ≤ d.span.start) : mapFrom x shift ds = clamp (x + shift) := by
  rw [mapFrom_eq, targetFrom_ahead h]

theorem mapFrom_of_lt {x : Nat} {shift : Int} {ds : List Delta} (h : ∀ d ∈ ds, x < d.span.start) :
    mapFrom x shift ds = clamp (x + shift) := by
  apply mapFrom_ahead
  intro d hd
  have hlt := h d (List.mem_of_mem_head? hd)
  have hle := d.span.start_le_stop
  exact ⟨by rw [Delta.isPassed_iff]; omega, by omega⟩

theorem mapSpan_nil {s : Span} (h : s.stop ≤ 0xFFFFFFFF) : mapSpan {} s = s := by
  have hle := s.start_le_stop
  have hmap : ∀ n, n ≤ 0xFFFFFFFF → map {} n = n := by
    intro n hn
    exact clamp_of_le (by simp) hn
  rw [mapSpan, hmap _ h, hmap _ (Nat.le_trans hle h), Nat.max_eq_left hle, Span.between, Span.stop]
  simp

theorem clamp_mono {x y : Int} (h : x ≤ y) : clamp x ≤ clamp y := by
  simp only [clamp]
  omega

theorem le_targetFrom {z y : Nat} (hzy : z ≤ y) {ds : List Delta} (h : ∀ d ∈ ds, z ≤ d.span.start)
    (hds : ds.Pairwise (fun d e => d.span.stop ≤ e.span.start)) (shift : Int) : z + shift ≤ targetFrom y shift ds := by
  induction ds generalizing z shift with
  | nil =>
    rw [targetFrom]
    omega
  | cons d ds ih =>
    have hstart := h d List.mem_cons_self
    rw [targetFrom]
    split
    · rename_i hpassed
      rw [Delta.isPassed_iff] at hpassed
      obtain ⟨hfirst, hrest⟩ := List.pairwise_cons.mp hds
      refine Int.le_trans ?_ (ih hpassed.1 hfirst hrest (shift + d.growth))
      simp only [Delta.growth, Span.stop]
      omega
    · split <;> omega

theorem targetFrom_mono {x y : Nat} (hxy : x ≤ y) {ds : List Delta}
    (hds : ds.Pairwise (fun d e => d.span.stop ≤ e.span.start)) (shift : Int) :
    targetFrom x shift ds ≤ targetFrom y shift ds := by
  induction ds generalizing shift with
  | nil =>
    rw [targetFrom, targetFrom]
    omega
  | cons d ds ih =>
    obtain ⟨hfirst, hrest⟩ := List.pairwise_cons.mp hds
    have hle := d.span.start_le_stop
    have hx := Delta.isPassed_iff d x
    have hy := Delta.isPassed_iff d y
    rw [targetFrom, targetFrom]
    by_cases hpassed : d.isPassed x = true
    · have hpassed' : d.isPassed y = true := by
        rw [hx] at hpassed
        rw [hy]
        refine ⟨Nat.le_trans hpassed.1 hxy, fun hempty heq => ?_⟩
        have hne := hpassed.2 hempty
        omega
      rw [if_pos hpassed, if_pos hpassed']
      exact ih hrest _
    · rw [if_neg hpassed]
      by_cases hpassed' : d.isPassed y = true
      · -- All that replaced the change lies before what the later offset goes to.
        rw [if_pos hpassed']
        rw [hy] at hpassed'
        refine Int.le_trans ?_ (le_targetFrom hpassed'.1 hfirst hrest (shift + d.growth))
        simp only [Delta.growth, Span.stop]
        split <;> omega
      · rw [if_neg hpassed']
        split
        · rw [if_pos (by omega)]
          omega
        · split <;> omega

theorem mapFrom_mono {x y : Nat} (hxy : x ≤ y) {ds : List Delta}
    (hds : ds.Pairwise (fun d e => d.span.stop ≤ e.span.start)) (shift : Int) :
    mapFrom x shift ds ≤ mapFrom y shift ds := by
  rw [mapFrom_eq, mapFrom_eq]
  exact clamp_mono (targetFrom_mono hxy hds shift)

section Span

variable {m : OffsetMap} (hm : m.deltas.Pairwise (fun d e => d.span.stop ≤ e.span.start)) {s : Span} {x : Nat}

include hm

theorem start_mapSpan_le (h : s.start ≤ x) : (m.mapSpan s).start ≤ m.map x := by
  rw [mapSpan, Span.start_between]
  exact mapFrom_mono h hm 0

theorem le_start_mapSpan (h : x ≤ s.start) : m.map x ≤ (m.mapSpan s).start := by
  rw [mapSpan, Span.start_between]
  exact mapFrom_mono h hm 0

theorem stop_mapSpan_le (h : s.stop ≤ x) : (m.mapSpan s).stop ≤ m.map x := by
  rw [mapSpan, Span.stop_between (Nat.le_max_right _ _)]
  exact Nat.max_le.mpr ⟨mapFrom_mono h hm 0, mapFrom_mono (Nat.le_trans s.start_le_stop h) hm 0⟩

theorem le_stop_mapSpan (h : x ≤ s.stop) : m.map x ≤ (m.mapSpan s).stop := by
  rw [mapSpan, Span.stop_between (Nat.le_max_right _ _)]
  exact Nat.le_trans (mapFrom_mono h hm 0) (Nat.le_max_left _ _)

end Span

theorem mapFrom_le (x : Nat) (shift : Int) (ds : List Delta) : mapFrom x shift ds ≤ 0xFFFFFFFF := by
  rw [mapFrom_eq]
  exact Nat.min_le_right _ _

theorem mapSpan_mapSpan (m : OffsetMap) (s : Span) : ({} : OffsetMap).mapSpan (m.mapSpan s) = m.mapSpan s := by
  apply mapSpan_nil
  rw [mapSpan, Span.stop_between (Nat.le_max_right _ _)]
  exact Nat.max_le.mpr ⟨mapFrom_le _ _ _, mapFrom_le _ _ _⟩

end OffsetMap

end Lintel
