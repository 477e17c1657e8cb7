import Lintel.Proofs.Patches
import Lintel.Proofs.SpacingOffsets

namespace Lintel

namespace Patch

open OffsetMap

def ownDeltas (offset : Nat) (p : Patch) : List Delta :=
  p.spaced.toList.map (fun _ => ⟨⟨offset, 0⟩, 1⟩) ++
    p.gone.toList.map (fun _ => ⟨⟨offset, p.token.text.size⟩, Token.extent p.filler⟩)

def deltas (offset : Nat) : List Patch → List Delta
  | [] => []
  | p :: ps => p.ownDeltas offset ++ deltas (offset + p.token.text.size) ps

theorem mem_ownDeltas {offset : Nat} {p : Patch} {d : Delta} (h : d ∈ p.ownDeltas offset) :
    d.span.start = offset ∧ (d.span.length = 0 ∨ d.span.length = p.token.text.size) := by
  obtain h | h := List.mem_append.mp h
  · obtain ⟨_, -, rfl⟩ := List.mem_map.mp h
    exact ⟨rfl, .inl rfl⟩
  · obtain ⟨_, -, rfl⟩ := List.mem_map.mp h
    exact ⟨rfl, .inr rfl⟩

theorem deltas_append (offset : Nat) (ps qs : List Patch) :
    deltas offset (ps ++ qs) = deltas offset ps ++ deltas (offset + Token.extent (ps.map (·.token))) qs := by
  induction ps generalizing offset with
  | nil => rfl
  | cons p ps ih =>
    rw [List.cons_append, deltas, ih, deltas, List.append_assoc, List.map_cons, Token.extent_cons, Nat.add_assoc]

theorem le_start_deltas {offset : Nat} {ps : List Patch} : ∀ d ∈ deltas offset ps, offset ≤ d.span.start := by
  induction ps generalizing offset with
  | nil =>
    intro x hx
    cases hx
  | cons p ps ih =>
    intro d hd
    obtain hd | hd := List.mem_append.mp hd
    · exact (mem_ownDeltas hd).1.ge
    · exact (Nat.le_add_right _ _).trans (ih d hd)

section Full

variable {ps : List Patch} (hfull : ∀ p ∈ ps, 0 < p.token.text.size)

include hfull

theorem stop_deltas {offset : Nat} : ∀ d ∈ deltas offset ps, d.span.stop ≤ offset + Token.extent (ps.map (·.token)) ∧
    d.span.start < offset + Token.extent (ps.map (·.token)) := by
  induction ps generalizing offset with
  | nil =>
    intro x hx
    cases hx
  | cons p ps ih =>
    have hp := hfull p List.mem_cons_self
    intro d hd
    rw [List.map_cons, Token.extent_cons]
    obtain hd | hd := List.mem_append.mp hd
    · have hown := mem_ownDeltas hd
      rw [Span.stop]
      omega
    · have hrest := ih (fun q hq => hfull q (List.mem_cons_of_mem _ hq)) d hd
      omega

theorem pairwise_deltas {offset : Nat} : (deltas offset ps).Pairwise (fun d e => d.span.stop ≤ e.span.start) := by
  induction ps generalizing offset with
  | nil => exact .nil
  | cons p ps ih =>
    refine List.pairwise_append.mpr ⟨?_, ih (fun q hq => hfull q (List.mem_cons_of_mem _ hq)), fun d hd e he => ?_⟩
    · rw [ownDeltas]
      cases p.spaced <;> cases p.gone <;> simp [Span.stop]
    · have hown := mem_ownDeltas hd
      have hstart := le_start_deltas e he
      rw [Span.stop]
      omega

omit hfull in
theorem perm_deltas (offset : Nat) :
    ((made offset ps).map (fun a => (⟨a.span, a.replacement.size⟩ : Delta))).Perm (deltas offset ps) := by
  induction ps generalizing offset with
  | nil => exact .nil
  | cons p ps ih =>
    rw [made, List.map_append, own, List.map_append, List.map_map, List.map_map]
    exact .append List.perm_append_comm (ih _)

theorem eq_of_mem_deltas {offset : Nat} {d e : Delta} (hd : d ∈ deltas offset ps) (he : e ∈ deltas offset ps)
    (hspan : d.span = e.span) : d = e := by
  induction ps generalizing offset with
  | nil => cases hd
  | cons p ps ih =>
    have hp := hfull p List.mem_cons_self
    obtain hd | hd := List.mem_append.mp hd
    · have hstart := (mem_ownDeltas hd).1
      obtain he | he := List.mem_append.mp he
      · rw [ownDeltas] at hd he
        cases hs : p.spaced <;> cases hg : p.gone <;> simp [hs, hg] at hd he
        · rw [hd, he]
        · rw [hd, he]
        · obtain rfl | rfl := hd <;> obtain rfl | rfl := he
          · rfl
          · simp at hspan
            omega
          · simp at hspan
            omega
          · rfl
      · have hle := le_start_deltas e he
        rw [← hspan] at hle
        omega
    · obtain he | he := List.mem_append.mp he
      · have hstart := (mem_ownDeltas he).1
        have hle := le_start_deltas d hd
        rw [hspan] at hle
        omega
      · exact ih (fun q hq => hfull q (List.mem_cons_of_mem _ hq)) hd he

theorem deltas_made (offset : Nat) : Batch.deltas (made offset ps) = ⟨deltas offset ps⟩ := by
  have hperm : (((made offset ps).map (fun a => (⟨a.span, a.replacement.size⟩ : Delta))).mergeSort Delta.before).Perm
      (deltas offset ps) := (List.mergeSort_perm _ _).trans (perm_deltas offset)
  have hsorted : (((made offset ps).map (fun a => (⟨a.span, a.replacement.size⟩ : Delta))).mergeSort
    Delta.before).Pairwise
      (fun d e => d.before e = true) := by
    apply List.pairwise_mergeSort
    · intro a b c hab hbc
      rw [Delta.before_iff] at *
      omega
    · intro a b
      rw [Bool.or_eq_true, Delta.before_iff, Delta.before_iff]
      omega
  have hrow : (deltas offset ps).Pairwise (fun d e => d.before e = true) := by
    refine (pairwise_deltas hfull).imp fun {d e} hde => ?_
    rw [Delta.before_iff]
    rw [Span.stop] at hde
    omega
  refine congrArg OffsetMap.mk (List.Perm.eq_of_pairwise (fun d e hd he hde hed => ?_) hsorted hrow hperm)
  rw [Delta.before_iff] at hde hed
  have hspan : d.span = e.span := by
    obtain ⟨⟨start, length⟩, n⟩ := d
    obtain ⟨⟨start', length'⟩, n'⟩ := e
    simp only [Span.mk.injEq] at hde hed ⊢
    omega
  exact eq_of_mem_deltas hfull (hperm.mem_iff.mp hd) he hspan

theorem extent_image_le {last : Option Token} (h : Filling last ps) :
    Token.extent (ps.flatMap image) ≤ Token.extent (ps.map (·.token)) + ps.length := by
  induction ps generalizing last with
  | nil => exact Nat.le_refl 0
  | cons p ps ih =>
    have hrest := ih (fun q hq => hfull q (List.mem_cons_of_mem _ hq)) h.2
    have hpos := hfull p List.mem_cons_self
    have hspace : Token.space.text.size = 1 := by decide
    have hlead : Token.extent p.lead ≤ 1 := by
      rw [lead]
      split <;> simp [hspace]
    have hbody : Token.extent (if p.gone.isSome then p.filler else [p.token]) ≤ p.token.text.size := by
      split
      · rename_i hgone
        obtain hnil | ⟨hfill, -⟩ := h.1 hgone
        · simp [hnil]
        · rw [hfill, Token.extent_cons, Token.extent_nil, hspace]
          exact hpos
      · simp
    rw [List.flatMap_cons, List.map_cons, Token.extent_append, Token.extent_cons, image, Token.extent_append,
      List.length_cons]
    omega

omit hfull in
theorem growth_deltas (offset : Nat) :
    growth (deltas offset ps) = (Token.extent (ps.flatMap image) : Int) - Token.extent (ps.map (·.token)) := by
  induction ps generalizing offset with
  | nil => rfl
  | cons p ps ih =>
    have hown : growth (p.ownDeltas offset) = (Token.extent p.image : Int) - p.token.text.size := by
      have hspace : Token.space.text.size = 1 := by decide
      rw [ownDeltas, image, lead, Token.extent_append, growth_append]
      have hfirst : growth (p.spaced.toList.map (fun _ => (⟨⟨offset, 0⟩, 1⟩ : Delta))) =
          Token.extent (if p.spaced.isSome then [.space] else []) := by
        cases p.spaced <;> simp [Delta.growth, hspace]
      have hsecond : growth
        (p.gone.toList.map (fun _ => (⟨⟨offset, p.token.text.size⟩, Token.extent p.filler⟩ : Delta))) =
          (Token.extent (if p.gone.isSome then p.filler else [p.token]) : Int) - p.token.text.size := by
        cases p.gone <;> simp [Delta.growth]
      rw [hfirst, hsecond]
      omega
    rw [deltas, growth_append, hown, ih, List.flatMap_cons, List.map_cons, Token.extent_append, Token.extent_cons]
    omega

end Full

theorem map_boundary {ps pre post : List Patch} (hsplit : ps = pre ++ post) (hfull : ∀ p ∈ ps, 0 < p.token.text.size)
    (hfit : Token.extent (ps.flatMap image) ≤ 0xFFFFFFFF) :
    (Batch.deltas (made 0 ps)).map (Token.extent (pre.map (·.token))) = Token.extent (pre.flatMap image) := by
  subst hsplit
  rw [List.flatMap_append, Token.extent_append] at hfit
  have hpre : ∀ d ∈ deltas 0 pre, d.isPassed (Token.extent (pre.map (·.token))) = true := by
    intro d hd
    have hstop := stop_deltas (fun p hp => hfull p (List.mem_append_left _ hp)) d hd
    rw [Delta.isPassed_iff]
    omega
  have hpost : ∀ d ∈ (deltas (0 + Token.extent (pre.map (·.token))) post).head?,
      ¬ d.isPassed (Token.extent (pre.map (·.token))) = true ∧ Token.extent (pre.map (·.token)) ≤ d.span.start := by
    intro d hd
    have hmem := List.mem_of_mem_head? hd
    have hstart := le_start_deltas d hmem
    refine ⟨fun hpassed => ?_, by omega⟩
    rw [Delta.isPassed_iff, Span.stop] at hpassed
    omega
  rw [deltas_made hfull, OffsetMap.map, deltas_append, mapFrom_passed hpre, mapFrom_ahead hpost, growth_deltas]
  exact clamp_of_le (by omega) (by omega)

end Patch

end Lintel
