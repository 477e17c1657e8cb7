import Lintel.Edit.Batch
import Lintel.Proofs.Cells

namespace Lintel

open Zipper

namespace Part

def removing (span : Span) (kind : Kind) : Part :=
  ⟨span, .removeToken kind false, nofun⟩

def removal (offset : Nat) (c : Cell) : Part :=
  removing ⟨offset, c.text.size⟩ c.kind

def padding (offset : Nat) (c : Cell) : Part :=
  ⟨⟨offset + c.text.size, 0⟩, .insertAfter c.kind [.token .whitespace [' ']], fun _ => rfl⟩

section Leaf

variable {k : Kind} {ds : List Tree} (hfill : Tree.FilledAll ds) {ls rs : List Zipper} {z : Zipper}
  (h : leaves (.node k ds) = ls ++ z :: rs)

include hfill h

theorem stop_leaf_le : z.span.stop ≤ (Tree.node k ds).size := by
  rw [Tree.size_eq k, cells_leaf h, span_leaf hfill h]
  simp [Span.stop]

theorem resolve_removal (hpos : 0 < z.cell.text.size) :
    (removal (Cell.extent (ls.map cell)) z.cell).resolve (.node k ds) 0 = .ok (.token z) := by
  have hmem : z ∈ leaves (.node k ds) := by simp [h]
  have hspan := span_leaf hfill h
  have hstop := stop_leaf_le hfill h
  have htok := (root_leavesOf [] _ z hmem).2
  have hcover : covering (.node k ds) ⟨Cell.extent (ls.map cell), z.cell.text.size⟩ = z := by
    rw [← hspan]
    exact covering_leaf hmem hpos
  rw [hspan] at hstop
  simp [resolve, removal, removing, Span.shift, Nat.not_lt.mpr hstop, resolveToken, hcover, htok, hspan]
  rfl

theorem resolve_padding (hpos : 0 < z.cell.text.size) :
    (padding (Cell.extent (ls.map cell)) z.cell).resolve (.node k ds) 0 = .ok (.after z) := by
  have hmem : z ∈ leaves (.node k ds) := by simp [h]
  have hspan := span_leaf hfill h
  have hstop := stop_leaf_le hfill h
  have hseek : tokenLeftOf (.node k ds) z.span.stop = some z := tokenLeftOf_leaf hmem hpos
  rw [hspan] at hstop hseek
  simp only [Span.stop] at hstop hseek
  simp [resolve, padding, Span.shift, Span.stop, Nat.not_lt.mpr hstop, resolveAnchor, hseek, hspan]
  rfl

end Leaf

end Part

structure Layout (k : Kind) (bs : List Tree) (t : Tree) (cs : List Cell) : Prop where
  filled : Tree.FilledAll bs
  erase : t.erase = .node k bs
  cells : ∀ owner, t.cells owner = cs
  full : ∀ c ∈ cs, 0 < c.text.size

namespace Layout

variable {k : Kind} {bs : List Tree} {t : Tree} {cs pre suf : List Cell} {c : Cell}

theorem exists_children (h : Layout k bs t cs) :
    ∃ ds, t = .node k ds ∧ Tree.FilledAll ds ∧ Tree.cellsAll k ds = cs := by
  have herase := h.erase
  cases t with
  | token k' t => simp [Tree.erase] at herase
  | node k' ds =>
    obtain ⟨rfl, hds⟩ : k' = k ∧ Tree.eraseAll ds = bs := by simpa [Tree.erase] using herase
    exact ⟨ds, rfl, Tree.filledAll_of_eraseAll ds (hds ▸ h.filled), h.cells k'⟩

theorem exists_leaf (h : Layout k bs t (pre ++ c :: suf)) :
    ∃ (ds : List Tree) (ls : List Zipper) (z : Zipper) (rs : List Zipper), t = .node k ds ∧ Tree.FilledAll ds ∧
      leaves (.node k ds) = ls ++ z :: rs ∧ ls.map cell = pre ∧ z.cell = c ∧ rs.map cell = suf := by
  obtain ⟨ds, rfl, hfill, hcells⟩ := h.exists_children
  have hmap := map_cell_leavesAll k [] [] ds
  rw [hcells] at hmap
  obtain ⟨ls, rest, hleaves, hls, hrest⟩ := List.map_eq_append_iff.mp hmap
  obtain ⟨z, rs, rfl, hz, hrs⟩ := List.map_eq_cons_iff.mp hrest
  exact ⟨ds, ls, z, rs, rfl, hfill, hleaves, hls, hz, hrs⟩

theorem exists_removal (h : Layout k bs t (pre ++ c :: suf)) :
    ∃ z, (Part.removal (Cell.extent pre) c).resolve t 0 = .ok (.token z) := by
  have hpos := h.full c (by simp)
  obtain ⟨ds, ls, z, rs, rfl, hfill, hleaves, rfl, rfl, rfl⟩ := h.exists_leaf
  exact ⟨z, Part.resolve_removal hfill hleaves hpos⟩

theorem exists_padding (h : Layout k bs t (pre ++ c :: suf)) :
    ∃ z, (Part.padding (Cell.extent pre) c).resolve t 0 = .ok (.after z) := by
  have hpos := h.full c (by simp)
  obtain ⟨ds, ls, z, rs, rfl, hfill, hleaves, rfl, rfl, rfl⟩ := h.exists_leaf
  exact ⟨z, Part.resolve_padding hfill hleaves hpos⟩

end Layout

namespace Batch

variable {k : Kind} {bs : List Tree} {pre suf : List Cell} {c : Cell} {g : Progress}

theorem shift_eq_zero {n : Nat} (h : ∀ x ∈ g.inserted, x.1 ≠ n) : g.shift n = 0 := by
  rw [Progress.shift]
  split
  · rename_i offset m hx
    have hne : offset ≠ n := h (offset, m) hx
    simp [hne]
  · rfl

theorem step_made {x : String × Part} {target : Target} {tree : Tree} {new : Text}
    (hr : x.2.resolve g.tree (g.shift x.2.span.start) = .ok target) (hf : x.2.fold target = some (tree, new)) :
    step g x = .ok { tree
                     made := ⟨x.1, x.2.span, new⟩ :: g.made
                     inserted := if x.2.span.isEmpty then some (x.2.span.start, g.shift x.2.span.start + new.size)
                       else g.inserted } := by
  simp only [step, hr, hf, bind, Except.bind, pure, Except.pure]

theorem step_eq {p : Part} {target : Target} {tree : Tree} {text : Text} (hshift : g.shift p.span.start = 0)
    (hresolve : p.resolve g.tree 0 = .ok target) (hfold : p.fold target = some (tree, text)) (rule : String) :
    step g (rule, p) = .ok
      { tree, made := ⟨rule, p.span, text⟩ :: g.made
        inserted := if p.span.isEmpty then some (p.span.start, text.size) else g.inserted } := by
  rw [step_made (x := (rule, p)) (by rw [hshift]; exact hresolve) hfold, hshift, Nat.zero_add]

theorem step_removal (h : Layout k bs g.tree (pre ++ c :: suf)) (hc : c.isTrivia = true)
    (hshift : ∀ x ∈ g.inserted, x.1 ≠ Cell.extent pre)
    (hapart : ∀ p ∈ pre.getLast?, ∀ s ∈ suf.head?,
      p.isTrivia = true ∨ s.isTrivia = true ∨ staysApart p.text s.text = true) (rule : String) :
    ∃ tree, Layout k bs tree (pre ++ suf) ∧ step g (rule, .removal (Cell.extent pre) c) =
      .ok { tree, made := ⟨rule, ⟨Cell.extent pre, c.text.size⟩, []⟩ :: g.made, inserted := g.inserted } := by
  obtain ⟨ds, ls, z, rs, htree, hfill, hleaves, rfl, rfl, rfl⟩ := h.exists_leaf
  have hpos : 0 < z.cell.text.size := h.full _ (by simp)
  have htok : ∀ y ∈ ls ++ z :: rs, y.isToken = true := by
    rw [← hleaves]
    exact fun y hy => (root_leavesOf [] _ y hy).2
  have hjoins : z.removalJoins = false := by
    rw [removalJoins, prevToken?_leaf hfill hleaves, nextToken?_leaf hfill hleaves]
    split
    · rename_i l r hl hr
      have hor := hapart l.cell (by simp [hl]) r.cell (by simp [hr])
      rw [isTrivia_cell (htok l (by simp [List.mem_of_getLast? hl])),
        isTrivia_cell (htok r (by simp [List.mem_of_mem_head? hr]))] at hor
      obtain hl | hr | hs := hor
      · simp [hl]
      · simp [hr]
      · simp [show staysApart l.text r.text = true from hs]
    · rfl
  have hgone : Tree.eraseAll [] = Tree.eraseAll [z.focus] := by
    have hz : z.focus.isTrivia = true := by
      rw [isTrivia_cell (htok z (by simp))] at hc
      exact hc
    simp [Tree.eraseAll, hz]
  obtain ⟨tree, hsplice, herase, hcells⟩ := splice?_leaf hleaves hgone
  refine ⟨tree, ⟨h.filled, ?_, fun owner => ?_, ?_⟩, ?_⟩
  · rw [herase, ← htree, h.erase]
  · rw [hcells, Tree.cellsAll, List.append_nil]
  · intro d hd
    apply h.full
    simp only [List.mem_append, List.mem_cons] at hd ⊢
    tauto
  · have hresolve := Part.resolve_removal hfill hleaves hpos
    rw [← htree] at hresolve
    have hfold : (Part.removal (Cell.extent (ls.map cell)) z.cell).fold (.token z) = some (tree, []) := by
      simp [Part.fold, Part.removal, Part.removing, removeToken?_of_apart hjoins, hsplice]
    have hempty : (Part.removal (Cell.extent (ls.map cell)) z.cell).span.isEmpty = false := by
      simp [Span.isEmpty, Part.removal, Part.removing]
      omega
    rw [step_eq (shift_eq_zero hshift) hresolve hfold rule, hempty]
    rfl

theorem step_padding (h : Layout k bs g.tree (pre ++ c :: suf))
    (hshift : ∀ x ∈ g.inserted, x.1 ≠ Cell.extent pre + c.text.size) (rule : String) :
    ∃ tree, Layout k bs tree (pre ++ c :: Cell.space c.owner :: suf) ∧ step g (rule, .padding (Cell.extent pre) c) =
      .ok { tree, made := ⟨rule, ⟨Cell.extent pre + c.text.size, 0⟩, [' ']⟩ :: g.made
            inserted := some (Cell.extent pre + c.text.size, 1) } := by
  obtain ⟨ds, ls, z, rs, htree, hfill, hleaves, rfl, rfl, rfl⟩ := h.exists_leaf
  have hpos : 0 < z.cell.text.size := h.full _ (by simp)
  have hkept : Tree.eraseAll [z.focus, .token .whitespace [' ']] = Tree.eraseAll [z.focus] := by
    rw [← List.singleton_append, Tree.eraseAll_append]
    exact List.append_nil _
  obtain ⟨tree, hsplice, herase, hcells⟩ := splice?_leaf hleaves hkept
  have hfocus : z.focus.cells z.cell.owner = [z.cell] := by
    have htok := (root_leavesOf [] _ z (by rw [← leaves, hleaves]; simp)).2
    obtain ⟨focus, above⟩ := z
    cases focus with
    | token k t => rfl
    | node k cs => simp [isToken, Tree.isToken] at htok
  refine ⟨tree, ⟨h.filled, ?_, fun owner => ?_, ?_⟩, ?_⟩
  · rw [herase, ← htree, h.erase]
  · rw [hcells, Tree.cellsAll, hfocus]
    simp [Tree.cellsAll, Tree.cells, Cell.space]
  · intro d hd
    simp only [List.mem_append, List.mem_cons] at hd
    obtain hd | rfl | rfl | hd := hd
    · exact h.full d (by simp [hd])
    · exact hpos
    · exact Nat.one_pos
    · exact h.full d (by simp [hd])
  · have hresolve := Part.resolve_padding hfill hleaves hpos
    rw [← htree] at hresolve
    have hfold : (Part.padding (Cell.extent (ls.map cell)) z.cell).fold (.after z) = some (tree, [' ']) := by
      simp [Part.fold, Part.padding, insertAfter?, hsplice, Tree.textAll, Tree.text]
    rw [step_eq (shift_eq_zero hshift) hresolve hfold rule]
    rfl

end Batch

end Lintel
