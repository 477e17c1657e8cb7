import Lintel.Edit.Fold
import Lintel.Proofs.Leaves
import Lintel.Proofs.TriviaErasure

namespace Lintel

structure Cell extends Token where
  owner : Kind
  deriving DecidableEq

namespace Cell

def extent (cs : List Cell) : Nat :=
  cs.foldr (fun c n => c.text.size + n) 0

@[simp] theorem extent_nil : extent [] = 0 := rfl

@[simp] theorem extent_cons (c : Cell) (cs : List Cell) : extent (c :: cs) = c.text.size + extent cs := rfl

theorem size_textOf (cs : List Cell) : (Token.textOf (cs.map (·.toToken))).size = extent cs := by
  induction cs with
  | nil => rfl
  | cons c cs ih =>
    rw [extent_cons, ← ih]
    simp [Token.textOf]

@[simp] theorem extent_append (cs ds : List Cell) : extent (cs ++ ds) = extent cs + extent ds := by
  induction cs with
  | nil => simp
  | cons c cs ih => simp [ih, Nat.add_assoc]

def space (owner : Kind) : Cell :=
  ⟨⟨.whitespace, [' ']⟩, owner⟩

end Cell

namespace Tree

mutual

def cells (owner : Kind) : Tree → List Cell
  | .token k t => [⟨⟨k, t⟩, owner⟩]
  | .node k cs => cellsAll k cs

def cellsAll (owner : Kind) : List Tree → List Cell
  | [] => []
  | c :: cs => c.cells owner ++ cellsAll owner cs

end

@[simp] theorem cellsAll_append (owner : Kind) (ts us : List Tree) :
    cellsAll owner (ts ++ us) = cellsAll owner ts ++ cellsAll owner us := by
  induction ts with
  | nil => rfl
  | cons t ts ih => simp [cellsAll, ih]

mutual

theorem map_toToken_cells (owner : Kind) : (t : Tree) → (t.cells owner).map (·.toToken) = t.tokens
  | .token _ _ => rfl
  | .node k cs => map_toToken_cellsAll k cs

theorem map_toToken_cellsAll (owner : Kind) :
    (cs : List Tree) → (cellsAll owner cs).map (·.toToken) = tokensAll cs
  | [] => rfl
  | c :: cs => by
    rw [cellsAll, List.map_append, map_toToken_cells owner c, map_toToken_cellsAll owner cs, tokensAll]

end

mutual

theorem cells_erase (owner : Kind) : (t : Tree) → t.isTrivia = false →
    t.erase.cells owner = (t.cells owner).filter (!·.isTrivia)
  | .token k t, h => by
    have hk : Token.isTrivia ⟨k, t⟩ = false := h
    simp [erase, cells, hk]
  | .node k cs, _ => cellsAll_eraseAll k cs

theorem cellsAll_eraseAll (owner : Kind) : (cs : List Tree) →
    cellsAll owner (eraseAll cs) = (cellsAll owner cs).filter (!·.isTrivia)
  | [] => rfl
  | c :: cs => by
    rw [cellsAll, List.filter_append, ← cellsAll_eraseAll owner cs, eraseAll]
    cases h : c.isTrivia with
    | false =>
      rw [← cells_erase owner c h]
      rfl
    | true =>
      cases c with
      | token k t =>
        have hk : Token.isTrivia ⟨k, t⟩ = true := h
        simp [cells, hk]
      | node k cs => simp [isTrivia] at h

end

mutual

theorem nodeKinds_erase : (t : Tree) → t.erase.nodeKinds = t.nodeKinds
  | .token _ _ => rfl
  | .node k cs => by rw [erase, nodeKinds, nodeKinds, nodeKindsAll_eraseAll cs]

theorem nodeKindsAll_eraseAll : (cs : List Tree) → nodeKindsAll (eraseAll cs) = nodeKindsAll cs
  | [] => rfl
  | c :: cs => by
    rw [eraseAll, nodeKindsAll, ← nodeKindsAll_eraseAll cs, ← nodeKinds_erase c]
    cases c with
    | token k t => cases h : (Tree.token k t).isTrivia <;> simp [nodeKindsAll, erase, nodeKinds]
    | node k cs => rfl

end

theorem text_eq_textOf_cells (owner : Kind) (t : Tree) : t.text = Token.textOf ((t.cells owner).map (·.toToken)) := by
  rw [map_toToken_cells, textOf_tokens]

theorem size_eq (owner : Kind) (t : Tree) : t.size = Cell.extent (t.cells owner) := by
  rw [size, text_eq_textOf_cells owner, Cell.size_textOf]

theorem tokensAll_eraseAll (cs : List Tree) : tokensAll (eraseAll cs) = (tokensAll cs).filter (!·.isTrivia) := by
  rw [← map_toToken_cellsAll .error, cellsAll_eraseAll, ← map_toToken_cellsAll .error, List.filter_map]
  rfl

mutual

theorem filled_of_erase : (t : Tree) → t.erase.Filled → t.Filled
  | .token _ _, _ => trivial
  | .node k cs, h => by
    refine ⟨fun hnil => h.1 ?_, filledAll_of_eraseAll cs h.2⟩
    rw [tokensAll_eraseAll, hnil]
    rfl

theorem filledAll_of_eraseAll : (cs : List Tree) → FilledAll (eraseAll cs) → FilledAll cs
  | [], _ => trivial
  | c :: cs, h => by
    rw [eraseAll] at h
    cases hc : c.isTrivia with
    | false =>
      rw [hc] at h
      exact ⟨filled_of_erase c h.1, filledAll_of_eraseAll cs h.2⟩
    | true =>
      rw [hc] at h
      refine ⟨?_, filledAll_of_eraseAll cs h⟩
      cases c with
      | token k t => trivial
      | node k cs => simp [isTrivia] at hc

end

end Tree

namespace Zipper

def cell (z : Zipper) : Cell :=
  ⟨⟨z.kind, z.text⟩, (z.above.head?.map (·.kind)).getD z.kind⟩

theorem isTrivia_cell {z : Zipper} (h : z.isToken = true) : z.cell.isTrivia = z.isTrivia := by
  obtain ⟨focus, above⟩ := z
  cases focus with
  | token k t => rfl
  | node k cs => simp [isToken, Tree.isToken] at h

theorem extent_map_cell (zs : List Zipper) : Cell.extent (zs.map cell) = Tree.sizeAll (zs.map (·.focus)) := by
  induction zs with
  | nil => rfl
  | cons z zs ih =>
    rw [List.map_cons, List.map_cons, Cell.extent_cons, Tree.sizeAll_cons, ih]
    rfl

theorem span_leaf {k : Kind} {cs : List Tree} (hfill : Tree.FilledAll cs) {ls rs : List Zipper} {z : Zipper}
    (h : leaves (.node k cs) = ls ++ z :: rs) : z.span = ⟨Cell.extent (ls.map cell), z.cell.text.size⟩ := by
  rw [extent_map_cell, ← start_leaf hfill h]
  rfl

mutual

theorem map_cell_leavesOf (f : Frame) (fs : List Frame) :
    (t : Tree) → (leavesOf (f :: fs) t).map cell = t.cells f.kind
  | .token _ _ => rfl
  | .node k cs => map_cell_leavesAll k (f :: fs) [] cs

theorem map_cell_leavesAll (kind : Kind) (above : List Frame) (left : List Tree) :
    (cs : List Tree) → (leavesAll kind above left cs).map cell = Tree.cellsAll kind cs
  | [] => rfl
  | c :: cs => by
    rw [leavesAll, List.map_append, map_cell_leavesOf _ _ c, map_cell_leavesAll kind above (c :: left) cs,
      Tree.cellsAll]

end

def cellsBefore : List Frame → List Cell
  | [] => []
  | f :: fs => cellsBefore fs ++ Tree.cellsAll f.kind f.left.reverse

def cellsAfter : List Frame → List Cell
  | [] => []
  | f :: fs => Tree.cellsAll f.kind f.right ++ cellsAfter fs

theorem cells_plug_node (owner k : Kind) (cs : List Tree) (fs : List Frame) :
    (plug (.node k cs) fs).cells owner = cellsBefore fs ++ Tree.cellsAll k cs ++ cellsAfter fs := by
  induction fs generalizing k cs with
  | nil => simp [plug, cellsBefore, cellsAfter, Tree.cells]
  | cons f fs ih =>
    rw [plug, Frame.fill, ih]
    simp [cellsBefore, cellsAfter, Tree.cellsAll, Tree.cells]

mutual

theorem split_leavesOf {ls rs : List Zipper} {z : Zipper} (above : List Frame) : (t : Tree) →
    leavesOf above t = ls ++ z :: rs →
      cellsBefore z.above = cellsBefore above ++ ls.map cell ∧
        cellsAfter z.above = rs.map cell ++ cellsAfter above
  | .token k t, h => by
    have hls : ls = [] := by
      have := congrArg List.length h
      simp only [leavesOf, List.length_append, List.length_cons, List.length_nil] at this
      exact List.length_eq_zero_iff.mp (by omega)
    subst hls
    obtain ⟨rfl, rfl⟩ := List.cons.inj h
    simp
  | .node k cs, h => by simpa [Tree.cellsAll] using split_leavesAll k above [] cs h

theorem split_leavesAll {ls rs : List Zipper} {z : Zipper} (kind : Kind) (above : List Frame)
    (left : List Tree) : (cs : List Tree) → leavesAll kind above left cs = ls ++ z :: rs →
      cellsBefore z.above = cellsBefore above ++ Tree.cellsAll kind left.reverse ++ ls.map cell ∧
        cellsAfter z.above = rs.map cell ++ cellsAfter above
  | [], h => by simp [leavesAll] at h
  | c :: cs, h => by
    have htail : ∀ ms, ls = leavesOf (⟨kind, left, cs⟩ :: above) c ++ ms →
        leavesAll kind above (c :: left) cs = ms ++ z :: rs →
        cellsBefore z.above = cellsBefore above ++ Tree.cellsAll kind left.reverse ++ ls.map cell ∧
          cellsAfter z.above = rs.map cell ++ cellsAfter above := by
      intro ms hls hms
      obtain ⟨hbefore, hafter⟩ := split_leavesAll kind above (c :: left) cs hms
      refine ⟨?_, hafter⟩
      rw [hbefore, hls, List.map_append, map_cell_leavesOf]
      simp [Tree.cellsAll]
    rw [leavesAll, List.append_eq_append_iff] at h
    obtain ⟨ms, hls, hms⟩ | ⟨ms, hc, hms⟩ := h
    · exact htail ms hls hms
    · cases ms with
      | nil => exact htail [] (by simpa using hc.symm) (by simpa using hms.symm)
      | cons m ms =>
        obtain ⟨rfl, rfl⟩ := List.cons.inj hms
        obtain ⟨hbefore, hafter⟩ := split_leavesOf (⟨kind, left, cs⟩ :: above) c hc
        rw [hbefore, hafter]
        simp [cellsBefore, cellsAfter, map_cell_leavesAll]

end

theorem erase_plug_node (k : Kind) {cs ds : List Tree} (h : Tree.eraseAll cs = Tree.eraseAll ds) (fs : List Frame) :
    (plug (.node k cs) fs).erase = (plug (.node k ds) fs).erase := by
  induction fs generalizing k cs ds with
  | nil => simp only [plug, Tree.erase, h]
  | cons f fs ih =>
    apply ih
    rw [Tree.eraseAll_append, Tree.eraseAll_append]
    simp [Tree.eraseAll, Tree.isTrivia, Tree.erase, h]

theorem exists_frame {z : Zipper} {k : Kind} {cs : List Tree} (hroot : z.root = .node k cs)
    (htok : z.isToken = true) : ∃ f fs, z.above = f :: fs := by
  obtain ⟨focus, above⟩ := z
  cases above with
  | nil =>
    rw [root, plug] at hroot
    subst hroot
    simp [isToken, Tree.isToken] at htok
  | cons f fs => exact ⟨f, fs, rfl⟩

section Surgery

variable {k : Kind} {cs : List Tree} {ls rs : List Zipper} {z : Zipper} (h : leaves (.node k cs) = ls ++ z :: rs)

include h

theorem cells_leaf (owner : Kind) : (Tree.node k cs).cells owner = ls.map cell ++ z.cell :: rs.map cell := by
  have hall := map_cell_leavesAll k [] [] cs
  rw [show leavesAll k [] [] cs = ls ++ z :: rs from h] at hall
  rw [Tree.cells, ← hall, List.map_append, List.map_cons]

theorem splice?_leaf {ts : List Tree} (hts : Tree.eraseAll ts = Tree.eraseAll [z.focus]) :
    ∃ tree, z.splice? ts = some tree ∧ tree.erase = (Tree.node k cs).erase ∧
      ∀ owner, tree.cells owner = ls.map cell ++ Tree.cellsAll z.cell.owner ts ++ rs.map cell := by
  obtain ⟨hroot, htok⟩ := root_leavesOf [] (.node k cs) z (by rw [← leaves, h]; simp)
  rw [plug] at hroot
  obtain ⟨f, fs, habove⟩ := exists_frame hroot htok
  obtain ⟨hbefore, hafter⟩ := split_leavesOf [] (.node k cs) h
  refine ⟨plug (f.fillMany ts) fs, by simp [splice?, habove], ?_, fun owner => ?_⟩
  · rw [← hroot, root, habove, plug, Frame.fillMany, Frame.fill]
    apply erase_plug_node
    rw [Tree.eraseAll_append, Tree.eraseAll_append, hts, List.append_cons, Tree.eraseAll_append,
      Tree.eraseAll_append]
  · have howner : z.cell.owner = f.kind := by simp [cell, habove]
    rw [habove, cellsBefore, cellsBefore, List.nil_append] at hbefore
    rw [habove, cellsAfter, cellsAfter, List.append_nil] at hafter
    rw [Frame.fillMany, cells_plug_node, Tree.cellsAll_append, Tree.cellsAll_append, howner, ← hbefore, ← hafter]
    simp

end Surgery

theorem removeToken?_of_apart {z : Zipper} (h : z.removalJoins = false) :
    z.removeToken? false = (z.splice? []).map (fun tree => (tree, [])) := by
  obtain ⟨focus, above⟩ := z
  cases above with
  | nil => rfl
  | cons f fs =>
    cases fs with
    | nil => simp [removeToken?, h, splice?, Frame.fillMany, plug, Tree.textAll]
    | cons g gs => simp [removeToken?, h, splice?, Frame.fillMany, Tree.textAll]

end Zipper

end Lintel
