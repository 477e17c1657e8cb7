import Lintel.Proofs.CellEdits
import Lintel.Proofs.Shedding

namespace Lintel

open Zipper

namespace Token

def extent (ts : List Token) : Nat :=
  (textOf ts).size

@[simp] theorem extent_nil : extent [] = 0 := rfl

@[simp] theorem extent_cons (t : Token) (ts : List Token) : extent (t :: ts) = t.text.size + extent ts := by
  simp [extent, textOf]

@[simp] theorem extent_append (ts us : List Token) : extent (ts ++ us) = extent ts + extent us := by
  simp [extent, textOf]

def weight (ts : List Token) : Nat :=
  (ts.filter (!·.isTrivia)).length

@[simp] theorem weight_append (ts us : List Token) : weight (ts ++ us) = weight ts + weight us := by
  simp [weight]

theorem weight_cons (t : Token) (ts : List Token) : weight (t :: ts) = weight [t] + weight ts :=
  weight_append [t] ts

def space : Token :=
  ⟨.whitespace, [' ']⟩

def Fills (pre suf filler : List Token) : Prop :=
  filler = [] ∨ filler = [space] ∧ ∃ p ∈ pre.getLast?, ∃ s ∈ suf.head?, p.isTrivia = false ∧ s.isTrivia = false ∧
    staysApart p.text s.text = false

theorem Fills.isTrivia {pre suf filler : List Token} (h : Fills pre suf filler) : ∀ t ∈ filler, t = space := by
  obtain rfl | ⟨rfl, -⟩ := h <;> simp

end Token

theorem Kind.isTrivia_of_isLiteral {k : Kind} (h : k.isLiteral = true) : k.isTrivia = false := by
  unfold isLiteral at h
  split at h <;> first | rfl | cases h

theorem Cell.extent_eq (cs : List Cell) : Cell.extent cs = Token.extent (cs.map (·.toToken)) := by
  induction cs with
  | nil => rfl
  | cons c cs ih => simp [ih]

namespace Tree

theorem eraseAll_cons {t : Tree} (ht : t.isTrivia = false) (ts : List Tree) :
    eraseAll (t :: ts) = t.erase :: eraseAll ts := by
  simp [eraseAll, ht]

theorem all_isNode_eraseAll (ts : List Tree) :
    (eraseAll ts).all (·.isNode) = ts.all (fun t => t.isNode || t.isTrivia) := by
  induction ts with
  | nil => rfl
  | cons t ts ih =>
    cases ht : t.isTrivia with
    | true => simp [eraseAll, ht, ih]
    | false =>
      rw [eraseAll_cons ht, List.all_cons, List.all_cons, ih, ht, Bool.or_false]
      cases t <;> rfl

def Plain (k : Kind) (cs : List Tree) : Prop :=
  k = .literalExpr → ∀ c ∈ cs, c.isToken = true ∧ c.kind.isLiteral = true

end Tree

namespace Frame

def erase (f : Frame) : Frame :=
  ⟨f.kind, (Tree.eraseAll f.left.reverse).reverse, Tree.eraseAll f.right⟩

theorem erase_fill {t : Tree} (ht : t.isTrivia = false) (f : Frame) : (f.fill t).erase = f.erase.fill t.erase := by
  simp [fill, erase, Tree.erase, Tree.eraseAll_cons ht]

theorem erase_fillMany (f : Frame) (ts : List Tree) : (f.fillMany ts).erase = f.erase.fillMany (Tree.eraseAll ts) := by
  simp [fillMany, erase, Tree.erase]

end Frame

namespace Zipper

theorem erase_plug {t : Tree} (ht : t.isTrivia = false) (fs : List Frame) :
    (plug t fs).erase = plug t.erase (fs.map Frame.erase) := by
  induction fs generalizing t with
  | nil => rfl
  | cons f fs ih =>
    rw [plug, ih rfl, Frame.erase_fill ht]
    rfl

theorem tokensBefore_erase (fs : List Frame) :
    tokensBefore (fs.map Frame.erase) = Token.weight ((cellsBefore fs).map (·.toToken)) := by
  induction fs with
  | nil => rfl
  | cons f fs ih =>
    have hleft : (Tree.tokensAll f.erase.left).length = Token.weight (Tree.tokensAll f.left.reverse) := by
      rw [Frame.erase, length_tokensAll_reverse, Tree.tokensAll_eraseAll]
      rfl
    rw [cellsBefore, List.map_append, Tree.map_toToken_cellsAll, Token.weight_append, ← ih, ← hleft]
    simp [tokensBefore, Nat.add_comm]

theorem tokens_plug_node (k : Kind) (cs : List Tree) (fs : List Frame) : (plug (.node k cs) fs).tokens =
    (cellsBefore fs).map (·.toToken) ++ Tree.tokensAll cs ++ (cellsAfter fs).map (·.toToken) := by
  rw [← Tree.map_toToken_cells k, cells_plug_node, List.map_append, List.map_append, Tree.map_toToken_cellsAll]

theorem each_plug {Q : Kind → List Tree → Prop} {t : Tree} {fs : List Frame} (h : (plug t fs).Each Q) : t.Each Q := by
  induction fs generalizing t with
  | nil => exact h
  | cons f fs ih => exact (Tree.eachAll_append.mp (ih h).2).2.1

theorem plain_plug {k k' : Kind} {cs cs' : List Tree} {fs : List Frame} (h : (plug (.node k cs) fs).Each Tree.Plain)
    (hnew : (Tree.node k' cs').Each Tree.Plain) : (plug (.node k' cs') fs).Each Tree.Plain := by
  induction fs generalizing k k' cs cs' with
  | nil => exact hnew
  | cons f fs ih =>
    obtain ⟨hplain, hall⟩ := each_plug (t := f.fill (.node k cs)) h
    have hsides := Tree.eachAll_append.mp hall
    refine ih (k := f.kind) h ⟨fun hk => ?_, Tree.eachAll_append.mpr ⟨hsides.1, hnew, hsides.2.2⟩⟩
    have := (hplain hk (.node k cs) (by simp)).1
    simp [Tree.isToken] at this

def filler (z : Zipper) : List Tree :=
  if z.removalJoins then [.token .whitespace [' ']] else []

theorem eraseAll_filler (z : Zipper) : Tree.eraseAll z.filler = [] := by
  rw [filler]
  split <;> rfl

theorem each_filler (z : Zipper) (Q : Kind → List Tree → Prop) : Tree.EachAll Q z.filler := by
  rw [filler]
  split <;> simp [Tree.EachAll, Tree.Each]

theorem removeToken?_plain (z : Zipper) :
    z.removeToken? false = (z.splice? z.filler).map (·, Tree.textAll z.filler) := by
  obtain ⟨focus, above⟩ := z
  cases above with
  | nil => rfl
  | cons f fs => cases fs <;> rfl

def unwrapped (z : Zipper) (f : Frame) : List Tree :=
  let remaining := f.left.reverse ++ z.filler ++ f.right
  if remaining.all (fun t => t.isNode || t.isTrivia) then remaining else [.node f.kind remaining]

theorem removeToken?_unwrap {z : Zipper} {f g : Frame} {gs : List Frame} (h : z.above = f :: g :: gs) :
    z.removeToken? true = some (plug (g.fillMany (z.unwrapped f)) gs, Tree.textAll z.filler) := by
  rw [removeToken?, h]
  simp only [unwrapped, filler, Bool.true_and]
  split <;> split <;> simp_all [plug, Frame.fill, Frame.fillMany]

theorem eraseAll_unwrapped {z : Zipper} {y : Token} (hz : z.focus = .leaf y) (f : Frame) :
    Tree.eraseAll (z.unwrapped f) =
      (f.erase.fill z.focus).shed (Tree.tokensAll f.erase.left).length := by
  have hremaining : Tree.eraseAll (f.left.reverse ++ z.filler ++ f.right) = f.erase.left.reverse ++ f.erase.right := by
    simp [eraseAll_filler, Frame.erase]
  rw [hz, Frame.fill, ← length_tokensAll_reverse, Tree.shed_token, ← hremaining, Tree.all_isNode_eraseAll, unwrapped]
  split
  · rfl
  · simp [Tree.eraseAll, Tree.isTrivia, Tree.erase, Frame.erase]

theorem tokensAll_unwrapped (z : Zipper) (f : Frame) : Tree.tokensAll (z.unwrapped f) =
    Tree.tokensAll f.left.reverse ++ Tree.tokensAll z.filler ++ Tree.tokensAll f.right := by
  rw [unwrapped]
  split <;> simp [Tree.tokensAll, Tree.tokens]

def token (z : Zipper) : Token :=
  ⟨z.kind, z.text⟩

theorem map_token (zs : List Zipper) : (zs.map cell).map (·.toToken) = zs.map token :=
  List.map_map

theorem focus_leaf {z : Zipper} (h : z.isToken = true) : z.focus = .leaf z.token := by
  obtain ⟨focus, above⟩ := z
  cases focus with
  | token k t => rfl
  | node k cs => simp [isToken, Tree.isToken] at h

section Leaf

variable {k : Kind} {ds : List Tree} (hfill : Tree.FilledAll ds) {ls rs : List Zipper} {z : Zipper}
  (h : leaves (.node k ds) = ls ++ z :: rs)

include hfill h

theorem fills_filler : Token.Fills (ls.map token) (rs.map token) (Tree.tokensAll z.filler) := by
  rw [filler]
  split
  · rename_i hj
    rw [removalJoins, prevToken?_leaf hfill h, nextToken?_leaf hfill h] at hj
    split at hj
    · rename_i l r hl hr
      have hl' := (root_leavesOf [] _ l (by rw [← leaves, h]; simp [List.mem_of_getLast? hl])).2
      have hr' := (root_leavesOf [] _ r (by rw [← leaves, h]; simp [List.mem_of_mem_head? hr])).2
      simp only [Bool.and_eq_true, Bool.not_eq_true'] at hj
      refine .inr ⟨rfl, l.token, by simp [hl], r.token, by simp [hr], ?_, ?_, hj.2⟩
      · exact (isTrivia_cell hl').trans hj.1.1
      · exact (isTrivia_cell hr').trans hj.1.2
    · cases hj
  · exact .inl rfl

theorem resolve_taking (u : Bool) {offset shift : Nat} (hpos : 0 < z.cell.text.size)
    (hat : offset + shift = Token.extent (ls.map token)) :
    (⟨⟨offset, z.cell.text.size⟩, .removeToken z.cell.kind u, nofun⟩ : Part).resolve (.node k ds) shift =
      .ok (.token z) := by
  have hmem : z ∈ leaves (.node k ds) := by simp [h]
  have hspan := span_leaf hfill h
  have hstop := Part.stop_leaf_le hfill h
  have htok := (root_leavesOf [] _ z hmem).2
  rw [Cell.extent_eq, map_token, ← hat] at hspan
  have hcover : covering (.node k ds) ⟨offset + shift, z.cell.text.size⟩ = z := by
    rw [← hspan]
    exact covering_leaf hmem hpos
  rw [hspan] at hstop
  simp [Part.resolve, Span.shift, Nat.not_lt.mpr hstop, Part.resolveToken, hcover, htok, hspan]
  rfl

end Leaf

end Zipper

namespace Part

def taking (unwrap : Bool) (offset : Nat) (y : Token) : Part :=
  ⟨⟨offset, y.text.size⟩, .removeToken y.kind unwrap, nofun⟩

end Part

structure Draft (k : Kind) (bs : List Tree) (t : Tree) (ts : List Token) : Prop where
  filled : Tree.FilledAll bs
  holding : Tree.EachAll Tree.Holding bs
  erase : t.erase = .node k bs
  tokens : t.tokens = ts
  full : ∀ y ∈ ts, 0 < y.text.size
  plain : t.Each Tree.Plain

namespace Draft

variable {k : Kind} {bs : List Tree} {t : Tree} {ts pre suf : List Token} {y : Token}

theorem exists_leaf (h : Draft k bs t (pre ++ y :: suf)) :
    ∃ (ds : List Tree) (ls : List Zipper) (z : Zipper) (rs : List Zipper), t = .node k ds ∧ Tree.FilledAll ds ∧
      leaves (.node k ds) = ls ++ z :: rs ∧ ls.map token = pre ∧ z.token = y ∧ rs.map token = suf := by
  obtain ⟨ds, rfl, hfill⟩ : ∃ ds, t = .node k ds ∧ Tree.FilledAll ds := by
    have herase := h.erase
    cases t with
    | token k' t => simp [Tree.erase] at herase
    | node k' ds =>
      obtain ⟨rfl, hds⟩ : k' = k ∧ Tree.eraseAll ds = bs := by simpa [Tree.erase] using herase
      exact ⟨ds, rfl, Tree.filledAll_of_eraseAll ds (hds ▸ h.filled)⟩
  have hmap : (leaves (.node k ds)).map token = pre ++ y :: suf := by
    rw [← h.tokens, ← map_token, ← Tree.map_toToken_cells k, Tree.cells, ← map_cell_leavesAll k [] [] ds]
    rfl
  obtain ⟨ls, rest, hleaves, hls, hrest⟩ := List.map_eq_append_iff.mp hmap
  obtain ⟨z, rs, rfl, hz, hrs⟩ := List.map_eq_cons_iff.mp hrest
  exact ⟨ds, ls, z, rs, rfl, hfill, hleaves, hls, hz, hrs⟩

theorem tokens_leaf (h : Draft k bs t ts) {ds : List Tree} {ls rs : List Zipper} {z : Zipper} (ht : t = .node k ds)
    (hleaves : leaves (.node k ds) = ls ++ z :: rs) : ts = ls.map token ++ z.token :: rs.map token := by
  rw [← h.tokens, ht, ← Tree.map_toToken_cells k, cells_leaf hleaves, List.map_append, List.map_cons, map_token,
    map_token]
  rfl

theorem splice (h : Draft k bs t ts) {ds : List Tree} {ls rs : List Zipper} {z : Zipper} (ht : t = .node k ds)
    (hleaves : leaves (.node k ds) = ls ++ z :: rs) {us : List Tree} (hus : Tree.eraseAll us = Tree.eraseAll [z.focus])
    (hfull : ∀ y ∈ Tree.tokensAll us, 0 < y.text.size) (heach : Tree.EachAll Tree.Plain us)
    (hlit : z.kind.isLiteral = false) :
    ∃ tree, z.splice? us = some tree ∧ Draft k bs tree (ls.map token ++ Tree.tokensAll us ++ rs.map token) := by
  obtain ⟨tree, hsplice, herase, hcells⟩ := splice?_leaf hleaves hus
  have hnew : tree.tokens = ls.map token ++ Tree.tokensAll us ++ rs.map token := by
    rw [← Tree.map_toToken_cells k, hcells, List.map_append, List.map_append, Tree.map_toToken_cellsAll, map_token,
      map_token]
  have hold := h.tokens_leaf ht hleaves
  refine ⟨tree, hsplice, h.filled, h.holding, by rw [herase, ← ht, h.erase], hnew, ?_, ?_⟩
  · intro y hy
    rw [List.mem_append, List.mem_append] at hy
    obtain (hy | hy) | hy := hy
    · exact h.full y (by rw [hold]; exact List.mem_append_left _ hy)
    · exact hfull y hy
    · exact h.full y (by rw [hold]; exact List.mem_append_right _ (List.mem_cons_of_mem _ hy))
  · obtain ⟨hroot, htok⟩ := root_leavesOf [] (.node k ds) z (by rw [← leaves, hleaves]; simp)
    obtain ⟨f, fs, habove⟩ := exists_frame hroot htok
    have hplain := h.plain
    rw [ht, ← show z.root = .node k ds from hroot, root, habove, plug] at hplain
    obtain ⟨hf, hall⟩ := each_plug hplain
    have hsides := Tree.eachAll_append.mp hall
    obtain rfl : plug (f.fillMany us) fs = tree := by simpa [splice?, habove] using hsplice
    refine plain_plug hplain ⟨fun hk => ?_, ?_⟩
    · have := (hf hk z.focus (by simp)).2
      rw [show z.focus.kind = z.kind from rfl, hlit] at this
      cases this
    · exact Tree.eachAll_append.mpr ⟨Tree.eachAll_append.mpr ⟨hsides.1, heach⟩, hsides.2.2⟩

theorem full_filler (z : Zipper) : ∀ y ∈ Tree.tokensAll z.filler, 0 < y.text.size := by
  rw [filler]
  split
  · intro y hy
    obtain rfl : y = Token.space := by simpa [Tree.tokensAll, Tree.tokens, Token.space] using hy
    decide
  · simp [Tree.tokensAll]

theorem getElem?_leaf (h : Draft k bs t ts) {ds : List Tree} {ls rs : List Zipper} {z : Zipper} (ht : t = .node k ds)
    (hleaves : leaves (.node k ds) = ls ++ z :: rs) (hz : z.token.isTrivia = false) :
    (Tree.cellsAll k bs)[Token.weight (ls.map token)]? = some z.cell := by
  have hbs : Tree.cellsAll k bs = (ls.map cell ++ z.cell :: rs.map cell).filter (!·.isTrivia) := by
    have herase := h.erase
    rw [ht, Tree.erase, Tree.node.injEq] at herase
    rw [← herase.2, Tree.cellsAll_eraseAll, ← cells_leaf hleaves k, Tree.cells]
  have hweight : Token.weight (ls.map token) = ((ls.map cell).filter (!·.isTrivia)).length := by
    rw [Token.weight, ← map_token, List.filter_map, List.length_map]
    rfl
  rw [hbs, List.filter_append, List.filter_cons_of_pos (by simp [show z.cell.isTrivia = false from hz]), hweight]
  simp

theorem unwrap (h : Draft k bs t ts) {ds : List Tree} {ls rs : List Zipper} {z : Zipper} (ht : t = .node k ds)
    (hleaves : leaves (.node k ds) = ls ++ z :: rs) (hk : k ≠ .parenExpr) (hz : z.token.isTrivia = false)
    (hown : z.cell.owner = .parenExpr) :
    ∃ tree, z.removeToken? true = some (tree, Tree.textAll z.filler) ∧
      Draft k (Tree.shedAll (Token.weight (ls.map token)) bs) tree
        (ls.map token ++ Tree.tokensAll z.filler ++ rs.map token) := by
  obtain ⟨hroot, htok⟩ := root_leavesOf [] (.node k ds) z (by rw [← leaves, hleaves]; simp)
  have hcell := h.getElem?_leaf ht hleaves hz
  have hold := h.tokens_leaf ht hleaves
  obtain ⟨hbefore, hafter⟩ := split_leavesOf [] (.node k ds) hleaves
  obtain ⟨f, fs, habove⟩ := exists_frame hroot htok
  have hf : f.kind = .parenExpr := by simpa [cell, habove] using hown
  replace hroot : plug (f.fill z.focus) fs = .node k ds := by
    rw [root, habove] at hroot
    exact hroot
  cases fs with
  | nil =>
    simp only [plug, Frame.fill, Tree.node.injEq] at hroot
    exact absurd (hroot.1.symm.trans hf) hk
  | cons g gs =>
    have hfocus := focus_leaf htok
    have hplain := h.plain
    rw [ht, ← hroot] at hplain
    obtain ⟨hg, hgall⟩ := each_plug (t := g.fill (f.fill z.focus)) hplain
    have hgsides := Tree.eachAll_append.mp hgall
    have hfsides := Tree.eachAll_append.mp hgsides.2.1.2
    have hremaining : Tree.EachAll Tree.Plain (f.left.reverse ++ z.filler ++ f.right) :=
      Tree.eachAll_append.mpr ⟨Tree.eachAll_append.mpr ⟨hfsides.1, each_filler z _⟩, hfsides.2.2⟩
    -- Without trivia, the frames around the parenthesis are those of the tree without trivia.
    have hplace : plug (f.erase.fill z.focus) (g.erase :: gs.map Frame.erase) = .node k bs := by
      have herase := h.erase
      have hsig : z.focus.isTrivia = false := by rw [hfocus]; exact hz
      rw [ht, ← hroot, erase_plug rfl, Frame.erase_fill hsig, hfocus] at herase
      rw [hfocus]
      exact herase
    have hshed := shedAll_plug (t := f.erase.fill z.focus) rfl (n := (Tree.tokensAll f.erase.left).length) (by
      rw [← length_tokensAll_reverse, hfocus]
      simp [Frame.fill, Tree.tokens, Tree.tokensAll, Tree.leaf]) g.erase (gs.map Frame.erase) hplace
    have hcount : tokensBefore (g.erase :: gs.map Frame.erase) + (Tree.tokensAll f.erase.left).length =
        Token.weight (ls.map token) := by
      have hall := tokensBefore_erase z.above
      rw [hbefore, habove, cellsBefore, List.nil_append, map_token] at hall
      rw [← hall]
      simp only [tokensBefore, List.map_cons, List.foldr_cons]
      omega
    obtain ⟨hfilled, hholding, -⟩ := Tree.shedAll_holding bs k (Token.weight (ls.map token)) h.filled h.holding
      (by rw [hcell, Option.map_some, hown])
    refine ⟨_, removeToken?_unwrap habove, hfilled, hholding, ?_, ?_, ?_, ?_⟩
    · rw [Frame.fillMany, erase_plug rfl, ← Frame.fillMany, Frame.erase_fillMany, eraseAll_unwrapped hfocus, hshed,
        hcount]
    · have hls : ls.map token = (cellsBefore gs).map (·.toToken) ++ Tree.tokensAll g.left.reverse ++
          Tree.tokensAll f.left.reverse := by
        rw [habove, cellsBefore, cellsBefore, cellsBefore, List.nil_append] at hbefore
        rw [← map_token, ← hbefore, List.map_append, List.map_append, Tree.map_toToken_cellsAll,
          Tree.map_toToken_cellsAll]
      have hrs : rs.map token = Tree.tokensAll f.right ++
        (Tree.tokensAll g.right ++ (cellsAfter gs).map (·.toToken)) := by
        rw [habove, cellsAfter, cellsAfter, cellsAfter, List.append_nil] at hafter
        rw [← map_token, ← hafter, List.map_append, List.map_append, Tree.map_toToken_cellsAll,
          Tree.map_toToken_cellsAll]
      rw [Frame.fillMany, tokens_plug_node, Tree.tokensAll_append, Tree.tokensAll_append, tokensAll_unwrapped, hls, hrs]
      simp only [List.append_assoc]
    · intro y hy
      rw [List.mem_append, List.mem_append] at hy
      obtain (hy | hy) | hy := hy
      · exact h.full y (by rw [hold]; exact List.mem_append_left _ hy)
      · exact full_filler z y hy
      · exact h.full y (by rw [hold]; exact List.mem_append_right _ (List.mem_cons_of_mem _ hy))
    · refine plain_plug (k := g.kind) hplain ⟨fun hlit => ?_, ?_⟩
      · have := (hg hlit (f.fill z.focus) (by simp)).1
        simp [Frame.fill, Tree.isToken] at this
      · refine Tree.eachAll_append.mpr ⟨Tree.eachAll_append.mpr ⟨hgsides.1, ?_⟩, hgsides.2.2⟩
        rw [unwrapped]
        split
        · exact hremaining
        · refine ⟨⟨fun hlit => ?_, hremaining⟩, trivial⟩
          rw [hf] at hlit
          cases hlit

end Draft

namespace Batch

variable {k : Kind} {bs : List Tree} {pre suf : List Token} {y : Token} {g : Progress}

theorem step_taking {u : Bool} {offset : Nat} {z : Zipper} {tree : Tree} {filler : List Tree}
    (hresolve : (Part.taking u offset y).resolve g.tree (g.shift offset) = .ok (.token z))
    (hremove : z.removeToken? u = some (tree, Tree.textAll filler)) (hpos : 0 < y.text.size) (rule : String) :
    step g (rule, .taking u offset y) = .ok
      { tree, made := ⟨rule, ⟨offset, y.text.size⟩, Token.textOf (Tree.tokensAll filler)⟩ :: g.made
        inserted := g.inserted } := by
  have hempty : (Part.taking u offset y).span.isEmpty = false := by
    simp only [Span.isEmpty, Part.taking, beq_eq_false_iff_ne]
    omega
  rw [step_made (x := (rule, .taking u offset y)) hresolve hremove, hempty, Tree.textOf_tokensAll]
  rfl

theorem step_trivia (h : Draft k bs g.tree (pre ++ y :: suf)) (hy : y.isTrivia = true) {offset : Nat}
    (hat : offset + g.shift offset = Token.extent pre) (rule : String) :
    ∃ tree filler, Token.Fills pre suf filler ∧ Draft k bs tree (pre ++ filler ++ suf) ∧
      step g (rule, .taking false offset y) = .ok
        { tree, made := ⟨rule, ⟨offset, y.text.size⟩, Token.textOf filler⟩ :: g.made, inserted := g.inserted } := by
  have hpos : 0 < y.text.size := h.full y (by simp)
  obtain ⟨ds, ls, z, rs, ht, hfill, hleaves, rfl, rfl, rfl⟩ := h.exists_leaf
  have htok := (root_leavesOf [] _ z (by rw [← leaves, hleaves]; simp)).2
  have hgone : Tree.eraseAll z.filler = Tree.eraseAll [z.focus] := by
    have hz : z.focus.isTrivia = true := by
      rw [focus_leaf htok]
      exact hy
    rw [eraseAll_filler, Tree.eraseAll, if_pos hz]
    rfl
  have hlit : z.kind.isLiteral = false := by
    rw [← Bool.not_eq_true]
    intro hlit
    have htrivia := Kind.isTrivia_of_isLiteral hlit
    rw [show z.kind.isTrivia = true from hy] at htrivia
    cases htrivia
  obtain ⟨tree, hsplice, hdraft⟩ := h.splice ht hleaves hgone (Draft.full_filler z) (each_filler z _) hlit
  have hresolve : (Part.taking false offset z.token).resolve g.tree (g.shift offset) = .ok (.token z) := by
    rw [ht]
    exact resolve_taking hfill hleaves false hpos hat
  have hremove : z.removeToken? false = some (tree, Tree.textAll z.filler) := by
    rw [removeToken?_plain, hsplice]
    rfl
  exact ⟨tree, _, fills_filler hfill hleaves, hdraft, step_taking hresolve hremove hpos rule⟩

theorem step_parenthesis (h : Draft k bs g.tree (pre ++ y :: suf)) (hk : k ≠ .parenExpr) (hy : y.isTrivia = false)
    (hown : (Tree.cellsAll k bs)[Token.weight pre]?.map (·.owner) = some .parenExpr) {offset : Nat}
    (hat : offset + g.shift offset = Token.extent pre) (rule : String) :
    ∃ tree filler, Token.Fills pre suf filler ∧
      Draft k (Tree.shedAll (Token.weight pre) bs) tree (pre ++ filler ++ suf) ∧
      step g (rule, .taking true offset y) = .ok
        { tree, made := ⟨rule, ⟨offset, y.text.size⟩, Token.textOf filler⟩ :: g.made, inserted := g.inserted } := by
  have hpos : 0 < y.text.size := h.full y (by simp)
  obtain ⟨ds, ls, z, rs, ht, hfill, hleaves, rfl, rfl, rfl⟩ := h.exists_leaf
  rw [h.getElem?_leaf ht hleaves hy, Option.map_some, Option.some.injEq] at hown
  obtain ⟨tree, hremove, hdraft⟩ := h.unwrap ht hleaves hk hy hown
  have hresolve : (Part.taking true offset z.token).resolve g.tree (g.shift offset) = .ok (.token z) := by
    rw [ht]
    exact resolve_taking hfill hleaves true hpos hat
  exact ⟨tree, _, fills_filler hfill hleaves, hdraft, step_taking hresolve hremove hpos rule⟩

end Batch

end Lintel
