import Lintel.Proofs.LeafRemoval
import Lintel.Proofs.LeadingTrivia
import Lintel.Proofs.RunSearch
import Lintel.Style.Parentheses

namespace Lintel

namespace Tree

theorem eraseAll_eq_cons {cs : List Tree} {y : Tree} {ys : List Tree} (h : eraseAll cs = y :: ys) :
    ∃ (a : List Tree) (c : Tree) (r : List Tree), cs = a ++ c :: r ∧ (∀ u ∈ a, u.isTrivia = true) ∧ c.isTrivia = false ∧
      c.erase = y ∧ eraseAll r = ys := by
  induction cs with
  | nil => cases h
  | cons c cs ih =>
    cases hc : c.isTrivia with
    | true =>
      rw [eraseAll, if_pos hc] at h
      obtain ⟨a, d, r, rfl, ha, hd⟩ := ih h
      exact ⟨c :: a, d, r, rfl, by simpa [hc] using ha, hd⟩
    | false =>
      rw [eraseAll_cons hc] at h
      obtain ⟨hy, hys⟩ := List.cons.inj h
      exact ⟨[], c, cs, rfl, nofun, hc, hy, hys⟩

theorem eraseAll_eq_nil {cs : List Tree} (h : eraseAll cs = []) : ∀ c ∈ cs, c.isTrivia = true := by
  induction cs with
  | nil =>
    intro x hx
    cases hx
  | cons c cs ih =>
    cases hc : c.isTrivia with
    | true =>
      rw [eraseAll, if_pos hc] at h
      simpa [hc] using ih h
    | false =>
      rw [eraseAll_cons hc] at h
      cases h

theorem eraseAll_of_trivia {cs : List Tree} (h : ∀ c ∈ cs, c.isTrivia = true) : eraseAll cs = [] := by
  induction cs with
  | nil => rfl
  | cons c cs ih =>
    rw [eraseAll, if_pos (h c List.mem_cons_self)]
    exact ih fun d hd => h d (List.mem_cons_of_mem _ hd)

theorem isTrivia_tokensAll {cs : List Tree} (h : ∀ c ∈ cs, c.isTrivia = true) :
    ∀ y ∈ tokensAll cs, y.isTrivia = true := by
  have hnone := tokensAll_eraseAll cs
  rw [eraseAll_of_trivia h] at hnone
  simpa using (List.filter_eq_nil_iff.mp hnone.symm)

theorem eq_leaf_of_erase {c : Tree} {t : Token} (h : c.erase = .leaf t) : c = .leaf t := by
  cases c with
  | token k u => exact h
  | node k cs => cases h

theorem isToken_of_isTrivia {t : Tree} (h : t.isTrivia = true) : t.isToken = true := by
  cases t with
  | token k u => rfl
  | node k cs => cases h

def Paired (k : Kind) (cs : List Tree) : Prop :=
  k = .parenExpr → ∃ l x r, cs = [.leaf l, x, .leaf r] ∧ l.kind = .lParen ∧ x.isNode = true ∧ r.kind = .rParen

theorem Paired.holding {k : Kind} {cs : List Tree} (h : Paired k cs) : Holding k cs := by
  intro hk
  obtain ⟨l, x, r, rfl, -, hx, -⟩ := h hk
  simp [hx]

mutual

theorem Each.imp {Q R : Kind → List Tree → Prop} (hqr : ∀ k cs, Q k cs → R k cs) : (t : Tree) → t.Each Q → t.Each R
  | .token _ _, _ => trivial
  | .node k cs, h => ⟨hqr k cs h.1, EachAll.imp hqr cs h.2⟩

theorem EachAll.imp {Q R : Kind → List Tree → Prop} (hqr : ∀ k cs, Q k cs → R k cs) : (ts : List Tree) →
    EachAll Q ts → EachAll R ts
  | [], _ => trivial
  | t :: ts, h => ⟨Each.imp hqr t h.1, EachAll.imp hqr ts h.2⟩

end

end Tree

namespace Outline

mutual

theorem each_bare {P : Kind → List Outline → Prop} {Q : Kind → List Tree → Prop}
    (hpq : ∀ k cs, P k cs → Q k (bareAll cs)) : (o : Outline) → o.Every P → Tree.EachAll Q (bare o)
  | .token _, _ => ⟨trivial, trivial⟩
  | .gap, _ => trivial
  | .node k cs, h => ⟨⟨hpq k cs h.1, each_bareAll hpq cs h.2⟩, trivial⟩

theorem each_bareAll {P : Kind → List Outline → Prop} {Q : Kind → List Tree → Prop}
    (hpq : ∀ k cs, P k cs → Q k (bareAll cs)) : (os : List Outline) → EveryAll P os → Tree.EachAll Q (bareAll os)
  | [], _ => trivial
  | o :: os, h => Tree.eachAll_append.mpr ⟨each_bare hpq o h.1, each_bareAll hpq os h.2⟩

end

end Outline

namespace Zipper

theorem siblings_element (k : Kind) (above : List Frame) (l : List Tree) (c : Tree) (r : List Tree) (left : List Tree) :
    ∃ ss, ss.map (·.focus) = l ∧ siblings k above left (l ++ c :: r) =
      ss ++ ⟨c, ⟨k, l.reverse ++ left, r⟩ :: above⟩ :: siblings k above (c :: (l.reverse ++ left)) r := by
  induction l generalizing left with
  | nil => exact ⟨[], rfl, rfl⟩
  | cons d l ih =>
    obtain ⟨ss, hss, heq⟩ := ih (d :: left)
    refine ⟨⟨d, ⟨k, left, l ++ c :: r⟩ :: above⟩ :: ss, by rw [List.map_cons, hss], ?_⟩
    rw [List.cons_append, siblings, heq]
    simp

theorem map_focus_siblings (k : Kind) (above : List Frame) (left cs : List Tree) :
    (siblings k above left cs).map (·.focus) = cs := by
  induction cs generalizing left with
  | nil => rfl
  | cons c cs ih => rw [siblings, List.map_cons, ih]

theorem leavesAll_element (k : Kind) (above : List Frame) (l : List Tree) (c : Tree) (r : List Tree)
    (left : List Tree) :
    ∃ ys, ys.map token = Tree.tokensAll l ∧ leavesAll k above left (l ++ c :: r) =
      ys ++ leavesOf (⟨k, l.reverse ++ left, r⟩ :: above) c ++ leavesAll k above (c :: (l.reverse ++ left)) r := by
  induction l generalizing left with
  | nil => exact ⟨[], rfl, rfl⟩
  | cons d l ih =>
    obtain ⟨ys, hys, heq⟩ := ih (d :: left)
    refine ⟨leavesOf (⟨k, left, l ++ c :: r⟩ :: above) d ++ ys, ?_, ?_⟩
    · rw [List.map_append, hys, Tree.tokensAll, ← map_token, map_cell_leavesOf, Tree.map_toToken_cells]
    · rw [List.cons_append, leavesAll, heq]
      simp

theorem coverOf_plug {s : Span} (hs : 0 < s.length) (t : Tree) (fs : List Frame)
    (hin : (span ⟨t, fs⟩).contains s = true) : coverOf s [] 0 (plug t fs) = coverOf s fs (start ⟨t, fs⟩) t := by
  induction fs generalizing t with
  | nil => rfl
  | cons f fs ih =>
    have hstart := start_above t (f.fill t) f fs
    rw [Span.contains_iff] at hin
    simp only [span, Span.stop, hstart] at hin
    have hup : (span ⟨f.fill t, fs⟩).contains s = true := by
      rw [Span.contains_iff]
      simp only [span, Span.stop, Frame.fill, Tree.size_node, Tree.sizeAll_append, Tree.sizeAll_cons,
        Tree.sizeAll_reverse]
      simp only [Frame.fill] at hin
      omega
    have hskip := coverAll_skip hs f.kind fs [] (start ⟨f.fill t, fs⟩) f.left.reverse t f.right
      (by rw [Tree.sizeAll_reverse]; omega) (by rw [Tree.sizeAll_reverse]; omega)
    rw [Tree.sizeAll_reverse, if_pos (by rw [Span.contains_iff]; simp only [Span.stop]; omega), List.reverse_reverse,
      List.append_nil] at hskip
    rw [plug, ih _ hup, hstart]
    rw [Frame.fill] at hskip ⊢
    rw [coverOf, hskip, Option.getD_some]

theorem covering_place {z : Zipper} {s : Span} (hs : 0 < s.length) (hin : z.span.contains s = true) :
    covering z.root s = coverOf s z.above z.start z.focus :=
  coverOf_plug hs z.focus z.above hin

theorem leaves_plug (t : Tree) (fs : List Frame) : ∃ ls rs, leaves (plug t fs) = ls ++ leavesOf fs t ++ rs := by
  induction fs generalizing t with
  | nil => exact ⟨[], [], by simp [plug, leaves]⟩
  | cons f fs ih =>
    obtain ⟨ls, rs, heq⟩ := ih (f.fill t)
    obtain ⟨ys, -, hys⟩ := leavesAll_element f.kind fs f.left.reverse t f.right []
    rw [List.reverse_reverse, List.append_nil] at hys
    refine ⟨ls ++ ys, leavesAll f.kind fs (t :: f.left) f.right ++ rs, ?_⟩
    rw [plug, heq, Frame.fill, leavesOf, hys]
    simp

end Zipper

structure Parens where
  above : List Frame
  lead : List Tree
  opening : Token
  gap : List Tree
  inner : Tree
  gap' : List Tree
  closing : Token
  trail : List Tree
  trivia : ∀ t ∈ lead ++ gap ++ gap' ++ trail, t.isTrivia = true
  isOpening : opening.kind = .lParen
  isNode : inner.isNode = true
  isClosing : closing.kind = .rParen

namespace Parens

open Zipper

variable (p : Parens)

def children : List Tree :=
  p.lead ++ .leaf p.opening :: (p.gap ++ p.inner :: (p.gap' ++ .leaf p.closing :: p.trail))

def zipper : Zipper :=
  ⟨.node .parenExpr p.children, p.above⟩

def openZipper : Zipper :=
  ⟨.leaf p.opening, ⟨.parenExpr, p.lead.reverse, p.gap ++ p.inner :: (p.gap' ++ .leaf p.closing :: p.trail)⟩ :: p.above⟩

def innerZipper : Zipper :=
  ⟨p.inner, ⟨.parenExpr, (p.lead ++ .leaf p.opening :: p.gap).reverse, p.gap' ++ .leaf p.closing :: p.trail⟩ :: p.above⟩

def closeZipper : Zipper :=
  ⟨.leaf p.closing, ⟨.parenExpr, (p.lead ++ .leaf p.opening :: (p.gap ++ p.inner :: p.gap')).reverse, p.trail⟩ ::
    p.above⟩

theorem up?_openZipper : p.openZipper.up? = some p.zipper := by
  simp [up?, openZipper, zipper, Frame.fill, children]

theorem up?_closeZipper : p.closeZipper.up? = some p.zipper := by
  simp [up?, closeZipper, zipper, Frame.fill, children]

theorem exists_parens {z : Zipper} {cs : List Tree} (hz : z.focus = .node .parenExpr cs)
    (h : Tree.Paired .parenExpr (Tree.eraseAll cs)) : ∃ p : Parens, p.zipper = z := by
  obtain ⟨l, x, r, hcs, hl, hx, hr⟩ := h rfl
  obtain ⟨lead, o, rest, rfl, hlead, -, ho, hrest⟩ := Tree.eraseAll_eq_cons hcs
  obtain ⟨gap, inner, rest, rfl, hgap, -, hinner, hrest⟩ := Tree.eraseAll_eq_cons hrest
  obtain ⟨gap', c, trail, rfl, hgap', -, hc, htrail⟩ := Tree.eraseAll_eq_cons hrest
  obtain rfl := Tree.eq_leaf_of_erase ho
  obtain rfl := Tree.eq_leaf_of_erase hc
  have htrivia : ∀ t ∈ lead ++ gap ++ gap' ++ trail, t.isTrivia = true := by
    simp only [List.mem_append]
    rintro t (((ht | ht) | ht) | ht)
    exacts [hlead t ht, hgap t ht, hgap' t ht, Tree.eraseAll_eq_nil htrail t ht]
  have hnode : inner.isNode = true := by
    cases inner with
    | token k t =>
      rw [← hinner] at hx
      exact hx
    | node k cs => rfl
  obtain ⟨focus, above⟩ := z
  obtain rfl : focus = _ := hz
  exact ⟨⟨above, lead, l, gap, inner, gap', r, trail, htrivia, hl, hnode, hr⟩, rfl⟩

theorem isTrivia_opening : p.opening.isTrivia = false := by
  rw [Token.isTrivia, p.isOpening]
  rfl

theorem isTrivia_closing : p.closing.isTrivia = false := by
  rw [Token.isTrivia, p.isClosing]
  rfl

theorem isTrivia_inner : p.inner.isTrivia = false := by
  have hnode := p.isNode
  cases hi : p.inner with
  | token k t =>
    rw [hi] at hnode
    cases hnode
  | node k cs => rfl

theorem eraseAll_children : Tree.eraseAll p.children = [.leaf p.opening, p.inner.erase, .leaf p.closing] := by
  have hgaps := p.trivia
  simp only [List.mem_append] at hgaps
  rw [children, Tree.eraseAll_append, Tree.eraseAll_of_trivia fun t ht => hgaps t (by simp [ht]),
    Tree.eraseAll_cons (t := .leaf p.opening) p.isTrivia_opening, Tree.eraseAll_append,
    Tree.eraseAll_of_trivia fun t ht => hgaps t (by simp [ht]),
    Tree.eraseAll_cons p.isTrivia_inner, Tree.eraseAll_append, Tree.eraseAll_of_trivia fun t ht =>
      hgaps t (by simp [ht]),
    Tree.eraseAll_cons (t := .leaf p.closing) p.isTrivia_closing, Tree.eraseAll_of_trivia fun t ht =>
      hgaps t (by simp [ht])]
  rfl

theorem exists_siblings : ∃ s₁ s₂ s₃ s₄ : List Zipper, p.zipper.children =
      s₁ ++ p.openZipper :: (s₂ ++ p.innerZipper :: (s₃ ++ p.closeZipper :: s₄)) ∧
    ∀ z ∈ s₁ ++ s₂ ++ s₃ ++ s₄, z.isTrivia = true := by
  obtain ⟨s₁, h₁, heq₁⟩ := siblings_element .parenExpr p.above p.lead (.leaf p.opening)
    (p.gap ++ p.inner :: (p.gap' ++ .leaf p.closing :: p.trail)) []
  obtain ⟨s₂, h₂, heq₂⟩ := siblings_element .parenExpr p.above p.gap p.inner (p.gap' ++ .leaf p.closing :: p.trail)
    (.leaf p.opening :: (p.lead.reverse ++ []))
  obtain ⟨s₃, h₃, heq₃⟩ := siblings_element .parenExpr p.above p.gap' (.leaf p.closing) p.trail
    (p.inner :: (p.gap.reverse ++ (.leaf p.opening :: (p.lead.reverse ++ []))))
  refine ⟨s₁, s₂, s₃, siblings .parenExpr p.above
    (.leaf p.closing :: (p.lead ++ Tree.leaf p.opening :: (p.gap ++ p.inner :: p.gap')).reverse) p.trail, ?_, ?_⟩
  · show siblings .parenExpr p.above [] p.children = _
    rw [children, heq₁, heq₂, heq₃]
    simp [openZipper, innerZipper, closeZipper]
  · intro z hz
    refine p.trivia z.focus ?_
    have hfocus := List.mem_map_of_mem (f := Zipper.focus) hz
    simpa only [List.map_append, map_focus_siblings, h₁, h₂, h₃] using hfocus

theorem filter_children {q : Zipper → Bool} (hq : ∀ z, z.isTrivia = true → q z = false) :
    p.zipper.children.filter q = [p.openZipper, p.innerZipper, p.closeZipper].filter q := by
  obtain ⟨s₁, s₂, s₃, s₄, hchildren, htrivia⟩ := p.exists_siblings
  have hnone : ∀ ss : List Zipper, (∀ z ∈ ss, z ∈ s₁ ++ s₂ ++ s₃ ++ s₄) → ss.filter q = [] := by
    intro ss hss
    rw [List.filter_eq_nil_iff]
    exact fun z hz => by simp [hq z (htrivia z (hss z hz))]
  have h₁ := hnone s₁ (fun z hz => by simp [hz])
  have h₂ := hnone s₂ (fun z hz => by simp [hz])
  have h₃ := hnone s₃ (fun z hz => by simp [hz])
  have h₄ := hnone s₄ (fun z hz => by simp [hz])
  rw [hchildren]
  simp only [List.filter_append, List.filter_cons, h₁, h₂, h₃, h₄, List.nil_append, List.filter_nil]

theorem not_of_trivia {k : Kind} (hk : k.isTrivia = false) (z : Zipper) (h : z.isTrivia = true) :
    (z.isToken && z.kind == k) = false := by
  rw [Bool.and_eq_false_iff, beq_eq_false_iff_ne]
  refine .inr fun hz => ?_
  obtain ⟨focus, above⟩ := z
  cases focus with
  | token k' t =>
    obtain rfl : k' = k := hz
    rw [show Kind.isTrivia k' = true from h] at hk
    cases hk
  | node k' cs => cases h

theorem kind_openZipper : p.openZipper.kind = .lParen := p.isOpening

theorem kind_closeZipper : p.closeZipper.kind = .rParen := p.isClosing

theorem isToken_innerZipper : p.innerZipper.isToken = false := by
  have hnode := p.isNode
  rw [Tree.isNode_eq, Bool.not_eq_true'] at hnode
  exact hnode

theorem openParen?_zipper : p.zipper.openParen? = some p.openZipper := by
  rw [openParen?, childToken?, ← List.head?_filter, p.filter_children (not_of_trivia rfl), List.filter_cons_of_pos]
  · rfl
  · rw [kind_openZipper]
    rfl

theorem closeParen?_zipper : p.zipper.closeParen? = some p.closeZipper := by
  have hopen : (p.openZipper.isToken && p.openZipper.kind == .rParen) = false := by
    rw [kind_openZipper]
    rfl
  have hinner : (p.innerZipper.isToken && p.innerZipper.kind == .rParen) = false := by
    rw [isToken_innerZipper]
    rfl
  have hclose : (p.closeZipper.isToken && p.closeZipper.kind == .rParen) = true := by
    rw [kind_closeZipper]
    rfl
  rw [closeParen?, childTokens, p.filter_children (not_of_trivia rfl)]
  simp [hopen, hinner, hclose]

theorem innerExpression?_zipper : p.zipper.innerExpression? = some p.innerZipper := by
  have htrivia (z : Zipper) (hz : z.isTrivia = true) : z.isNode = false := by
    rw [Zipper.isNode, Tree.isNode_eq, Tree.isToken_of_isTrivia hz]
    rfl
  have hinner : p.innerZipper.isNode = true := p.isNode
  rw [innerExpression?, childNodes, p.filter_children htrivia, List.filter_cons_of_neg Bool.false_ne_true,
    List.filter_cons_of_pos hinner]
  rfl

theorem leavesOf_zipper : ∃ g₀ g₁ g₂ g₃ : List Zipper, leavesOf p.above p.zipper.focus =
      g₀ ++ p.openZipper :: (g₁ ++ leavesOf p.innerZipper.above p.inner ++ g₂ ++ p.closeZipper :: g₃) ∧
    ∀ z ∈ g₀ ++ g₁ ++ g₂ ++ g₃, z.token.isTrivia = true := by
  obtain ⟨g₀, h₀, heq₀⟩ := leavesAll_element .parenExpr p.above p.lead (.leaf p.opening)
    (p.gap ++ p.inner :: (p.gap' ++ .leaf p.closing :: p.trail)) []
  obtain ⟨g₁, h₁, heq₁⟩ := leavesAll_element .parenExpr p.above p.gap p.inner (p.gap' ++ .leaf p.closing :: p.trail)
    (.leaf p.opening :: (p.lead.reverse ++ []))
  obtain ⟨g₂, h₂, heq₂⟩ := leavesAll_element .parenExpr p.above p.gap' (.leaf p.closing) p.trail
    (p.inner :: (p.gap.reverse ++ (.leaf p.opening :: (p.lead.reverse ++ []))))
  refine ⟨g₀, g₁, g₂, leavesAll .parenExpr p.above
    (.leaf p.closing :: (p.lead ++ Tree.leaf p.opening :: (p.gap ++ p.inner :: p.gap')).reverse) p.trail, ?_, ?_⟩
  · rw [zipper, leavesOf, children, heq₀, heq₁, heq₂]
    simp [openZipper, innerZipper, closeZipper, Tree.leaf, leavesOf]
  · intro z hz
    have htoken : z.token ∈ Tree.tokensAll (p.lead ++ p.gap ++ p.gap' ++ p.trail) := by
      have hmem := List.mem_map_of_mem (f := token) hz
      simp only [List.map_append] at hmem
      rw [h₀, h₁, h₂, ← map_token, map_cell_leavesAll, Tree.map_toToken_cellsAll] at hmem
      simpa only [Tree.tokensAll_append] using hmem
    exact Tree.isTrivia_tokensAll p.trivia _ htoken

theorem exists_leaves : ∃ ls g₁ g₂ rs, leaves p.zipper.root =
      ls ++ p.openZipper :: (g₁ ++ leavesOf p.innerZipper.above p.inner ++ g₂ ++ p.closeZipper :: rs) ∧
    ∀ z ∈ g₁ ++ g₂, z.token.isTrivia = true := by
  obtain ⟨ls, rs, hroot⟩ := leaves_plug p.zipper.focus p.above
  obtain ⟨g₀, g₁, g₂, g₃, hleaves, htrivia⟩ := p.leavesOf_zipper
  refine ⟨ls ++ g₀, g₁, g₂, g₃ ++ rs, ?_, fun z hz => htrivia z ?_⟩
  · rw [root, show p.zipper.above = p.above from rfl, hroot, hleaves]
    simp
  · obtain hz | hz := List.mem_append.mp hz
    · simp [hz]
    · simp [hz]

theorem exists_children (hfull : ∀ y ∈ Tree.tokensAll p.children, 0 < y.text.size) :
    ∃ c cs, p.children = c :: cs ∧ 0 < c.size ∧ 0 < Tree.sizeAll cs := by
  have hclose : 0 < p.closing.text.size := hfull _ (by simp [children, Tree.tokensAll, Tree.tokens, Tree.leaf])
  have hlast (ts : List Tree) : 0 < Tree.sizeAll (ts ++ .leaf p.closing :: p.trail) := by
    rw [Tree.sizeAll_append, Tree.sizeAll_cons]
    exact Nat.lt_of_lt_of_le hclose (by rw [Tree.leaf, Tree.size_token]; omega)
  cases hlead : p.lead with
  | nil =>
    refine ⟨.leaf p.opening, p.gap ++ p.inner :: (p.gap' ++ .leaf p.closing :: p.trail), by rw [children, hlead]; rfl,
      ?_, ?_⟩
    · exact hfull p.opening (by simp [children, Tree.tokensAll, Tree.tokens, Tree.leaf])
    · simpa using hlast (p.gap ++ p.inner :: p.gap')
  | cons c lead =>
    refine ⟨c, lead ++ .leaf p.opening :: (p.gap ++ p.inner :: (p.gap' ++ .leaf p.closing :: p.trail)),
      by rw [children, hlead]; rfl, ?_, ?_⟩
    · have htrivia : c.isTrivia = true := p.trivia c (by simp [hlead])
      cases c with
      | token k u => exact hfull ⟨k, u⟩ (by simp [children, hlead, Tree.tokensAll, Tree.tokens])
      | node k cs => cases htrivia
    · simpa using hlast (lead ++ .leaf p.opening :: (p.gap ++ p.inner :: p.gap'))

theorem nodeAt?_zipper (hfull : ∀ y ∈ Tree.tokensAll p.children, 0 < y.text.size) :
    nodeAt? p.zipper.root p.zipper.span .parenExpr = some p.zipper := by
  obtain ⟨c, cs, hchildren, hc, hcs⟩ := p.exists_children hfull
  have hsize : p.zipper.focus.size = c.size + Tree.sizeAll cs := by
    rw [zipper, Tree.size_node, hchildren, Tree.sizeAll_cons]
  have hcover : covering p.zipper.root p.zipper.span = p.zipper := by
    rw [covering_place (by rw [span, hsize]; simp only; omega) (contains_self _)]
    have hnone : coverAll p.zipper.span .parenExpr p.above [] p.zipper.start (c :: cs) = none := by
      have hskip := coverAll_skip (s := p.zipper.span) (by rw [span, hsize]; simp only; omega) .parenExpr p.above []
        p.zipper.start [] c cs (Nat.le_refl _) (by simp only [span, Tree.sizeAll_nil]; omega)
      rw [List.nil_append] at hskip
      rw [hskip, if_neg]
      rw [Span.contains_iff]
      simp only [span, Span.stop, hsize, Tree.sizeAll_nil]
      omega
    rw [show p.zipper.focus = .node .parenExpr p.children from rfl, coverOf, hchildren]
    rw [show p.zipper.above = p.above from rfl, hnone, Option.getD_none, zipper, hchildren]
  rw [nodeAt?, hcover]
  simp [ancestors, show p.zipper.isToken = false from rfl, show p.zipper.kind = .parenExpr from rfl]

def gone : List Zipper :=
  Parentheses.padding p.openZipper p.closeZipper ++ [p.openZipper, p.closeZipper]

theorem isTrivia_of_isPadding {z : Zipper} (h : Parentheses.isPadding z = true) : z.token.isTrivia = true := by
  rw [Parentheses.isPadding] at h
  rw [Token.isTrivia, token]
  split at h
  · rename_i hk
    rw [show z.kind = _ from hk]
    rfl
  · rename_i hk
    rw [show z.kind = _ from hk]
    rfl
  · cases h

theorem map_token_inner : (leavesOf p.innerZipper.above p.inner).map token = p.inner.tokens := by
  rw [← map_token, innerZipper, map_cell_leavesOf, Tree.map_toToken_cells]

theorem tokens_inner : p.inner.erase.tokens = p.inner.tokens.filter (!·.isTrivia) := by
  have hnode := p.isNode
  cases hi : p.inner with
  | token k t =>
    rw [hi] at hnode
    cases hnode
  | node k cs => exact Tree.tokensAll_eraseAll cs

theorem exists_significant (hfill : p.inner.erase.Filled) :
    ∃ (u : List Zipper) (y : Zipper) (v : List Zipper), leavesOf p.innerZipper.above p.inner = u ++ y :: v ∧
      y.token.isTrivia = false := by
  obtain ⟨w, hw⟩ := List.exists_mem_of_ne_nil _ hfill.tokens_ne_nil
  rw [tokens_inner, List.mem_filter, ← map_token_inner] at hw
  obtain ⟨y, hy, rfl⟩ := List.mem_map.mp hw.1
  obtain ⟨u, v, huv⟩ := List.append_of_mem hy
  exact ⟨u, y, v, huv, by simpa using hw.2⟩

theorem takeWhile_stop {α : Type} {q : α → Bool} {y : α} (hy : q y = false) (us vs : List α) :
    (us ++ y :: vs).takeWhile q = us.takeWhile q := by
  induction us with
  | nil => simp [hy]
  | cons x us ih =>
    rw [List.cons_append, List.takeWhile_cons, List.takeWhile_cons, ih]

theorem gone_leaves {k : Kind} {ds : List Tree} (hroot : p.zipper.root = .node k ds) (hfill : Tree.FilledAll ds)
    (hinner : p.inner.erase.Filled) :
    ∃ ls a core b rs, leaves (.node k ds) = ls ++ p.openZipper :: (a ++ core ++ b ++ p.closeZipper :: rs) ∧
      p.gone = a ++ b ++ [p.openZipper, p.closeZipper] ∧ (∀ z ∈ a ++ b, z.token.isTrivia = true) ∧
      Token.weight ((a ++ core ++ b).map token) = p.inner.erase.tokens.length := by
  obtain ⟨ls, g₁, g₂, rs, hleaves, htrivia⟩ := p.exists_leaves
  obtain ⟨u, y, v, huv, hy⟩ := p.exists_significant hinner
  rw [hroot] at hleaves
  have hpad : Parentheses.isPadding y = false := by
    rw [← Bool.not_eq_true]
    intro hpad
    rw [isTrivia_of_isPadding hpad] at hy
    cases hy
  have hmid : g₁ ++ leavesOf p.innerZipper.above p.inner ++ g₂ = (g₁ ++ u) ++ y :: (v ++ g₂) := by
    rw [huv]
    simp
  have hafter : p.openZipper.followingWhile Parentheses.isPadding = (g₁ ++ u).takeWhile Parentheses.isPadding := by
    rw [followingWhile_eq, following_leaf hfill hleaves, hmid, List.append_assoc, List.cons_append, takeWhile_stop hpad]
  have hbefore : p.closeZipper.precedingWhile Parentheses.isPadding =
      (v ++ g₂).reverse.takeWhile Parentheses.isPadding := by
    have hsplit : leaves (.node k ds) =
        (ls ++ p.openZipper :: ((g₁ ++ u) ++ y :: (v ++ g₂))) ++ p.closeZipper :: rs := by
      rw [hleaves, hmid]
      simp
    rw [precedingWhile_eq, preceding_leaf hfill hsplit]
    have hrev : (ls ++ p.openZipper :: ((g₁ ++ u) ++ y :: (v ++ g₂))).reverse =
        (v ++ g₂).reverse ++ y :: (ls ++ p.openZipper :: (g₁ ++ u)).reverse := by simp
    rw [hrev, takeWhile_stop hpad]
  -- Trivia that ends a comment line stays.
  obtain ⟨w, b, hwb, hb, hpadding⟩ : ∃ w b, v ++ g₂ = w ++ b ∧ (∀ z ∈ b, Parentheses.isPadding z = true) ∧
      Parentheses.padding p.openZipper p.closeZipper = (g₁ ++ u).takeWhile Parentheses.isPadding ++ b := by
    rw [Parentheses.padding, hafter, hbefore]
    split
    · exact ⟨v ++ g₂, [], by simp, nofun, by simp⟩
    · refine ⟨((v ++ g₂).reverse.dropWhile Parentheses.isPadding).reverse, _, ?_, fun z hz => ?_, rfl⟩
      · rw [← List.reverse_append, List.takeWhile_append_dropWhile, List.reverse_reverse]
      · exact List.mem_takeWhile_imp (List.mem_reverse.mp hz)
  have hcut : (g₁ ++ u).takeWhile Parentheses.isPadding ++ (g₁ ++ u).dropWhile Parentheses.isPadding = g₁ ++ u :=
    List.takeWhile_append_dropWhile
  have hall : g₁ ++ leavesOf p.innerZipper.above p.inner ++ g₂ = (g₁ ++ u).takeWhile Parentheses.isPadding ++
      ((g₁ ++ u).dropWhile Parentheses.isPadding ++ y :: w) ++ b := by
    rw [hmid, hwb, ← List.append_assoc, hcut]
    simp
  refine ⟨ls, (g₁ ++ u).takeWhile Parentheses.isPadding, (g₁ ++ u).dropWhile Parentheses.isPadding ++ y :: w, b, rs,
    by rw [hleaves, hall], by rw [gone, hpadding], ?_, ?_⟩
  · intro z hz
    obtain hz | hz := List.mem_append.mp hz
    · exact isTrivia_of_isPadding (List.mem_takeWhile_imp hz)
    · exact isTrivia_of_isPadding (hb z hz)
  · have hgaps : ∀ gs : List Zipper, (∀ z ∈ gs, z ∈ g₁ ++ g₂) → Token.weight (gs.map token) = 0 := by
      intro gs hgs
      rw [Token.weight, List.length_eq_zero_iff, List.filter_eq_nil_iff]
      intro x hx
      obtain ⟨z, hz, rfl⟩ := List.mem_map.mp hx
      simp [htrivia z (hgs z hz)]
    rw [← hall, List.map_append, List.map_append, Token.weight_append, Token.weight_append,
      hgaps g₁ (by simp +contextual),
      hgaps g₂ (by simp +contextual), map_token_inner, Nat.zero_add, Nat.add_zero, tokens_inner]
    rfl

theorem stop_le_size : p.zipper.span.stop ≤ p.zipper.root.size := by
  have hsize := congrArg Text.size (text_root p.zipper)
  simp only [Text.size_append, size_textBefore] at hsize
  simp only [span, Span.stop, Tree.size] at hsize ⊢
  omega

theorem fix_zipper (hfull : ∀ y ∈ Tree.tokensAll p.children, 0 < y.text.size) {f : Finding}
    (hspan : f.span = p.zipper.span)
    (htrivia : ∀ z ∈ Parentheses.padding p.openZipper p.closeZipper, z.token.isTrivia = true) :
    Parentheses.fix p.zipper.root f = .ok ⟨f, p.gone.map takingPart⟩ := by
  have hnode := p.nodeAt?_zipper hfull
  rw [Parentheses.fix, hspan, if_neg (Nat.not_lt.mpr p.stop_le_size), hnode]
  simp only [p.openParen?_zipper, p.closeParen?_zipper]
  have hremoving : ∀ z ∈ Parentheses.padding p.openZipper p.closeZipper, Part.removing z.span z.kind =
    z.takingPart := by
    intro z hz
    rw [takingPart, htrivia z hz]
    rfl
  have hopen : p.openZipper.takingPart = ⟨p.openZipper.span, .removeToken p.openZipper.kind true, nofun⟩ := by
    rw [takingPart, show p.openZipper.token.isTrivia = false from p.isTrivia_opening]
    rfl
  have hclose : p.closeZipper.takingPart = ⟨p.closeZipper.span, .removeToken p.closeZipper.kind true, nofun⟩ := by
    rw [takingPart, show p.closeZipper.token.isTrivia = false from p.isTrivia_closing]
    rfl
  rw [KeywordSpacing.foldl_removeToken, gone, List.map_append, List.map_congr_left hremoving, List.map_cons,
    List.map_cons, hopen, hclose]
  simp [Edit.removeDelimiter, Edit.add]

end Parens

section Faultless

variable {t : Text} (h : (parse t).faults = [])

include h

theorem paired_parse : (parse t).tree.erase.Each Tree.Paired := by
  rw [erase_parse]
  refine ⟨nofun, Outline.each_bareAll (fun k cs hformed => ?_) _ (Grammar.formed_outline (outline_of_faultless h))⟩
  exact hformed.1

theorem draft_parse : Draft .compilationUnit (Outline.bareAll (Grammar.outline (itemsOf t)).1) (parse t).tree
    (parse t).tree.tokens where
  filled := (KeywordSpacing.layout_parse h).filled
  holding := by
    have hpaired := paired_parse h
    rw [erase_parse] at hpaired
    exact Tree.EachAll.imp (fun _ _ hp => hp.holding) _ hpaired.2
  erase := erase_parse t
  tokens := rfl
  full y hy := by
    rw [← Tree.map_toToken_cells .compilationUnit] at hy
    obtain ⟨c, hc, rfl⟩ := List.mem_map.mp hy
    exact (KeywordSpacing.layout_parse h).full c hc
  plain := plain_parse h

end Faultless

end Lintel
