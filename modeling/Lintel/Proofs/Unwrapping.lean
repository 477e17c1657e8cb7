import Lintel.Proofs.ParenthesisRemoval
import Lintel.Proofs.SpareParentheses

namespace Lintel

namespace Mark

theorem sheds_append (n : Nat) (ms ns : List Mark) :
    sheds n (ms ++ ns) = sheds n ms ++ sheds (n + Token.weight (ms.map (·.token))) ns := by
  induction ms generalizing n with
  | nil => rfl
  | cons m ms ih =>
    rw [List.cons_append, sheds, sheds, ih, List.map_cons, Token.weight_cons m.token (ms.map _), Nat.add_assoc,
      List.append_assoc]

theorem sheds_trivia {ms : List Mark} (h : ∀ m ∈ ms, m.token.isTrivia = true) (n : Nat) : sheds n ms = [] := by
  induction ms generalizing n with
  | nil => rfl
  | cons m ms ih =>
    rw [sheds, ih (fun m' hm' => h m' (List.mem_cons_of_mem _ hm')), shed, h m List.mem_cons_self]
    simp

end Mark

theorem Token.weight_trivia {ts : List Token} (h : ∀ t ∈ ts, t.isTrivia = true) : weight ts = 0 := by
  rw [weight, List.length_eq_zero_iff, List.filter_eq_nil_iff]
  intro t ht
  simp [h t ht]

namespace Parentheses

open Zipper

mutual

def unwrap (chosen : Zipper → Bool) (above : List Frame) : Tree → Tree
  | .token k t => .token k t
  | .node k cs =>
    if chosen ⟨.node k cs, above⟩ then
      ((unwrapAll chosen k above [] cs).find? (·.isNode)).getD (.node k (unwrapAll chosen k above [] cs))
    else .node k (unwrapAll chosen k above [] cs)

def unwrapAll (chosen : Zipper → Bool) (kind : Kind) (above : List Frame) (left : List Tree) : List Tree → List Tree
  | [] => []
  | c :: cs =>
    if c.isTrivia then unwrapAll chosen kind above (c :: left) cs
    else unwrap chosen (⟨kind, left, cs⟩ :: above) c :: unwrapAll chosen kind above (c :: left) cs

end

section Chosen

variable {chosen : Zipper → Bool}

theorem unwrap_kept {above : List Frame} {k : Kind} {cs : List Tree} (h : chosen ⟨.node k cs, above⟩ = false) :
    unwrap chosen above (.node k cs) = .node k (unwrapAll chosen k above [] cs) := by
  rw [unwrap, h]
  rfl

theorem isNode_unwrap (chosen : Zipper → Bool) (above : List Frame) (t : Tree) :
    (unwrap chosen above t).isNode = t.isNode := by
  cases t with
  | token k u => rfl
  | node k cs =>
    rw [unwrap]
    split
    · cases hfind : (unwrapAll chosen k above [] cs).find? (·.isNode) with
      | none => rfl
      | some x => exact List.find?_some hfind
    · rfl

theorem unwrapAll_trivia {ts : List Tree} (h : ∀ t ∈ ts, t.isTrivia = true) (k : Kind) (above : List Frame)
    (left cs : List Tree) :
    unwrapAll chosen k above left (ts ++ cs) = unwrapAll chosen k above (ts.reverse ++ left) cs := by
  induction ts generalizing left with
  | nil => rfl
  | cons t ts ih =>
    rw [List.cons_append, unwrapAll, if_pos (h t List.mem_cons_self), ih (fun u hu => h u (List.mem_cons_of_mem _ hu))]
    simp

theorem unwrapAll_of_trivia {ts : List Tree} (h : ∀ t ∈ ts, t.isTrivia = true) (k : Kind) (above : List Frame)
    (left : List Tree) : unwrapAll chosen k above left ts = [] := by
  have hall : unwrapAll chosen k above left (ts ++ []) = _ := unwrapAll_trivia h k above left []
  rwa [List.append_nil] at hall

theorem unwrapAll_cons {c : Tree} (h : c.isTrivia = false) (k : Kind) (above : List Frame) (left cs : List Tree) :
    unwrapAll chosen k above left (c :: cs) =
      unwrap chosen (⟨k, left, cs⟩ :: above) c :: unwrapAll chosen k above (c :: left) cs := by
  rw [unwrapAll, h]
  rfl

theorem unwrapAll_children (p : Parens) : unwrapAll chosen .parenExpr p.above [] p.children =
    [.leaf p.opening, unwrap chosen p.innerZipper.above p.inner, .leaf p.closing] := by
  have htrivia := p.trivia
  simp only [List.mem_append] at htrivia
  rw [Parens.children, unwrapAll_trivia (fun t ht => htrivia t (by simp [ht])),
    unwrapAll_cons (c := .leaf p.opening) p.isTrivia_opening,
    unwrapAll_trivia (fun t ht => htrivia t (by simp [ht])), unwrapAll_cons p.isTrivia_inner,
    unwrapAll_trivia (fun t ht => htrivia t (by simp [ht])), unwrapAll_cons (c := .leaf p.closing) p.isTrivia_closing,
    unwrapAll_of_trivia (fun t ht => htrivia t (by simp [ht]))]
  simp [Parens.innerZipper, Tree.leaf, unwrap]

omit chosen in
theorem find?_parens (l r : Token) {x : Tree} (hx : x.isNode = true) (d : Tree) :
    ([Tree.leaf l, x, .leaf r].find? (·.isNode)).getD d = x := by
  rw [List.find?_cons_of_neg (by simp [Tree.leaf, Tree.isNode]), List.find?_cons_of_pos (by exact hx)]
  rfl

theorem unwrap_chosen {p : Parens} (h : chosen p.zipper = true) :
    unwrap chosen p.above p.zipper.focus = unwrap chosen p.innerZipper.above p.inner := by
  have hnode : (unwrap chosen p.innerZipper.above p.inner).isNode = true := by rw [isNode_unwrap, p.isNode]
  rw [Parens.zipper] at h ⊢
  rw [unwrap, unwrapAll_children, if_pos h, find?_parens _ _ hnode]

theorem unwrap_eq_erase (hnone : ∀ z, chosen z = false) (above : List Frame) (t : Tree) :
    unwrap chosen above t = t.erase := by
  refine Zipper.descend (P := fun above t => unwrap chosen above t = t.erase) (fun _ _ _ => rfl) ?_ above t
  intro above k cs ih
  have hall (l rest : List Tree) (hsplit : cs = l ++ rest) : unwrapAll chosen k above l.reverse rest =
    Tree.eraseAll rest := by
    induction rest generalizing l with
    | nil => rfl
    | cons c rest ihr =>
      have htail := ihr (l ++ [c]) (by simpa using hsplit)
      rw [List.reverse_append] at htail
      rw [unwrapAll, Tree.eraseAll, ih l c rest hsplit]
      exact congrArg (fun ts => if c.isTrivia then ts else c.erase :: ts) htail
  rw [unwrap_kept (hnone _), Tree.erase]
  exact congrArg (Tree.node k) (hall [] cs rfl)

section Leaves

variable (hchosen : ∀ z, chosen z = true → z.kind = .parenExpr) {mark : Zipper → Mark}
    (htoken : ∀ z, (mark z).token = z.token)

def Marks (chosen : Zipper → Bool) (mark : Zipper → Mark) (zs : List Zipper) : Prop :=
  ∀ z ∈ zs, z.token.isTrivia = false → (mark z).gone.isSome = z.up?.any chosen

include htoken

theorem map_token_mark (zs : List Zipper) : (zs.map mark).map (·.token) = zs.map token := by
  rw [List.map_map]
  exact List.map_congr_left fun z _ => htoken z

theorem weight_leavesOf (f : Frame) (fs : List Frame) {c : Tree} (hc : c.isTrivia = false) :
    Token.weight (((leavesOf (f :: fs) c).map mark).map (·.token)) = c.erase.tokens.length := by
  have htokens := Tree.tokensAll_eraseAll [c]
  rw [Tree.eraseAll_cons hc] at htokens
  simp only [Tree.eraseAll, Tree.tokensAll, List.append_nil] at htokens
  rw [map_token_mark htoken, htokens, Token.weight, ← map_token, map_cell_leavesOf, Tree.map_toToken_cells]

theorem plug_unwrapAll {above fs : List Frame} {k K : Kind} {cs : List Tree}
    (ih : ∀ (l : List Tree) (c : Tree) (r : List Tree), cs = l ++ c :: r → c.isNode = true →
      Marks chosen mark (leavesOf (⟨k, l.reverse, r⟩ :: above) c) →
      ∀ (f : Frame) (fs : List Frame) (K : Kind) (bs : List Tree), plug c.erase (f :: fs) = .node K bs →
        plug (unwrap chosen (⟨k, l.reverse, r⟩ :: above) c) (f :: fs) = .node K ((Mark.sheds (tokensBefore (f :: fs))
          ((leavesOf (⟨k, l.reverse, r⟩ :: above) c).map mark)).foldr Tree.shedAll bs))
    (hkept : chosen ⟨.node k cs, above⟩ = false) (l rest : List Tree) (hsplit : cs = l ++ rest)
    (hmarks : Marks chosen mark (leavesAll k above l.reverse rest)) (right : List Tree) {bs : List Tree}
    (hplug : plug (.node k (Tree.eraseAll l ++ Tree.eraseAll rest ++ right)) fs = .node K bs) :
    plug (.node k (Tree.eraseAll l ++ unwrapAll chosen k above l.reverse rest ++ right)) fs = .node K
      ((Mark.sheds (tokensBefore fs + (Tree.tokensAll (Tree.eraseAll l)).length)
        ((leavesAll k above l.reverse rest).map mark)).foldr Tree.shedAll bs) := by
  induction rest generalizing l with
  | nil => exact hplug
  | cons c rest ihr =>
    have hfill : (⟨k, l.reverse, rest⟩ : Frame).fill c = .node k cs := by rw [Frame.fill, List.reverse_reverse, hsplit]
    rw [leavesAll] at hmarks
    have hhead : Marks chosen mark (leavesOf (⟨k, l.reverse, rest⟩ :: above) c) :=
      fun z hz => hmarks z (List.mem_append_left _ hz)
    have htail : Marks chosen mark (leavesAll k above (l ++ [c]).reverse rest) := by
      rw [List.reverse_append]
      exact fun z hz => hmarks z (List.mem_append_right _ hz)
    have hrest := ihr (l ++ [c]) (by simpa using hsplit) htail
    rw [List.reverse_append, Tree.eraseAll_append, show [c].reverse ++ l.reverse = c :: l.reverse from rfl] at hrest
    rw [leavesAll, List.map_append, Mark.sheds_append, List.foldr_append]
    cases hc : c.isTrivia with
    | true =>
      obtain ⟨k', u, rfl⟩ : ∃ k' u, c = .token k' u := by
        cases c with
        | token k' u => exact ⟨k', u, rfl⟩
        | node k' ds => cases hc
      have htrivia : (mark ⟨.token k' u, ⟨k, l.reverse, rest⟩ :: above⟩).token.isTrivia = true := by
        rw [htoken]
        exact hc
      have hsheds : Mark.sheds (tokensBefore fs + (Tree.tokensAll (Tree.eraseAll l)).length)
          [mark ⟨.token k' u, ⟨k, l.reverse, rest⟩ :: above⟩] = [] :=
        Mark.sheds_trivia (by simpa using htrivia) _
      have hweight : Token.weight [(mark ⟨.token k' u, ⟨k, l.reverse, rest⟩ :: above⟩).token] = 0 :=
        Token.weight_trivia (by simpa using htrivia)
      have hnil : Tree.eraseAll [Tree.token k' u] = [] := by simp [Tree.eraseAll, hc]
      rw [hnil, List.append_nil] at hrest
      rw [Tree.eraseAll, if_pos hc] at hplug
      rw [unwrapAll, if_pos hc, leavesOf, List.map_singleton, List.map_singleton, hsheds, hweight]
      exact hrest hplug
    | false =>
      rw [Tree.eraseAll_cons hc] at hplug
      rw [unwrapAll_cons hc, weight_leavesOf htoken _ _ hc]
      have hone : Tree.eraseAll [c] = [c.erase] := by rw [Tree.eraseAll_cons hc]; rfl
      have hcount : (Tree.tokensAll (Tree.eraseAll l ++ [c.erase])).length =
          (Tree.tokensAll (Tree.eraseAll l)).length + c.erase.tokens.length := by
        simp [Tree.tokensAll]
      rw [hone, hcount, ← Nat.add_assoc] at hrest
      have hrest := hrest (by simpa using hplug)
      cases c with
      | token k' u =>
        have hstays : (mark ⟨.token k' u, ⟨k, l.reverse, rest⟩ :: above⟩).gone.isSome = false := by
          rw [hhead _ (List.mem_singleton.mpr rfl) hc, up?]
          show chosen ⟨_, above⟩ = false
          rw [hfill, hkept]
        have hsheds : Mark.sheds (tokensBefore fs + (Tree.tokensAll (Tree.eraseAll l)).length)
            [mark ⟨.token k' u, ⟨k, l.reverse, rest⟩ :: above⟩] = [] := by
          rw [Mark.sheds, Mark.shed, hstays]
          rfl
        rw [leavesOf, List.map_singleton, hsheds]
        simpa [unwrap, Tree.erase] using hrest
      | node k' ds =>
        have hchild := ih l (.node k' ds) rest hsplit rfl hhead
          ⟨k, (Tree.eraseAll l).reverse, unwrapAll chosen k above (.node k' ds :: l.reverse) rest ++ right⟩ fs K _
          (by simpa [plug, Frame.fill] using hrest)
        have hbefore : tokensBefore (⟨k, (Tree.eraseAll l).reverse,
            unwrapAll chosen k above (.node k' ds :: l.reverse) rest ++ right⟩ :: fs) =
              tokensBefore fs + (Tree.tokensAll (Tree.eraseAll l)).length := by
          simp only [tokensBefore, List.foldr_cons, length_tokensAll_reverse]
          omega
        rw [hbefore] at hchild
        simpa [plug, Frame.fill] using hchild

theorem plug_chosen {fs : List Frame} {f : Frame} {K : Kind} {bs : List Tree} {p : Parens} (hp : chosen p.zipper = true)
    (hmarks : Marks chosen mark (leavesOf p.above p.zipper.focus))
    (ih : Marks chosen mark (leavesOf p.innerZipper.above p.inner) → ∀ (f : Frame) (fs : List Frame) (K : Kind)
      (bs : List Tree),
      plug p.inner.erase (f :: fs) = .node K bs → plug (unwrap chosen p.innerZipper.above p.inner) (f :: fs) =
        .node K ((Mark.sheds (tokensBefore (f :: fs)) ((leavesOf p.innerZipper.above p.inner).map mark)).foldr
          Tree.shedAll bs))
    (hplug : plug p.zipper.focus.erase (f :: fs) = .node K bs) :
    plug (unwrap chosen p.above p.zipper.focus) (f :: fs) = .node K
      ((Mark.sheds (tokensBefore (f :: fs)) ((leavesOf p.above p.zipper.focus).map mark)).foldr Tree.shedAll bs) := by
  obtain ⟨g₀, g₁, g₂, g₃, hleaves, htrivia⟩ := p.leavesOf_zipper
  rw [hleaves] at hmarks
  -- The trivia around the parentheses sheds nothing and does not count.
  have hnone (gs : List Zipper) (hgs : ∀ z ∈ gs, z ∈ g₀ ++ g₁ ++ g₂ ++ g₃) :
      ∀ m ∈ gs.map mark, m.token.isTrivia = true := by
    intro m hm
    obtain ⟨z, hz, rfl⟩ := List.mem_map.mp hm
    rw [htoken]
    exact htrivia z (hgs z hz)
  have hzero (gs : List Zipper) (hgs : ∀ z ∈ gs, z ∈ g₀ ++ g₁ ++ g₂ ++ g₃) :
      Token.weight ((gs.map mark).map (·.token)) = 0 := by
    refine Token.weight_trivia fun t ht => ?_
    obtain ⟨m, hm, rfl⟩ := List.mem_map.mp ht
    exact hnone gs hgs m hm
  have hsheds : Mark.sheds (tokensBefore (f :: fs)) ((leavesOf p.above p.zipper.focus).map mark) =
      tokensBefore (f :: fs) ::
        (Mark.sheds (tokensBefore (f :: fs) + 1) ((leavesOf p.innerZipper.above p.inner).map mark) ++
        [tokensBefore (f :: fs) + (1 + p.inner.erase.tokens.length)]) := by
    have hopening : (mark p.openZipper).gone.isSome = true := by
      rw [hmarks p.openZipper (by simp) p.isTrivia_opening, p.up?_openZipper]
      exact hp
    have hclosing : (mark p.closeZipper).gone.isSome = true := by
      rw [hmarks p.closeZipper (by simp) p.isTrivia_closing, p.up?_closeZipper]
      exact hp
    have hone : Token.weight [p.openZipper.token] = 1 := by
      simp [Token.weight, show p.openZipper.token.isTrivia = false from p.isTrivia_opening]
    have hweight : Token.weight (((leavesOf p.innerZipper.above p.inner).map mark).map (·.token)) =
      p.inner.erase.tokens.length := weight_leavesOf htoken _ _ p.isTrivia_inner
    have hshed {z : Zipper} (hgone : (mark z).gone.isSome = true) (hsig : z.token.isTrivia = false) (n : Nat) :
        (mark z).shed n = [n] := by
      rw [Mark.shed, hgone, htoken, hsig]
      rfl
    have hcount : tokensBefore (f :: fs) + 1 + (0 + p.inner.erase.tokens.length + 0) =
        tokensBefore (f :: fs) + (1 + p.inner.erase.tokens.length) := by omega
    have h₀ : ∀ z ∈ g₀, z ∈ g₀ ++ g₁ ++ g₂ ++ g₃ := fun z hz => by simp [hz]
    have h₁ : ∀ z ∈ g₁, z ∈ g₀ ++ g₁ ++ g₂ ++ g₃ := fun z hz => by simp [hz]
    have h₂ : ∀ z ∈ g₂, z ∈ g₀ ++ g₁ ++ g₂ ++ g₃ := fun z hz => by simp [hz]
    have h₃ : ∀ z ∈ g₃, z ∈ g₀ ++ g₁ ++ g₂ ++ g₃ := fun z hz => by simp [hz]
    rw [hleaves, List.map_append, Mark.sheds_append, Mark.sheds_trivia (hnone g₀ h₀), hzero g₀ h₀,
      List.map_cons, Mark.sheds, hshed hopening p.isTrivia_opening, htoken, Nat.add_zero, hone, List.map_append,
      List.map_append,
      List.map_append, Mark.sheds_append, Mark.sheds_append, Mark.sheds_append, Mark.sheds_trivia (hnone g₁ h₁),
      Mark.sheds_trivia (hnone g₂ h₂), List.map_append, List.map_append, Token.weight_append, Token.weight_append,
      hzero g₁ h₁, hzero g₂ h₂, hweight, List.map_cons, Mark.sheds, hshed hclosing p.isTrivia_closing,
      Mark.sheds_trivia (hnone g₃ h₃), hcount]
    simp
  have hclose : (Tree.node .parenExpr [.leaf p.opening, p.inner.erase, .leaf p.closing]).shed
    (1 + p.inner.erase.tokens.length) =
      [.node .parenExpr [.leaf p.opening, p.inner.erase]] := by
    have hshed := Tree.shed_token .parenExpr [.leaf p.opening, p.inner.erase] [] p.closing
    have hcount : (Tree.tokensAll [.leaf p.opening, p.inner.erase]).length = 1 + p.inner.erase.tokens.length := by
      simp [Tree.tokensAll, Tree.leaf, Tree.tokens, Nat.add_comm]
    rw [hcount] at hshed
    exact hshed
  have hopen : (Tree.node .parenExpr [.leaf p.opening, unwrap chosen p.innerZipper.above p.inner]).shed 0 =
      [unwrap chosen p.innerZipper.above p.inner] := by
    have hshed := Tree.shed_token .parenExpr [] [unwrap chosen p.innerZipper.above p.inner] p.opening
    rw [if_pos (by simp [isNode_unwrap, p.isNode])] at hshed
    exact hshed
  rw [Parens.zipper, Tree.erase, p.eraseAll_children] at hplug
  have hfirst := shedAll_plug rfl (n := 1 + p.inner.erase.tokens.length)
    (by simp [Tree.tokens, Tree.tokensAll, Tree.leaf, Nat.add_comm]) f fs hplug
  rw [hclose, Frame.fillMany_singleton] at hfirst
  have hinner := ih (fun z hz => hmarks z (by simp [hz])) ⟨.parenExpr, [.leaf p.opening], []⟩ (f :: fs) K _ hfirst
  have hbefore : tokensBefore (⟨.parenExpr, [.leaf p.opening], []⟩ :: f :: fs) =
    tokensBefore (f :: fs) + 1 := Nat.add_comm _ _
  have hlast := shedAll_plug (t := .node .parenExpr [.leaf p.opening, unwrap chosen p.innerZipper.above p.inner]) rfl
    (n := 0) (by simp [Tree.tokens, Tree.tokensAll, Tree.leaf]) f fs hinner
  rw [hopen, Frame.fillMany_singleton, hbefore, Nat.add_zero] at hlast
  rw [unwrap_chosen hp, hsheds, List.foldr_cons, List.foldr_append]
  exact hlast

omit htoken in
theorem paired_child {k : Kind} {cs l r : List Tree} {c : Tree} (h : (Tree.node k cs).erase.Each Tree.Paired)
    (hsplit : cs = l ++ c :: r) (hnode : c.isNode = true) : c.erase.Each Tree.Paired := by
  have hc : c.isTrivia = false := by
    cases c with
    | token k u => cases hnode
    | node k ds => rfl
  rw [hsplit, Tree.erase, Tree.eraseAll_append, Tree.eraseAll_cons hc] at h
  exact (Tree.eachAll_append.mp h.2).2.1

include hchosen in
theorem plug_unwrap (above : List Frame) (t : Tree) : t.isNode = true → t.erase.Each Tree.Paired →
    Marks chosen mark (leavesOf above t) → ∀ (f : Frame) (fs : List Frame) (K : Kind) (bs : List Tree),
      plug t.erase (f :: fs) = .node K bs → plug (unwrap chosen above t) (f :: fs) =
        .node K ((Mark.sheds (tokensBefore (f :: fs)) ((leavesOf above t).map mark)).foldr Tree.shedAll bs) := by
  refine Zipper.descend (P := fun above t => t.isNode = true → t.erase.Each Tree.Paired →
    Marks chosen mark (leavesOf above t) → ∀ (f : Frame) (fs : List Frame) (K : Kind) (bs : List Tree),
      plug t.erase (f :: fs) = .node K bs → plug (unwrap chosen above t) (f :: fs) =
        .node K ((Mark.sheds (tokensBefore (f :: fs)) ((leavesOf above t).map mark)).foldr Tree.shedAll bs))
    (fun _ _ _ hnode => by cases hnode) ?_ above t
  intro above k cs ih _ hpaired hmarks f fs K bs hplug
  cases hs : chosen ⟨.node k cs, above⟩ with
  | false =>
    have hchildren := plug_unwrapAll htoken
      (fun l c r hsplit hnode hmarks => ih l c r hsplit hnode (paired_child hpaired hsplit hnode) hmarks) hs
      [] cs rfl hmarks []
      (by simpa [Tree.erase, Tree.eraseAll] using hplug)
    rw [List.append_nil] at hchildren
    rw [unwrap_kept hs, leavesOf]
    exact hchildren
  | true =>
    obtain rfl : k = .parenExpr := hchosen _ hs
    obtain ⟨p, hp⟩ := Parens.exists_parens (z := ⟨.node .parenExpr cs, above⟩) rfl hpaired.1
    obtain ⟨rfl, rfl⟩ : cs = p.children ∧ above = p.above := by
      simp only [Parens.zipper, Zipper.mk.injEq, Tree.node.injEq, true_and] at hp
      exact ⟨hp.1.symm, hp.2.symm⟩
    have hsplit : p.children = (p.lead ++ .leaf p.opening :: p.gap) ++ p.inner ::
      (p.gap' ++ .leaf p.closing :: p.trail) := by
      simp [Parens.children]
    exact plug_chosen htoken hs hmarks (ih _ _ _ hsplit p.isNode (paired_child hpaired hsplit p.isNode)) hplug

include hchosen in
theorem foldr_sheds {k : Kind} {cs : List Tree} (hk : chosen ⟨.node k cs, []⟩ = false)
    (hpaired : (Tree.node k cs).erase.Each Tree.Paired) (hmarks : Marks chosen mark (leaves (.node k cs))) :
    (Mark.sheds 0 ((leaves (.node k cs)).map mark)).foldr Tree.shedAll (Tree.eraseAll cs) =
      unwrapAll chosen k [] [] cs := by
  have hwhole : plug (.node k (Tree.eraseAll [] ++ Tree.eraseAll cs ++ [])) [] = .node k (Tree.eraseAll cs) := by
    simp [plug, Tree.eraseAll]
  have hplug := plug_unwrapAll htoken (fun l c r (hsplit : cs = l ++ c :: r) hnode hmarks =>
    plug_unwrap hchosen htoken _ c hnode (paired_child hpaired hsplit hnode) hmarks) hk [] cs rfl hmarks [] hwhole
  simpa [plug, tokensBefore, Tree.tokensAll, Tree.eraseAll, leaves, leavesOf] using hplug.symm

end Leaves

end Chosen

end Parentheses

end Lintel
