import Lintel.Proofs.Unwrapping

namespace Lintel

namespace Zipper

def erase (z : Zipper) : Zipper :=
  ⟨z.focus.erase, z.above.map Frame.erase⟩

mutual

theorem leavesOf_erase (above : List Frame) : (t : Tree) → t.isTrivia = false →
    leavesOf (above.map Frame.erase) t.erase = ((leavesOf above t).filter (!·.token.isTrivia)).map erase
  | .token k u, h => by
    have hsig : (token ⟨.token k u, above⟩).isTrivia = false := h
    rw [leavesOf, List.filter_cons_of_pos (by rw [hsig]; rfl)]
    rfl
  | .node k cs, _ => leavesAll_erase k above [] cs

theorem leavesAll_erase (k : Kind) (above : List Frame) (left : List Tree) : (cs : List Tree) →
    leavesAll k (above.map Frame.erase) (Tree.eraseAll left.reverse).reverse (Tree.eraseAll cs) =
      ((leavesAll k above left cs).filter (!·.token.isTrivia)).map erase
  | [] => rfl
  | c :: cs => by
    have htail := leavesAll_erase k above (c :: left) cs
    rw [List.reverse_cons, Tree.eraseAll_append] at htail
    rw [leavesAll, List.filter_append, List.map_append, ← htail]
    cases hc : c.isTrivia with
    | true =>
      cases c with
      | token k' u =>
        have htriv : (token ⟨.token k' u, ⟨k, left, cs⟩ :: above⟩).isTrivia = true := hc
        rw [leavesOf, List.filter_cons_of_neg (by rw [htriv]; exact Bool.false_ne_true), Tree.eraseAll, if_pos hc,
          Tree.eraseAll, if_pos hc]
        simp [Tree.eraseAll]
      | node k' ds => cases hc
    | false =>
      have hhead := leavesOf_erase (⟨k, left, cs⟩ :: above) c hc
      rw [Tree.eraseAll_cons hc, leavesAll, ← hhead, Tree.eraseAll_cons hc, Tree.eraseAll, List.reverse_append]
      rfl

end

end Zipper

namespace Parentheses

open Zipper

def isSpareAt (z : Zipper) : Bool :=
  isSpare z.erase.above z.erase.focus

theorem kind_of_isSpareAt {z : Zipper} (h : isSpareAt z = true) : z.kind = .parenExpr := by
  obtain ⟨focus, above⟩ := z
  cases focus with
  | token k u => cases h
  | node k cs => exact (exists_of_isSpare h).1

theorem goes_eq_any {z : Zipper} (hz : z.focus.isTrivia = false) : goes z.erase = z.up?.any isSpareAt := by
  obtain ⟨focus, above⟩ := z
  cases above with
  | nil => rfl
  | cons f fs =>
    show isSpare (fs.map Frame.erase) (f.erase.fill focus.erase) = isSpare (fs.map Frame.erase) (f.fill focus).erase
    rw [Frame.erase_fill hz]

theorem unwrap_isSpareAt (above : List Frame) (t : Tree) : t.isTrivia = false → t.erase.Each Tree.Paired →
    unwrap isSpareAt above t = prune (above.map Frame.erase) t.erase := by
  refine Zipper.descend (P := fun above t => t.isTrivia = false → t.erase.Each Tree.Paired →
    unwrap isSpareAt above t = prune (above.map Frame.erase) t.erase) (fun _ _ _ _ _ => rfl) ?_ above t
  intro above k cs ih _ hpaired
  have hall (l rest : List Tree) (hsplit : cs = l ++ rest) : unwrapAll isSpareAt k above l.reverse rest =
      pruneAll k (above.map Frame.erase) (Tree.eraseAll l).reverse (Tree.eraseAll rest) := by
    induction rest generalizing l with
    | nil => rfl
    | cons c rest ihr =>
      have htail := ihr (l ++ [c]) (by simpa using hsplit)
      rw [List.reverse_append, Tree.eraseAll_append, show [c].reverse ++ l.reverse = c :: l.reverse from rfl] at htail
      cases hc : c.isTrivia with
      | true => simpa [unwrapAll, Tree.eraseAll, hc] using htail
      | false =>
        have hpaired' : c.erase.Each Tree.Paired := by
          rw [hsplit, Tree.erase, Tree.eraseAll_append, Tree.eraseAll_cons hc] at hpaired
          exact (Tree.eachAll_append.mp hpaired.2).2.1
        have hhead := ih l c rest hsplit hc hpaired'
        have hone : Tree.eraseAll [c] = [c.erase] := by rw [Tree.eraseAll_cons hc]; rfl
        rw [hone, List.reverse_append] at htail
        rw [unwrapAll_cons hc, Tree.eraseAll_cons hc, pruneAll, hhead, htail]
        simp [Frame.erase]
  have hchildren : unwrapAll isSpareAt k above [] cs = pruneAll k (above.map Frame.erase) [] (Tree.eraseAll cs) :=
    hall [] cs rfl
  cases hs : isSpareAt ⟨.node k cs, above⟩ with
  | false =>
    have hspare : isSpare (above.map Frame.erase) (.node k (Tree.eraseAll cs)) = false := hs
    rw [unwrap_kept hs, Tree.erase, prune_kept hspare, hchildren]
  | true =>
    have hspare : isSpare (above.map Frame.erase) (.node k (Tree.eraseAll cs)) = true := hs
    obtain ⟨l, x, r, hcs, -, hx, -⟩ := hpaired.1 (exists_of_isSpare hspare).1
    have hnode : (prune (⟨k, [.leaf l], [.leaf r]⟩ :: above.map Frame.erase) x).isNode =
      true := by rw [isNode_prune, hx]
    rw [unwrap, if_pos hs, Tree.erase, prune, if_pos hspare, hchildren, hcs]
    exact find?_parens l r hnode _

section Rule

theorem all_eraseAll (ts : List Tree) : (Tree.eraseAll ts).all (!·.isNode) = ts.all (!·.isNode) := by
  induction ts with
  | nil => rfl
  | cons t ts ih =>
    cases ht : t.isTrivia with
    | true =>
      rw [Tree.eraseAll, if_pos ht, ih, List.all_cons, Tree.isNode_eq, Tree.isToken_of_isTrivia ht]
      rfl
    | false =>
      rw [Tree.eraseAll_cons ht, List.all_cons, List.all_cons, ih]
      cases t <;> rfl

theorem any_parentsOf (p : Kind → Bool) (t : Tree) (fs : List Frame) :
    (parentsOf t fs).any (fun z => p z.kind) = fs.any (fun f => p f.kind) := by
  induction fs generalizing t with
  | nil => rfl
  | cons f fs ih =>
    rw [parentsOf, List.any_cons, List.any_cons, ih]
    rfl

theorem isUnneededGroup_eq {t : Tree} (ht : t.kind = .parenExpr) (fs : List Frame) :
    isUnneededGroup ⟨t, fs⟩ = isLoose fs := by
  induction fs generalizing t with
  | nil =>
    have houter : outermost ⟨t, []⟩ = ⟨t, []⟩ := by
      simp [outermost, ancestors, parents, parentsOf, kind, ht]
    rw [isUnneededGroup, houter]
    rfl
  | cons f fs ih =>
    by_cases hf : f.kind = .parenExpr
    · have hup : (f.fill t).kind = .parenExpr := hf
      have houter : outermost ⟨t, f :: fs⟩ = outermost ⟨f.fill t, fs⟩ := by
        simp [outermost, ancestors, parents, parentsOf, kind, ht, hup, List.getLast?_cons]
      rw [isLoose, hf, ← ih hup, isUnneededGroup, houter]
      rfl
    · have hup : ((f.fill t).kind == .parenExpr) = false := beq_eq_false_iff_ne.mpr hf
      have houter : outermost ⟨t, f :: fs⟩ = ⟨t, f :: fs⟩ := by
        simp [outermost, ancestors, parents, parentsOf, kind, ht, hup]
      rw [isUnneededGroup, houter, isLoose, beq_eq_false_iff_ne.mpr hf]
      rfl

theorem isStandaloneReceiver_eq {inner : Zipper} (hplain : inner.focus.Each Tree.Plain) :
    isStandaloneReceiver inner = standsAlone inner.focus := by
  obtain ⟨focus, above⟩ := inner
  have hfirst (hk : focus.kind = .literalExpr) {p : Zipper → Bool} {q : Tree → Bool} (hpq : ∀ z, p z = q z.focus)
      (hno : ∀ u, q (.token .literalExpr u) = false) : (firstTokenOf above focus).any p =
        focus.children.head?.any q := by
    cases focus with
    | token k u =>
      obtain rfl : k = .literalExpr := hk
      exact (hpq ⟨.token .literalExpr u, above⟩).trans (hno u)
    | node k cs =>
      cases cs with
      | nil => rfl
      | cons c cs =>
        cases c with
        | token k' u => exact hpq ⟨.token k' u, ⟨k, [], cs⟩ :: above⟩
        | node k' ds => cases (hplain.1 hk _ List.mem_cons_self).1
  rw [isStandaloneReceiver, standsAlone, kind, firstToken?]
  dsimp only
  split
  · rename_i hk
    rw [hk]
    exact congrArg (!·) (hfirst hk (fun _ => rfl) (fun _ => rfl))
  · rename_i hk
    rw [hk]
    rfl
  · rename_i hk
    rw [hk]
    rfl
  · rename_i hk
    rw [hk]
    rfl
  · rename_i hlit _ _ _
    have hne : (focus.kind == .literalExpr) = false := beq_eq_false_iff_ne.mpr hlit
    rw [hne]
    split <;> simp_all

theorem isUnnecessary_eq {t : Tree} (ht : t.kind = .parenExpr) (fs : List Frame) {inner : Zipper}
    (hplain : inner.focus.Each Tree.Plain) : isUnnecessary ⟨t, fs⟩ inner = isNeedless fs inner.focus := by
  cases fs with
  | nil => rfl
  | cons f fs =>
    have hinit : (f.kind == .parenExpr && (ancestors ⟨t, f :: fs⟩).any (·.kind == .constructorInitializer)) =
        (f.kind == .parenExpr && initializes fs) := by
      cases hf : f.kind == .parenExpr with
      | false => rfl
      | true =>
        have hz : kind ⟨t, f :: fs⟩ = .parenExpr := ht
        rw [ancestors, List.any_cons, hz, parents, any_parentsOf (· == .constructorInitializer), List.any_cons,
          eq_of_beq hf]
        rfl
    rw [isUnnecessary, isNeedless, ← hinit, ← isUnneededGroup_eq ht, ← isStandaloneReceiver_eq hplain]
    rfl

theorem isLoose_erase (fs : List Frame) : isLoose (fs.map Frame.erase) = isLoose fs := by
  induction fs with
  | nil => rfl
  | cons f fs ih =>
    have hright : f.erase.right.all (!·.isNode) = f.right.all (!·.isNode) := all_eraseAll f.right
    rw [List.map_cons, isLoose, isLoose, ih, hright]
    rfl

theorem isNeedless_erase (fs : List Frame) {x : Tree} (hplain : x.Each Tree.Plain) :
    isNeedless (fs.map Frame.erase) x.erase = isNeedless fs x := by
  have hkind : x.erase.kind = x.kind := by cases x <;> rfl
  have halone : standsAlone x.erase = standsAlone x := by
    cases x with
    | token k u => rfl
    | node k cs =>
      by_cases hk : k = .literalExpr
      · have hsame : Tree.eraseAll cs = cs := by
          have hcs := hplain.1 hk
          clear hplain hkind
          induction cs with
          | nil => rfl
          | cons c cs ih =>
            have hc := hcs c List.mem_cons_self
            cases c with
            | token k' u =>
              rw [Tree.eraseAll_cons (t := .token k' u) (Kind.isTrivia_of_isLiteral hc.2),
                ih fun d hd => hcs d (List.mem_cons_of_mem _ hd)]
              rfl
            | node k' ds => cases hc.1
        rw [Tree.erase, hsame]
      · simp only [standsAlone, Tree.erase, Tree.kind, beq_eq_false_iff_ne.mpr hk, Bool.false_and]
  cases fs with
  | nil => rfl
  | cons f fs =>
    have hinit : initializes (fs.map Frame.erase) = initializes fs := List.any_map
    have hreceiver : takesReceiver f.erase = takesReceiver f := by
      have hleft : f.erase.left.all (!·.isNode) = f.left.all (!·.isNode) := by
        rw [Frame.erase, List.all_reverse, all_eraseAll, List.all_reverse]
      rw [takesReceiver, takesReceiver, hleft]
      rfl
    have hloose := isLoose_erase (f :: fs)
    rw [List.map_cons] at hloose ⊢
    rw [isNeedless, isNeedless, hinit, hkind, halone, hreceiver, hloose]
    rfl

theorem reports_iff {z : Zipper} (hplain : z.focus.Each Tree.Plain) (hpaired : z.focus.erase.Each Tree.Paired) :
    (check z).findings ≠ [] ↔ isSpare (z.above.map Frame.erase) z.focus.erase = true := by
  obtain ⟨focus, above⟩ := z
  cases focus with
  | token k u => simp [check, isToken, Tree.isToken, Verdict.findings, Tree.erase, isSpare]
  | node k cs =>
    by_cases hk : k = .parenExpr
    · subst hk
      obtain ⟨p, hp⟩ := Parens.exists_parens (z := ⟨.node .parenExpr cs, above⟩) rfl hpaired.1
      have hinner : p.inner.Each Tree.Plain := by
        rw [← hp] at hplain
        exact (Tree.eachAll_append.mp (Tree.eachAll_append.mp hplain.2).2.2).2.1
      have hspare : isSpare (p.above.map Frame.erase) p.zipper.focus.erase =
          (p.inner.kind.isExpression && isNeedless p.above p.inner) := by
        have hkind : p.inner.erase.kind = p.inner.kind := by cases p.inner <;> rfl
        rw [Parens.zipper, Tree.erase, p.eraseAll_children, isSpare_parens, p.isNode_erase_inner, hkind,
          isNeedless_erase _ hinner, Bool.true_and]
      have hunneeded : isUnnecessary p.zipper p.innerZipper = isNeedless p.above p.inner :=
        isUnnecessary_eq rfl p.above hinner
      rw [← hp, show p.zipper.above = p.above from rfl, hspare, check, p.openParen?_zipper, p.closeParen?_zipper,
        p.innerExpression?_zipper]
      simp only [hunneeded, show p.innerZipper.kind = p.inner.kind from rfl]
      cases p.inner.kind.isExpression <;> cases isNeedless p.above p.inner <;>
        simp [Parens.zipper, isToken, Tree.isToken, kind, Tree.kind, Verdict.findings]
    · have hne : (kind ⟨.node k cs, above⟩ != .parenExpr) = true := bne_iff_ne.mpr hk
      have hspare : isSpare (above.map Frame.erase) (Tree.node k cs).erase = false := isSpare_of_ne hk
      simp [check, hne, hspare, Verdict.findings]

end Rule

end Parentheses

end Lintel
