import Lintel.Proofs.ParenthesizedNodes

namespace Lintel

namespace Zipper

variable {P : List Frame → Tree → Prop}

mutual

theorem descend (token : ∀ above k t, P above (.token k t))
    (node : ∀ above k cs, (∀ l c r, cs = l ++ c :: r → P (⟨k, l.reverse, r⟩ :: above) c) → P above (.node k cs))
    (above : List Frame) : (t : Tree) → P above t
  | .token k t => token above k t
  | .node k cs => node above k cs fun l c r h => by
    have hchild := descendAll token node k above [] cs l c r h
    rwa [List.append_nil] at hchild

theorem descendAll (token : ∀ above k t, P above (.token k t))
    (node : ∀ above k cs, (∀ l c r, cs = l ++ c :: r → P (⟨k, l.reverse, r⟩ :: above) c) → P above (.node k cs))
    (k : Kind) (above : List Frame) (left : List Tree) : (cs l : List Tree) → (c : Tree) → (r : List Tree) →
    cs = l ++ c :: r → P (⟨k, l.reverse ++ left, r⟩ :: above) c
  | [], l, c, r, h => by simp at h
  | d :: cs, [], c, r, h => by
    obtain ⟨rfl, rfl⟩ := List.cons.inj h
    exact descend token node (⟨k, left, cs⟩ :: above) d
  | d :: cs, e :: l, c, r, h => by
    obtain ⟨rfl, htail⟩ := List.cons.inj h
    have hchild := descendAll token node k above (d :: left) cs l c r htail
    simpa using hchild

end

end Zipper

namespace Parentheses

def standsAlone (t : Tree) : Bool :=
  !(t.kind matches .defaultLiteralExpr | .implicitObjectCreationExpr | .initializerExpr) &&
    !(t.kind == .literalExpr && t.children.head?.any (fun c => c.kind matches .intLiteral | .realLiteral))

def isLoose : List Frame → Bool
  | [] => false
  | f :: fs =>
    if f.kind == .parenExpr then isLoose fs
    else
      match f.kind with
      | .checkedExpr => true
      | .assignmentExpr => f.right.all (!·.isNode)
      | k => !k.isExpression

def takesReceiver (f : Frame) : Bool :=
  f.kind matches .memberAccessExpr | .conditionalAccessExpr | .elementAccessExpr && f.left.all (!·.isNode)

def initializes (fs : List Frame) : Bool :=
  fs.any (·.kind == .constructorInitializer)

def isNeedless (above : List Frame) (inner : Tree) : Bool :=
  match above with
  | [] => false
  | f :: fs =>
    if f.kind == .parenExpr && initializes fs then false
    else if groupsOperators inner.kind then isLoose (f :: fs)
    else if takesReceiver f then
      inner.kind != .conditionalAccessExpr && (f.kind != .memberAccessExpr || standsAlone inner)
    else true

def isSpare (above : List Frame) : Tree → Bool
  | .node .parenExpr [_, x, _] => x.isNode && x.kind.isExpression && isNeedless above x
  | _ => false

theorem isSpare_parens (above : List Frame) (l x r : Tree) :
    isSpare above (.node .parenExpr [l, x, r]) = (x.isNode && x.kind.isExpression && isNeedless above x) := rfl

theorem exists_of_isSpare {above : List Frame} {k : Kind} {cs : List Tree} (h : isSpare above (.node k cs) = true) :
    k = .parenExpr ∧ ∃ l x r, cs = [l, x, r] ∧ x.isNode = true ∧ x.kind.isExpression = true ∧
      isNeedless above x = true := by
  unfold isSpare at h
  split at h
  · rename_i l x r heq
    obtain ⟨rfl, rfl⟩ := Tree.node.inj heq
    simp only [Bool.and_eq_true] at h
    exact ⟨rfl, l, x, r, rfl, h.1.1, h.1.2, h.2⟩
  · cases h

theorem isSpare_of_ne {above : List Frame} {t : Tree} (h : t.kind ≠ .parenExpr) : isSpare above t = false := by
  cases t with
  | token k u => rfl
  | node k cs =>
    rw [← Bool.not_eq_true]
    exact fun hs => h (exists_of_isSpare hs).1

theorem isNeedless_congr {f g : Frame} {fs gs : List Frame} {x y : Tree} (hf : f.kind ≠ .parenExpr)
    (hkind : g.kind = f.kind)
    (hleft : g.left.map (·.isNode) = f.left.map (·.isNode)) (hright : g.right.map (·.isNode) = f.right.map (·.isNode))
    (hx : y.kind = x.kind) (halone : standsAlone y = standsAlone x) :
    isNeedless (g :: gs) y = isNeedless (f :: fs) x := by
  have hall (ts us : List Tree) (h : ts.map (·.isNode) = us.map (·.isNode)) :
      ts.all (!·.isNode) = us.all (!·.isNode) := by
    have hmap := congrArg (List.all · (!·)) h
    rwa [List.all_map, List.all_map] at hmap
  have hne : (f.kind == .parenExpr) = false := beq_eq_false_iff_ne.mpr hf
  have hreceiver : takesReceiver g = takesReceiver f := by rw [takesReceiver, takesReceiver, hkind, hall _ _ hleft]
  have hloose : isLoose (g :: gs) = isLoose (f :: fs) := by
    rw [isLoose, isLoose, hkind, hne, hall _ _ hright]
    rfl
  simp only [isNeedless, hkind, hne, Bool.false_and, hx, halone, hreceiver, hloose]

theorem isNeedless_group {fs : List Frame} {x : Tree} (hx : groupsOperators x.kind = true)
    (hfs : initializes fs = false) :
    isNeedless fs x = isLoose fs := by
  cases fs with
  | nil => rfl
  | cons f fs =>
    have htail : initializes fs = false := by
      simp only [initializes, List.any_cons, Bool.or_eq_false_iff] at hfs
      exact hfs.2
    simp [isNeedless, htail, hx]

theorem isNeedless_inner {f : Frame} {fs : List Frame} (x : Tree) (hf : f.kind = .parenExpr)
    (hfs : initializes fs = true) :
    isNeedless (f :: fs) x = false := by
  simp [isNeedless, hf, hfs]

theorem isSpare_within {f : Frame} {fs : List Frame} {t : Tree} (hf : f.kind = .parenExpr)
    (hfs : initializes fs = false)
    (h : isSpare fs t = true) : isSpare (f :: fs) t = true := by
  cases t with
  | token k u => cases h
  | node k cs =>
    obtain ⟨rfl, l, x, r, rfl, hnode, hexpr, hneedless⟩ := exists_of_isSpare h
    rw [isSpare_parens, hnode, hexpr]
    cases hx : groupsOperators x.kind with
    | true =>
      have hloose : isLoose (f :: fs) = isLoose fs := by rw [isLoose, hf]; rfl
      have hinit : initializes (f :: fs) = false := by rw [initializes, List.any_cons, hf]; exact hfs
      rw [isNeedless_group hx hinit, hloose, ← isNeedless_group hx hfs, hneedless]
      rfl
    | false => simp [isNeedless, hf, hfs, hx, takesReceiver]

theorem isNeedless_nested {f : Frame} {fs : List Frame} {x : Tree} (hx : x.kind = .parenExpr)
    (hf : f.kind ≠ .parenExpr ∨ initializes fs = false) : isNeedless (f :: fs) x = true := by
  have hif : (f.kind == .parenExpr && initializes fs) = false := by
    obtain hf | hf := hf
    · rw [beq_eq_false_iff_ne.mpr hf, Bool.false_and]
    · rw [hf, Bool.and_false]
  have halone : standsAlone x = true := by
    rw [standsAlone, hx]
    rfl
  simp [isNeedless, hif, hx, halone, groupsOperators]

mutual

def prune (above : List Frame) : Tree → Tree
  | .token k t => .token k t
  | .node k cs =>
    if isSpare above (.node k cs) then (pruneAll k above [] cs).getD 1 (.node k cs)
    else .node k (pruneAll k above [] cs)

def pruneAll (kind : Kind) (above : List Frame) (left : List Tree) : List Tree → List Tree
  | [] => []
  | c :: cs => prune (⟨kind, left, cs⟩ :: above) c :: pruneAll kind above (c :: left) cs

end

theorem prune_kept {above : List Frame} {k : Kind} {cs : List Tree} (h : isSpare above (.node k cs) = false) :
    prune above (.node k cs) = .node k (pruneAll k above [] cs) := by
  rw [prune, h]
  rfl

theorem prune_spare {above : List Frame} {l x r : Tree} (h : isSpare above (.node .parenExpr [l, x, r]) = true) :
    prune above (.node .parenExpr [l, x, r]) = prune (⟨.parenExpr, [l], [r]⟩ :: above) x := by
  rw [prune, if_pos h]
  rfl

theorem isNode_prune (above : List Frame) (t : Tree) : (prune above t).isNode = t.isNode := by
  refine Zipper.descend (P := fun above t => (prune above t).isNode = t.isNode) (fun _ _ _ => rfl) ?_ above t
  intro above k cs ih
  cases hs : isSpare above (.node k cs) with
  | false => rw [prune_kept hs]; rfl
  | true =>
    obtain ⟨rfl, l, x, r, rfl, hx, -⟩ := exists_of_isSpare hs
    have hchild := ih [l] x [r] rfl
    rw [prune_spare hs]
    exact hchild.trans hx

theorem map_isNode_pruneAll (k : Kind) (above : List Frame) (left cs : List Tree) :
    (pruneAll k above left cs).map (·.isNode) = cs.map (·.isNode) := by
  induction cs generalizing left with
  | nil => rfl
  | cons c cs ih => rw [pruneAll, List.map_cons, ih, isNode_prune, List.map_cons]

theorem kind_prune {above : List Frame} {t : Tree} (h : isSpare above t = false) : (prune above t).kind = t.kind := by
  cases t with
  | token k u => rfl
  | node k cs => rw [prune_kept h]; rfl

theorem pruneAll_tokens {k : Kind} {above : List Frame} {left cs : List Tree} (h : ∀ c ∈ cs, c.isToken = true) :
    pruneAll k above left cs = cs := by
  induction cs generalizing left with
  | nil => rfl
  | cons c cs ih =>
    rw [pruneAll, ih fun d hd => h d (List.mem_cons_of_mem _ hd)]
    cases c with
    | token k t => rfl
    | node k ds => cases h _ List.mem_cons_self

theorem standsAlone_prune {above : List Frame} {t : Tree} (h : isSpare above t = false) (hplain : t.Each Tree.Plain) :
    standsAlone (prune above t) = standsAlone t := by
  cases t with
  | token k u => rfl
  | node k cs =>
    rw [prune_kept h]
    by_cases hk : k = .literalExpr
    · rw [pruneAll_tokens fun c hc => (hplain.1 hk c hc).1]
    · simp only [standsAlone, Tree.kind, beq_eq_false_iff_ne.mpr hk, Bool.false_and]

theorem each_prune (above : List Frame) (t : Tree) : t.Each Tree.Paired → (prune above t).Each Tree.Paired := by
  refine Zipper.descend (P := fun above t => t.Each Tree.Paired → (prune above t).Each Tree.Paired)
    (fun _ _ _ _ => trivial)
    ?_ above t
  intro above k cs ih hpaired
  cases hs : isSpare above (.node k cs) with
  | true =>
    obtain ⟨rfl, l, x, r, rfl, -⟩ := exists_of_isSpare hs
    rw [prune_spare hs]
    exact ih [l] x [r] rfl hpaired.2.2.1
  | false =>
    rw [prune_kept hs]
    refine ⟨fun hk => ?_, ?_⟩
    · obtain ⟨l, x, r, rfl, hl, hx, hr⟩ := hpaired.1 hk
      refine ⟨l, prune (⟨k, [.leaf l], [.leaf r]⟩ :: above) x, r, rfl, hl, ?_, hr⟩
      rw [isNode_prune, hx]
    · have hall (l rest : List Tree) (hsplit : cs = l ++ rest) :
        Tree.EachAll Tree.Paired (pruneAll k above l.reverse rest) := by
        induction rest generalizing l with
        | nil => trivial
        | cons c rest ihr =>
          have hc : c.Each Tree.Paired := by
            rw [hsplit] at hpaired
            exact (Tree.eachAll_append.mp hpaired.2).2.1
          have htail := ihr (l ++ [c]) (by simpa using hsplit)
          rw [List.reverse_append] at htail
          exact ⟨ih l c rest hsplit hc, htail⟩
      exact hall [] cs rfl

def goes (z : Zipper) : Bool :=
  match z.above with
  | [] => false
  | f :: fs => isSpare fs (f.fill z.focus)

/-- The frames around an element before and after the parentheses that are not needed are taken out. -/
inductive Thinned : List Frame → Tree → List Frame → Prop
  | nil {t : Tree} : Thinned [] t []
  | drop {f : Frame} {fs gs : List Frame} {t : Tree} : isSpare fs (f.fill t) = true → Thinned fs (f.fill t) gs →
    Thinned (f :: fs) t gs
  | keep {f g : Frame} {fs gs : List Frame} {t : Tree} : isSpare fs (f.fill t) = false → g.kind = f.kind →
    g.left.map (·.isNode) = f.left.map (·.isNode) → g.right = pruneAll f.kind fs (t :: f.left) f.right →
    Thinned fs (f.fill t) gs → Thinned (f :: fs) t (g :: gs)

namespace Thinned

variable {fs gs : List Frame} {t : Tree}

theorem initializes (h : Thinned fs t gs) : initializes gs = initializes fs := by
  induction h with
  | nil => rfl
  | drop hs _ ih =>
    rw [ih, Parentheses.initializes, Parentheses.initializes, List.any_cons, (exists_of_isSpare hs).1]
    rfl
  | keep _ hkind _ _ _ ih =>
    rw [Parentheses.initializes, Parentheses.initializes, List.any_cons, List.any_cons, hkind]
    exact congrArg _ ih

theorem isLoose (h : Thinned fs t gs) : isLoose gs = isLoose fs := by
  induction h with
  | nil => rfl
  | drop hs _ ih =>
    rw [ih, Parentheses.isLoose, (exists_of_isSpare hs).1]
    rfl
  | @keep f g fs gs t _ hkind _ hright _ ih =>
    have hall : g.right.all (!·.isNode) = f.right.all (!·.isNode) := by
      have hmap := congrArg (List.all · (!·)) (map_isNode_pruneAll f.kind fs (t :: f.left) f.right)
      rwa [List.all_map, List.all_map, ← hright] at hmap
    rw [Parentheses.isLoose, Parentheses.isLoose, hkind, ih, hall]

theorem exists_frame {f : Frame} (h : Thinned (f :: fs) t gs) (hf : f.kind ≠ .parenExpr) :
    ∃ g gs', gs = g :: gs' ∧ g.kind = f.kind ∧ g.left.map (·.isNode) = f.left.map (·.isNode) ∧
      g.right.map (·.isNode) = f.right.map (·.isNode) := by
  cases h with
  | drop hs _ => exact absurd (exists_of_isSpare hs).1 hf
  | keep _ hkind hleft hright _ =>
    exact ⟨_, _, rfl, hkind, hleft, by rw [hright, map_isNode_pruneAll]⟩

end Thinned

def Slimmed (y z : Zipper) : Prop :=
  z.focus = y.focus ∧ Thinned y.above y.focus z.above

theorem leaves_prune (above : List Frame) (t : Tree) : t.isNode = true → t.Each Tree.Paired → ∀ gs, Thinned above t gs →
    List.Forall₂ Slimmed ((Zipper.leavesOf above t).filter (!goes ·)) (Zipper.leavesOf gs (prune above t)) := by
  refine Zipper.descend (P := fun above t => t.isNode = true → t.Each Tree.Paired → ∀ gs, Thinned above t gs →
    List.Forall₂ Slimmed ((Zipper.leavesOf above t).filter (!goes ·)) (Zipper.leavesOf gs (prune above t)))
    nofun ?_ above t
  intro above k cs ih _ hpaired gs hthin
  cases hs : isSpare above (.node k cs) with
  | true =>
    obtain ⟨rfl, l, x, r, rfl, hx, -⟩ := exists_of_isSpare hs
    obtain ⟨l, x, r, heq, -⟩ := hpaired.1 rfl
    obtain ⟨rfl, rfl, rfl⟩ : _ ∧ _ ∧ _ := by simpa using heq
    have hl : goes ⟨.leaf l, ⟨.parenExpr, [], [x, .leaf r]⟩ :: above⟩ = true := hs
    have hr : goes ⟨.leaf r, ⟨.parenExpr, [x, .leaf l], []⟩ :: above⟩ = true := hs
    have hleaves : Zipper.leavesOf above (.node .parenExpr [.leaf l, x, .leaf r]) =
        ⟨.leaf l, ⟨.parenExpr, [], [x, .leaf r]⟩ :: above⟩ ::
          (Zipper.leavesOf (⟨.parenExpr, [.leaf l], [.leaf r]⟩ :: above) x ++
          [⟨.leaf r, ⟨.parenExpr, [x, .leaf l], []⟩ :: above⟩]) := rfl
    rw [prune_spare hs, hleaves, List.filter_cons_of_neg (by simp [hl]), List.filter_append,
      List.filter_cons_of_neg (by simp [hr]), List.filter_nil, List.append_nil]
    exact ih [.leaf l] x [.leaf r] rfl hx hpaired.2.2.1 gs (.drop hs hthin)
  | false =>
    rw [prune_kept hs, Zipper.leavesOf, Zipper.leavesOf]
    have hall (l left' rest : List Tree) (hsplit : cs = l ++ rest)
        (hleft : left'.map (·.isNode) = l.reverse.map (·.isNode)) :
        List.Forall₂ Slimmed ((Zipper.leavesAll k above l.reverse rest).filter (!goes ·))
          (Zipper.leavesAll k gs left' (pruneAll k above l.reverse rest)) := by
      induction rest generalizing l left' with
      | nil => exact .nil
      | cons c rest ihr =>
        have hfill : (⟨k, l.reverse, rest⟩ : Frame).fill c =
          .node k cs := by rw [Frame.fill, List.reverse_reverse, hsplit]
        have hframe : Thinned (⟨k, l.reverse, rest⟩ :: above) c
          (⟨k, left', pruneAll k above (c :: l.reverse) rest⟩ :: gs) :=
          .keep (by rw [hfill, hs]) rfl hleft rfl (by rw [hfill]; exact hthin)
        have htail := ihr (l ++ [c]) (prune (⟨k, l.reverse, rest⟩ :: above) c :: left') (by simpa using hsplit) (by
          rw [List.map_cons, isNode_prune, hleft, List.reverse_append]
          rfl)
        rw [List.reverse_append] at htail
        rw [pruneAll, Zipper.leavesAll, Zipper.leavesAll, List.filter_append]
        refine List.rel_append ?_ htail
        cases c with
        | token k' u =>
          have hstays : goes ⟨.token k' u, ⟨k, l.reverse, rest⟩ :: above⟩ = false := by
            rw [← hs, ← hfill]
            rfl
          rw [Zipper.leavesOf, List.filter_cons_of_pos (by simp [hstays])]
          exact .cons ⟨rfl, hframe⟩ .nil
        | node k' ds =>
          have hc : (Tree.node k' ds).Each Tree.Paired := by
            rw [hsplit] at hpaired
            exact (Tree.eachAll_append.mp hpaired.2).2.1
          exact ih l _ rest hsplit rfl hc _ hframe
    exact hall [] [] cs rfl rfl

theorem exists_fill {f : Frame} {t : Tree} (hf : f.kind = .parenExpr) (ht : t.isNode = true)
    (hpaired : (f.fill t).Each Tree.Paired) : ∃ l r, f.fill t = .node .parenExpr [.leaf l, t, .leaf r] := by
  obtain ⟨l, x, r, hcs, -, -, -⟩ := hpaired.1 hf
  have hmem : t ∈ [Tree.leaf l, x, .leaf r] := by
    rw [← hcs]
    simp
  have hx : t = x := by
    simp only [List.mem_cons, List.not_mem_nil, or_false] at hmem
    obtain rfl | rfl | rfl := hmem
    · cases ht
    · rfl
    · cases ht
  exact ⟨l, r, by rw [Frame.fill, hcs, hf, hx]⟩

section Kept

variable {fs gs : List Frame} {l x r : Tree} (hx : x.isNode = true) (hplain : x.Each Tree.Plain)

include hx hplain

theorem isSpare_kept {f g : Frame} (hkept : isSpare (f :: fs) (.node .parenExpr [l, x, r]) = false)
    (houter : isSpare fs (f.fill (.node .parenExpr [l, x, r])) = false) (hkind : g.kind = f.kind)
    (hleft : g.left.map (·.isNode) = f.left.map (·.isNode)) (hright : g.right.map (·.isNode) = f.right.map (·.isNode))
    (hinit : initializes gs = initializes fs) (hpaired : (f.fill (.node .parenExpr [l, x, r])).Each Tree.Paired)
    (hroot : fs = [] → f.kind ≠ .parenExpr) (above : List Frame) :
    isSpare (g :: gs) (.node .parenExpr [l, prune above x, r]) = false := by
  rw [isSpare_parens]
  by_cases hf : f.kind = .parenExpr
  · have hfs : initializes fs = true := by
      by_contra hfs
      rw [Bool.not_eq_true] at hfs
      obtain ⟨l', r', hfill⟩ := exists_fill hf rfl hpaired
      cases fs with
      | nil => exact hroot rfl hf
      | cons f' fs =>
        have htail : initializes fs = false := by
          simp only [initializes, List.any_cons, Bool.or_eq_false_iff] at hfs
          exact hfs.2
        rw [hfill, isSpare_parens, isNeedless_nested rfl (.inr htail)] at houter
        cases houter
    rw [isNeedless_inner _ (hkind.trans hf) (hinit.trans hfs), Bool.and_false]
  · have hparen : x.kind ≠ .parenExpr := by
      intro hparen
      rw [isSpare_parens, isNeedless_nested hparen (.inl hf), hx, hparen] at hkept
      cases hkept
    have hs : isSpare above x = false := isSpare_of_ne hparen
    rw [isNode_prune, kind_prune hs,
      isNeedless_congr hf hkind hleft hright (kind_prune hs) (standsAlone_prune hs hplain), ← hkept]
    rfl

theorem isSpare_inner {f : Frame} {q : Tree} (hq : q = .node .parenExpr [l, x, r])
    (hkept : isSpare (f :: fs) q = false) (houter : isSpare fs (f.fill q) = true) (hthin : Thinned fs (f.fill q) gs)
    (hpaired : (f.fill q).Each Tree.Paired) :
    isSpare gs (.node .parenExpr [l, prune (⟨.parenExpr, [l], [r]⟩ :: f :: fs) x, r]) = isSpare fs q := by
  subst hq
  have hf : f.kind = .parenExpr := (exists_of_isSpare houter).1
  obtain ⟨l', r', hfill⟩ := exists_fill hf rfl hpaired
  rw [hfill, isSpare_parens, Bool.and_eq_true] at houter
  rw [isSpare_parens, isSpare_parens, isNode_prune]
  cases hinit : initializes fs with
  | true =>
    -- In a constructor initializer only the outermost of parentheses around each other are not needed.
    cases fs with
    | nil => cases hinit
    | cons g fs =>
      have hg : g.kind ≠ .parenExpr := by
        intro hg
        have htail : initializes fs = true := by
          rw [initializes, List.any_cons, hg] at hinit
          exact hinit
        rw [isNeedless_inner _ hg htail] at houter
        cases houter.2
      have hs : isSpare (⟨.parenExpr, [l], [r]⟩ :: f :: g :: fs) x = false := by
        rw [← Bool.not_eq_true]
        intro hs
        cases x with
        | token k u => cases hs
        | node k cs =>
          obtain ⟨-, -, y, -, -, -, -, hneedless⟩ := exists_of_isSpare hs
          rw [isNeedless_inner y rfl (by rw [initializes, List.any_cons]; exact Bool.or_eq_true_iff.mpr (.inr hinit))]
            at hneedless
          cases hneedless
      obtain ⟨g', gs', rfl, hkind, hleft, hright⟩ := hthin.exists_frame hg
      rw [kind_prune hs, isNeedless_congr hg hkind hleft hright (kind_prune hs) (standsAlone_prune hs hplain)]
  | false =>
    -- Elsewhere those that stay hold operators together, wherever the others around them end.
    by_cases hexpr : x.kind.isExpression = true
    · have hneeded : isNeedless (f :: fs) x = false := by
        rw [isSpare_parens, hx, hexpr] at hkept
        exact hkept
      have hgroup : groupsOperators x.kind = true := by
        by_contra hgroup
        have hreceiver : takesReceiver f = false := by rw [takesReceiver, hf]; rfl
        rw [isNeedless, hinit, if_neg (by simp), if_neg hgroup, hreceiver] at hneeded
        cases hneeded
      have hinit' : initializes (f :: fs) = false := by
        rw [initializes, List.any_cons, hf]
        exact hinit
      have hs : isSpare (⟨.parenExpr, [l], [r]⟩ :: f :: fs) x = false := by
        refine isSpare_of_ne fun hk => ?_
        rw [hk] at hgroup
        cases hgroup
      have hloose : isLoose (f :: fs) = isLoose fs := by rw [isLoose, hf]; rfl
      rw [isNeedless_group hgroup hinit', hloose] at hneeded
      rw [kind_prune hs, isNeedless_group (by rw [kind_prune hs, hgroup]) (hthin.initializes.trans hinit),
        hthin.isLoose, isNeedless_group hgroup hinit]
    · have hs : isSpare (⟨.parenExpr, [l], [r]⟩ :: f :: fs) x = false := by
        refine isSpare_of_ne fun hk => hexpr ?_
        rw [hk]
        rfl
      rw [Bool.not_eq_true] at hexpr
      rw [kind_prune hs, hexpr, Bool.and_false, Bool.false_and, Bool.false_and]

end Kept

/-- Parentheses that stay become unneeded only where they stood right inside others that were not needed, and would
not have been needed in their place. -/
theorem isSpare_thinned {fs gs : List Frame} {l x r : Tree} (hthin : Thinned fs (.node .parenExpr [l, x, r]) gs)
    (hkept : isSpare fs (.node .parenExpr [l, x, r]) = false) (hx : x.isNode = true)
    (hplain : x.Each Tree.Plain) (hpaired : (Zipper.plug (.node .parenExpr [l, x, r]) fs).Each Tree.Paired)
    (hroot : (Zipper.plug (.node .parenExpr [l, x, r]) fs).kind ≠ .parenExpr) :
    isSpare gs (.node .parenExpr [l, prune (⟨.parenExpr, [l], [r]⟩ :: fs) x, r]) = true ↔
      ∃ f fs', fs = f :: fs' ∧ isSpare fs' (f.fill (.node .parenExpr [l, x, r])) = true ∧
        isSpare fs' (.node .parenExpr [l, x, r]) = true := by
  cases hthin with
  | nil =>
    rw [isSpare_parens, isNeedless, Bool.and_false]
    simp
  | @drop f fs' _ _ houter hthin =>
    rw [isSpare_inner hx hplain rfl hkept houter hthin (Zipper.each_plug hpaired)]
    constructor
    · exact fun hs => ⟨f, fs', rfl, houter, hs⟩
    · rintro ⟨f', fs'', heq, -, hs⟩
      obtain ⟨rfl, rfl⟩ := List.cons.inj heq
      exact hs
  | @keep f g fs' _ _ houter hkind hleft hright hthin =>
    have hroot' : fs' = [] → f.kind ≠ .parenExpr := by
      rintro rfl
      exact hroot
    rw [isSpare_kept hx hplain hkept houter hkind hleft (by rw [hright, map_isNode_pruneAll]) hthin.initializes
      (Zipper.each_plug hpaired) hroot']
    constructor
    · intro hs
      cases hs
    · rintro ⟨f', fs'', heq, hs, -⟩
      obtain ⟨rfl, rfl⟩ := List.cons.inj heq
      rw [houter] at hs
      cases hs

end Parentheses

end Lintel
