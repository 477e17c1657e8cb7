import Mathlib.Data.List.Nodup
import Mathlib.Data.List.Perm.Basic
import Lintel.Proofs.FaultlessText
import Lintel.Proofs.FixableFindings
import Lintel.Proofs.ParenthesisNeighbours

namespace Lintel

namespace Zipper

theorem preorderAll_element (k : Kind) (above : List Frame) (l : List Tree) (c : Tree) (r left : List Tree) :
    ∃ ys zs, preorderAll k above left (l ++ c :: r) =
      ys ++ preorderOf (⟨k, l.reverse ++ left, r⟩ :: above) c ++ zs := by
  induction l generalizing left with
  | nil => exact ⟨[], preorderAll k above (c :: left) r, rfl⟩
  | cons d l ih =>
    obtain ⟨ys, zs, heq⟩ := ih (d :: left)
    refine ⟨preorderOf (⟨k, left, l ++ c :: r⟩ :: above) d ++ ys, zs, ?_⟩
    rw [List.cons_append, preorderAll, heq]
    simp

theorem preorder_plug (t : Tree) (fs : List Frame) :
    ∃ ys zs, preorderOf [] (plug t fs) = ys ++ preorderOf fs t ++ zs := by
  induction fs generalizing t with
  | nil => exact ⟨[], [], by simp [plug]⟩
  | cons f fs ih =>
    obtain ⟨ys, zs, heq⟩ := ih (f.fill t)
    obtain ⟨ys', zs', heq'⟩ := preorderAll_element f.kind fs f.left.reverse t f.right []
    rw [List.reverse_reverse, List.append_nil] at heq'
    refine ⟨ys ++ ⟨f.fill t, fs⟩ :: ys', zs' ++ zs, ?_⟩
    rw [plug, heq, Frame.fill, preorderOf, heq']
    simp

theorem mem_preorder (z : Zipper) : z ∈ (ofRoot z.root).preorder := by
  obtain ⟨ys, zs, heq⟩ := preorder_plug z.focus z.above
  have hmem : z ∈ preorderOf z.above z.focus := by
    obtain ⟨focus, above⟩ := z
    cases focus <;> exact List.mem_cons_self
  rw [preorder, ofRoot, root, heq]
  simp [hmem]

mutual

theorem suffix_preorderOf (above : List Frame) : (t : Tree) → ∀ z ∈ preorderOf above t, above <:+ z.above
  | .token k u, z, h => by
    obtain rfl := List.mem_singleton.mp h
    exact List.suffix_refl above
  | .node k cs, z, h => by
    obtain rfl | h := List.mem_cons.mp h
    · exact List.suffix_refl _
    · obtain ⟨l, c, r, -, hsuffix⟩ := suffix_preorderAll k above [] cs z h
      exact (List.suffix_cons _ _).trans hsuffix

theorem suffix_preorderAll (k : Kind) (above : List Frame) (left : List Tree) : (cs : List Tree) →
    ∀ z ∈ preorderAll k above left cs, ∃ (l : List Tree) (c : Tree) (r : List Tree),
      cs = l ++ c :: r ∧ ⟨k, l.reverse ++ left, r⟩ :: above <:+ z.above
  | [], _, h => by cases h
  | c :: cs, z, h => by
    obtain h | h := List.mem_append.mp h
    · exact ⟨[], c, cs, rfl, suffix_preorderOf _ c z h⟩
    · obtain ⟨l, d, r, rfl, hsuffix⟩ := suffix_preorderAll k above (c :: left) cs z h
      exact ⟨c :: l, d, r, rfl, by simpa using hsuffix⟩

end

mutual

theorem nodup_preorderOf (above : List Frame) : (t : Tree) → (preorderOf above t).Nodup
  | .token k u => List.nodup_singleton _
  | .node k cs => by
    refine List.nodup_cons.mpr ⟨fun h => ?_, nodup_preorderAll k above [] cs⟩
    obtain ⟨l, c, r, -, hsuffix⟩ := suffix_preorderAll k above [] cs _ h
    have hle := hsuffix.length_le
    rw [List.length_cons] at hle
    simp only at hle
    omega

theorem nodup_preorderAll (k : Kind) (above : List Frame) (left : List Tree) : (cs : List Tree) →
    (preorderAll k above left cs).Nodup
  | [] => List.nodup_nil
  | c :: cs => by
    refine List.nodup_append.mpr ⟨nodup_preorderOf _ c, nodup_preorderAll k above (c :: left) cs, ?_⟩
    rintro z hz y hy rfl
    have hfirst := suffix_preorderOf _ c z hz
    obtain ⟨l, d, r, rfl, hsecond⟩ := suffix_preorderAll k above (c :: left) cs z hy
    have heq := (List.suffix_of_suffix_length_le hfirst hsecond (by simp)).eq_of_length (by simp)
    have hleft := congrArg (fun fs => (fs.head?.map (·.left.length)).getD 0) heq
    simp only [List.head?_cons, Option.map_some, Option.getD_some, List.length_append, List.length_cons] at hleft
    omega

end

section Rank

variable {k : Kind} {ds : List Tree}

theorem pairwise_rank (pre : List Zipper) {zs : List Zipper} (h : leaves (.node k ds) = pre ++ zs) :
    zs.Pairwise (fun y z => y.token.isTrivia = false → y.rank < z.rank) := by
  induction zs generalizing pre with
  | nil => exact .nil
  | cons z zs ih =>
    refine .cons (fun y hy hsig => ?_) (ih (pre ++ [z]) (by simpa using h))
    obtain ⟨ys, ys', rfl⟩ := List.append_of_mem hy
    have hsplit : leaves (.node k ds) = (pre ++ z :: ys) ++ y :: ys' := by simpa using h
    have hone : Token.weight [z.token] = 1 := by simp [Token.weight, hsig]
    rw [rank_leaf h, rank_leaf hsplit, List.map_append, Token.weight_append, List.map_cons, Token.weight_cons, hone]
    omega

theorem rank_succ {ls gs rs : List Zipper} {y z : Zipper} (h : leaves (.node k ds) = ls ++ y :: (gs ++ z :: rs))
    (hsig : y.token.isTrivia = false) (hgs : ∀ g ∈ gs, g.token.isTrivia = true) : z.rank = y.rank + 1 := by
  have hsplit : leaves (.node k ds) = (ls ++ y :: gs) ++ z :: rs := by simpa using h
  have hone : Token.weight [y.token] = 1 := by simp [Token.weight, hsig]
  have hzero : Token.weight (gs.map token) = 0 := by
    rw [Token.weight, List.length_eq_zero_iff, List.filter_eq_nil_iff]
    intro x hx
    obtain ⟨g, hg, rfl⟩ := List.mem_map.mp hx
    simp [hgs g hg]
  rw [rank_leaf hsplit, rank_leaf h, List.map_append, List.map_cons, Token.weight_append, Token.weight_cons, hone,
    hzero]

theorem eq_of_rank {y z : Zipper} (hy : y ∈ leaves (.node k ds)) (hz : z ∈ leaves (.node k ds))
    (hysig : y.token.isTrivia = false) (hzsig : z.token.isTrivia = false) (h : y.rank = z.rank) : y = z := by
  have hpair := pairwise_rank [] (List.nil_append (leaves (.node k ds))).symm
  by_contra hne
  have hapart : y.rank < z.rank ∨ z.rank < y.rank := by
    refine List.Pairwise.forall_of_forall_of_flip
      (R := fun y z => y ≠ z → y.token.isTrivia = false → z.token.isTrivia = false → y.rank < z.rank ∨ z.rank < y.rank)
      (fun x _ hx => absurd rfl hx) (hpair.imp fun hlt _ hsig _ => .inl (hlt hsig))
      (hpair.imp fun hlt _ _ hsig => .inr (hlt hsig)) hy hz hne hysig hzsig
  omega

end Rank

end Zipper

namespace Parens

open Zipper

variable (p : Parens)

theorem trait_openZipper : p.openZipper.cell.trait = (.lParen, true) := by
  rw [Cell.trait, show p.openZipper.cell.kind = .lParen from p.isOpening]
  rfl

theorem trait_closeZipper : p.closeZipper.cell.trait = (.rParen, true) := by
  rw [Cell.trait, show p.closeZipper.cell.kind = .rParen from p.isClosing]
  rfl

theorem eq_of_up? {z : Zipper} (hup : z.up? = some p.zipper) (htok : z.isToken = true) (hsig : z.isTrivia = false) :
    z = p.openZipper ∨ z = p.closeZipper := by
  obtain ⟨focus, above⟩ := z
  cases above with
  | nil => cases hup
  | cons f fs =>
    have hchild : ⟨focus, f :: fs⟩ ∈ p.zipper.children := by
      rw [← Option.some.inj hup]
      obtain ⟨ss, -, heq⟩ := siblings_element f.kind fs f.left.reverse focus f.right []
      show ⟨focus, f :: fs⟩ ∈ siblings f.kind fs [] (f.left.reverse ++ focus :: f.right)
      rw [heq]
      simp
    have hmem : ⟨focus, f :: fs⟩ ∈ p.zipper.children.filter (fun z => !z.isTrivia && z.isToken) :=
      List.mem_filter.mpr ⟨hchild, by rw [hsig, htok]; rfl⟩
    rw [p.filter_children fun z hz => by rw [hz]; rfl, List.mem_filter] at hmem
    obtain heq | heq | heq : _ ∨ _ ∨ _ := by simpa using hmem.1
    · exact .inl heq
    · rw [heq, p.isToken_innerZipper] at htok
      cases htok
    · exact .inr heq

theorem rank_gone {k : Kind} {ds : List Tree} (hroot : p.zipper.root = .node k ds) (hfill : Tree.FilledAll ds)
    (hinner : p.inner.erase.Filled) {z : Zipper} (hz : z ∈ p.gone) (ht : z.token.isTrivia = true) :
    z.rank = p.openZipper.rank + 1 ∨ z.rank = p.closeZipper.rank := by
  obtain ⟨ls, a, core, b, rs, hleaves, hgone, htrivia, -⟩ := p.gone_leaves hroot hfill hinner
  have hnone (gs : List Zipper) (hgs : ∀ y ∈ gs, y ∈ a ++ b) : Token.weight (gs.map token) = 0 := by
    rw [Token.weight, List.length_eq_zero_iff, List.filter_eq_nil_iff]
    intro x hx
    obtain ⟨y, hy, rfl⟩ := List.mem_map.mp hx
    simp [htrivia y (hgs y hy)]
  have hopen : Token.weight [p.openZipper.token] = 1 := by
    simp [Token.weight, show p.openZipper.token.isTrivia = false from p.isTrivia_opening]
  rw [hgone, List.mem_append, List.mem_append] at hz
  obtain (hz | hz) | hz := hz
  · left
    obtain ⟨a₁, a₂, rfl⟩ := List.append_of_mem hz
    have hsplit : leaves (.node k ds) = (ls ++ p.openZipper :: a₁) ++ z ::
      (a₂ ++ core ++ b ++ p.closeZipper :: rs) := by
      rw [hleaves]
      simp
    have hzero := hnone a₁ (fun y hy => by simp [hy])
    rw [rank_leaf hsplit, rank_leaf hleaves, List.map_append, List.map_cons, Token.weight_append, Token.weight_cons,
      hopen, hzero]
  · right
    obtain ⟨b₁, b₂, rfl⟩ := List.append_of_mem hz
    have hsplit : leaves (.node k ds) = (ls ++ p.openZipper :: (a ++ core ++ b₁)) ++ z ::
      (b₂ ++ p.closeZipper :: rs) := by
      rw [hleaves]
      simp
    have hclose : leaves (.node k ds) = (ls ++ p.openZipper :: (a ++ core ++ (b₁ ++ z :: b₂))) ++
      p.closeZipper :: rs := by
      rw [hleaves]
      simp
    have hzero := hnone (z :: b₂) (fun y hy => by
      obtain rfl | hy := List.mem_cons.mp hy
      · simp
      · simp [hy])
    rw [rank_leaf hsplit, rank_leaf hclose]
    simp only [List.map_append, List.map_cons, Token.weight_append] at hzero ⊢
    rw [Token.weight_cons _ (a.map token ++ _ ++ _), Token.weight_cons _ (a.map token ++ _ ++ _)]
    simp only [Token.weight_append]
    omega
  · obtain rfl | rfl : z = p.openZipper ∨ z = p.closeZipper := by simpa using hz
    · rw [show p.openZipper.token.isTrivia = false from p.isTrivia_opening] at ht
      cases ht
    · rw [show p.closeZipper.token.isTrivia = false from p.isTrivia_closing] at ht
      cases ht

end Parens

namespace Parentheses

open Zipper Grammar

def goneMark (t : Tree) : Zipper → Mark :=
  mark id ((goneIn t).map (·.start))

theorem gone_goneMark_of_stays {t : Tree} {z : Zipper} (hz : z.start ∉ (goneIn t).map (·.start)) :
    (goneMark t z).gone = none := by
  rw [goneMark, mark, if_neg hz]

section Faultless

variable {t : Text} (h : (parse t).faults = [])

include h

theorem getElem?_rank {z : Zipper} (hz : z ∈ leaves (parse t).tree) (hsig : z.token.isTrivia = false) :
    (Tree.cellsAll .compilationUnit (Outline.bareAll (outline (itemsOf t)).1))[z.rank]? = some z.cell := by
  obtain ⟨ds, hds⟩ : ∃ ds, (parse t).tree = .node .compilationUnit ds := ⟨_, rfl⟩
  obtain ⟨ls, rs, hleaves⟩ := List.append_of_mem hz
  rw [hds] at hleaves
  rw [rank_leaf hleaves]
  exact (draft_parse h).getElem?_leaf hds hleaves hsig

theorem mayMeet_of_rank {y z : Zipper} (hy : y ∈ leaves (parse t).tree) (hz : z ∈ leaves (parse t).tree)
    (hysig : y.token.isTrivia = false) (hzsig : z.token.isTrivia = false) (hrank : z.rank = y.rank + 1) :
    MayMeet y.cell.trait z.cell.trait := by
  have hfirst := getElem?_rank h hy hysig
  have hsecond := getElem?_rank h hz hzsig
  rw [hrank] at hsecond
  obtain ⟨hlt, hy'⟩ := List.getElem?_eq_some_iff.mp hfirst
  obtain ⟨hlt', hz'⟩ := List.getElem?_eq_some_iff.mp hsecond
  rw [← hy', ← hz']
  exact List.isChain_iff_getElem.mp (mayMeet_outline (outline_of_faultless h)) _ hlt'

theorem kind_of_default {y z : Zipper} (hy : y ∈ leaves (parse t).tree) (hz : z ∈ leaves (parse t).tree)
    (hysig : y.token.isTrivia = false) (hzsig : z.token.isTrivia = false) (hrank : z.rank = y.rank + 1)
    (hk : y.cell.kind = .defaultKw) (ho : y.cell.owner = .defaultExpr) : z.cell.kind = .lParen := by
  have hfirst := getElem?_rank h hy hysig
  have hsecond := getElem?_rank h hz hzsig
  rw [hrank] at hsecond
  obtain ⟨hlt, hy'⟩ := List.getElem?_eq_some_iff.mp hfirst
  generalize hcells : Tree.cellsAll .compilationUnit (Outline.bareAll (outline (itemsOf t)).1) = cs at hfirst hsecond
  have hopen := Outline.defaultsOpen_bareAll (show Kind.compilationUnit ≠ .defaultExpr by decide) _
    (opened_outline (outline_of_faultless h))
  obtain ⟨hlt, hy'⟩ := List.getElem?_eq_some_iff.mp hfirst
  have hsplit : cs = cs.take y.rank ++ y.cell :: cs.drop (y.rank + 1) := by
    rw [← hy', ← List.drop_eq_getElem_cons hlt, List.take_append_drop]
  rw [hcells] at hopen
  have hnext := hopen _ _ _ hsplit hk ho
  rw [List.head?_drop, hsecond] at hnext
  exact Option.some.inj hnext

theorem zipper_of_gone {p q : Parens} (hp : p.zipper.root = (parse t).tree) (hq : q.zipper.root = (parse t).tree)
    {z : Zipper} (hzp : z ∈ p.gone) (hzq : z ∈ q.gone) : p.zipper = q.zipper := by
  obtain ⟨ds, hds⟩ : ∃ ds, (parse t).tree = .node .compilationUnit ds := ⟨_, rfl⟩
  have hdraft := draft_parse h
  rw [hds] at hdraft
  obtain ⟨hpmem, -, hptrivia⟩ := gone_parens h hp
  obtain ⟨hqmem, -, hqtrivia⟩ := gone_parens h hq
  have hpo := hpmem p.openZipper (by simp [Parens.gone])
  have hpc := hpmem p.closeZipper (by simp [Parens.gone])
  have hqo := hqmem q.openZipper (by simp [Parens.gone])
  have hqc := hqmem q.closeZipper (by simp [Parens.gone])
  have hopens (heq : p.openZipper = q.openZipper) : p.zipper = q.zipper :=
    Option.some.inj (by rw [← p.up?_openZipper, heq, q.up?_openZipper])
  have hcloses (heq : p.closeZipper = q.closeZipper) : p.zipper = q.zipper :=
    Option.some.inj (by rw [← p.up?_closeZipper, heq, q.up?_closeZipper])
  -- Between an opening parenthesis and a closing one there is more than trivia.
  have hmeet {p q : Parens} (hpo : p.openZipper ∈ leaves (parse t).tree) (hqc : q.closeZipper ∈ leaves (parse t).tree)
      (hrank : q.closeZipper.rank = p.openZipper.rank + 1) : False := by
    have hbar := mayMeet_of_rank h hpo hqc p.isTrivia_opening q.isTrivia_closing hrank .opener
    rw [p.trait_openZipper, q.trait_closeZipper] at hbar
    exact absurd (hbar rfl) (by decide)
  cases ht : z.token.isTrivia with
  | false =>
    have hends {p : Parens} (hz : z ∈ p.gone)
      (htrivia : ∀ y ∈ padding p.openZipper p.closeZipper, y.token.isTrivia = true) :
        z = p.openZipper ∨ z = p.closeZipper := by
      obtain hz | hz := List.mem_append.mp hz
      · rw [htrivia z hz] at ht
        cases ht
      · simpa using hz
    have hkinds {p q : Parens} (heq : p.openZipper = q.closeZipper) : False := by
      have hkind := congrArg Zipper.kind heq
      rw [p.kind_openZipper, q.kind_closeZipper] at hkind
      cases hkind
    obtain rfl | rfl := hends hzp hptrivia
    · obtain heq | heq := hends hzq hqtrivia
      · exact hopens heq
      · exact (hkinds heq).elim
    · obtain heq | heq := hends hzq hqtrivia
      · exact (hkinds heq.symm).elim
      · exact hcloses heq
  | true =>
    rw [hds] at hp hq hpo hpc hqo hqc
    have hpr := p.rank_gone hp hdraft.filledAll (filled_inner h (hp.trans hds.symm)) hzp ht
    have hqr := q.rank_gone hq hdraft.filledAll (filled_inner h (hq.trans hds.symm)) hzq ht
    obtain hpr | hpr := hpr
    · obtain hqr | hqr := hqr
      · exact hopens (eq_of_rank hpo hqo p.isTrivia_opening q.isTrivia_opening (by omega))
      · exact (hmeet (hds ▸ hpo) (hds ▸ hqc) (by omega)).elim
    · obtain hqr | hqr := hqr
      · exact (hmeet (hds ▸ hqo) (hds ▸ hpc) (by omega)).elim
      · exact hcloses (eq_of_rank hpc hqc p.isTrivia_closing q.isTrivia_closing (by omega))

theorem mem_goneIn {z : Zipper} : z ∈ goneIn (parse t).tree ↔
    ∃ p : Parens, p.zipper.root = (parse t).tree ∧ (check p.zipper).findings ≠ [] ∧ z ∈ p.gone := by
  rw [goneIn, List.mem_flatMap]
  constructor
  · rintro ⟨y, hy, hz⟩
    have hroot : y.root = (parse t).tree := root_preorderOf [] _ y hy
    have hne : (check y).findings ≠ [] := by
      intro hnil
      rw [goneAt, hnil] at hz
      cases hz
    obtain ⟨p, rfl⟩ := exists_reported h hroot hne
    exact ⟨p, hroot, hne, by rwa [goneAt_parens hne] at hz⟩
  · rintro ⟨p, hroot, hne, hz⟩
    refine ⟨p.zipper, ?_, by rwa [goneAt_parens hne]⟩
    rw [← hroot]
    exact mem_preorder p.zipper

theorem nodup_goneIn : (goneIn (parse t).tree).Nodup := by
  have hreported {y : Zipper} (hy : y ∈ (ofRoot (parse t).tree).preorder) {z : Zipper} (hz : z ∈ goneAt y) :
      ∃ p : Parens, p.zipper = y ∧ p.zipper.root = (parse t).tree ∧ z ∈ p.gone := by
    have hroot : y.root = (parse t).tree := root_preorderOf [] _ y hy
    have hne : (check y).findings ≠ [] := by
      intro hnil
      rw [goneAt, hnil] at hz
      cases hz
    obtain ⟨p, rfl⟩ := exists_reported h hroot hne
    exact ⟨p, rfl, hroot, by rwa [goneAt_parens hne] at hz⟩
  rw [goneIn, List.nodup_flatMap]
  constructor
  · intro y hy
    have hroot : y.root = (parse t).tree := root_preorderOf [] _ y hy
    by_cases hne : (check y).findings = []
    · rw [goneAt, hne]
      exact List.nodup_nil
    · obtain ⟨p, rfl⟩ := exists_reported h hroot hne
      rw [goneAt_parens hne]
      exact (gone_parens h hroot).2.1
  · have hnodup : (ofRoot (parse t).tree).preorder.Nodup := nodup_preorderOf [] _
    refine hnodup.pairwise_of_forall_ne fun y hy y' hy' hne z hz hz' => ?_
    obtain ⟨p, rfl, hp, hzp⟩ := hreported hy hz
    obtain ⟨q, rfl, hq, hzq⟩ := hreported hy' hz'
    exact hne (zipper_of_gone h hp hq hzp hzq)

theorem goes_erase {z : Zipper} (hz : z ∈ leaves (parse t).tree) (hsig : z.token.isTrivia = false) :
    goes z.erase = true ↔ z ∈ goneIn (parse t).tree := by
  obtain ⟨hroot, htok⟩ := root_leavesOf [] (parse t).tree z hz
  obtain ⟨ds, hds⟩ : ∃ ds, (parse t).tree = .node .compilationUnit ds := ⟨_, rfl⟩
  obtain ⟨f, fs, habove⟩ := exists_frame (hroot.trans hds) htok
  have hup : z.up? = some ⟨f.fill z.focus, fs⟩ := by rw [up?, habove]
  have hplace : plug (f.fill z.focus) fs = (parse t).tree := by
    rw [root, habove] at hroot
    exact hroot
  have hsig' : z.focus.isTrivia = false := by
    rw [focus_leaf htok]
    exact hsig
  have hplain := (draft_parse h).plain
  have hpaired := paired_parse h
  rw [← hplace] at hplain hpaired
  rw [erase_plug rfl] at hpaired
  have hgoes : goes z.erase = isSpare (fs.map Frame.erase) (f.fill z.focus).erase := by
    rw [goes, erase, habove, Frame.erase_fill hsig']
    rfl
  rw [hgoes, ← reports_iff (z := ⟨f.fill z.focus, fs⟩) (each_plug hplain) (each_plug hpaired), mem_goneIn h]
  constructor
  · intro hne
    obtain ⟨p, hp⟩ := exists_reported h (z := ⟨f.fill z.focus, fs⟩) hplace hne
    rw [← hp] at hup hne
    refine ⟨p, by rw [hp]; exact hplace, hne, ?_⟩
    obtain rfl | rfl := p.eq_of_up? hup htok hsig'
    · simp [Parens.gone]
    · simp [Parens.gone]
  · rintro ⟨p, hp, hne, hz⟩
    have hends : z = p.openZipper ∨ z = p.closeZipper := by
      obtain hz | hz := List.mem_append.mp hz
      · rw [(gone_parens h hp).2.2 z hz] at hsig
        cases hsig
      · simpa using hz
    have hsame : p.zipper = ⟨f.fill z.focus, fs⟩ := by
      refine Option.some.inj ?_
      rw [← hup]
      obtain rfl | rfl := hends
      · exact p.up?_openZipper.symm
      · exact p.up?_closeZipper.symm
    rwa [← hsame]

theorem trait_of_goes {z : Zipper} (hz : z ∈ leaves (parse t).tree) (hsig : z.token.isTrivia = false)
    (hgoes : goes z.erase = true) : z.cell.trait = (.lParen, true) ∨ z.cell.trait = (.rParen, true) := by
  obtain ⟨p, hp, -, hzp⟩ := (mem_goneIn h).mp ((goes_erase h hz hsig).mp hgoes)
  obtain hmem | hmem := List.mem_append.mp hzp
  · rw [(gone_parens h hp).2.2 z hmem] at hsig
    cases hsig
  · obtain rfl | rfl : z = p.openZipper ∨ z = p.closeZipper := by simpa using hmem
    · exact .inl p.trait_openZipper
    · exact .inr p.trait_closeZipper

theorem default_of_closing {y z : Zipper} (hy : y ∈ leaves (parse t).tree) (hz : z ∈ leaves (parse t).tree)
    (hysig : y.token.isTrivia = false) (hzsig : z.token.isTrivia = false) (hrank : z.rank = y.rank + 1)
    (hkey : y.cell.kind ∈ KeywordSpacing.kinds) (hclose : z.cell.trait = (.rParen, true)) :
    y.cell.kind = .defaultKw ∧ y.cell.owner ≠ .defaultExpr := by
  have hbar := mayMeet_of_rank h hy hz hysig hzsig hrank .keyword
  rw [hclose] at hbar
  have hdefault : y.cell.kind = .defaultKw := by
    by_contra hne
    have hlead : y.cell.kind ∈ leadingWords := List.mem_filter.mpr ⟨hkey, by simpa using hne⟩
    exact absurd (hbar (by simpa [Bar.raisedBy, Cell.trait] using hlead)) (by decide)
  refine ⟨hdefault, fun howner => ?_⟩
  have hopens := kind_of_default h hy hz hysig hzsig hrank hdefault howner
  rw [show z.cell.kind = .rParen from congrArg (·.1) hclose] at hopens
  cases hopens

theorem gap_stays {ls gs qs : List Zipper} {z : Zipper} {w : Word} {ws : List Word}
    (hleaves : leaves (parse t).tree = ls ++ z :: (gs ++ qs)) (hz : z.cell = w.head) (hgs : gs.map cell = w.gap)
    (hspacing : KeywordSpacing.spacingOf? w ws ≠ none) {g : Zipper} (hg : g ∈ gs) :
    g ∉ goneIn (parse t).tree := by
  rw [mem_goneIn h]
  rintro ⟨p, hp, -, hgone⟩
  have hkey : w.head.kind ∈ KeywordSpacing.kinds := by
    by_contra hkey
    exact hspacing (if_neg hkey)
  have htrivia {y : Zipper} (hy : y ∈ gs) : y.token.isTrivia = true :=
    w.gap_trivia y.cell (by rw [← hgs]; exact List.mem_map_of_mem hy)
  have hzsig : z.token.isTrivia = false := by
    rw [show z.token.isTrivia = z.cell.isTrivia from rfl, hz]
    exact w.head_significant
  obtain ⟨ds, hds⟩ : ∃ ds, (parse t).tree = .node .compilationUnit ds := ⟨_, rfl⟩
  have hdraft := draft_parse h
  have hpmem := (gone_parens h hp).1
  have hzmem : z ∈ leaves (parse t).tree := by rw [hleaves]; simp
  have hrank : g.rank = z.rank + 1 := by
    obtain ⟨g₁, g₂, rfl⟩ := List.append_of_mem hg
    have hsplit : leaves (parse t).tree = ls ++ z :: (g₁ ++ g :: (g₂ ++ qs)) := by rw [hleaves]; simp
    rw [hds] at hsplit
    exact rank_succ hsplit hzsig fun y hy => htrivia (List.mem_append_left _ hy)
  have hpo := hpmem p.openZipper (by simp [Parens.gone])
  have hpc := hpmem p.closeZipper (by simp [Parens.gone])
  rw [hds] at hdraft
  obtain hr | hr := p.rank_gone (hp.trans hds) hdraft.filledAll (filled_inner h hp) hgone (htrivia hg)
  · -- The keyword would be an opening parenthesis.
    rw [hds] at hzmem hpo
    obtain rfl := eq_of_rank hzmem hpo hzsig p.isTrivia_opening (by omega)
    have hkind : w.head.kind = .lParen := by
      rw [← hz]
      exact p.isOpening
    rw [hkind] at hkey
    exact absurd hkey (by decide)
  · -- No keyword that is to be spaced comes right before a closing parenthesis.
    have hnext : p.closeZipper.rank = z.rank + 1 := by omega
    obtain ⟨hdefault, howner⟩ := default_of_closing h hzmem hpc hzsig p.isTrivia_closing hnext
      (by rwa [hz]) p.trait_closeZipper
    rw [hz] at hdefault howner
    refine hspacing ?_
    rw [KeywordSpacing.spacingOf?, if_pos hkey, hdefault]
    simp [KeywordSpacing.spacing?, howner]

theorem leaf_of_goneIn {z : Zipper} (hz : z ∈ goneIn (parse t).tree) : z ∈ leaves (parse t).tree := by
  obtain ⟨p, hp, -, hzp⟩ := (mem_goneIn h).mp hz
  exact (gone_parens h hp).1 z hzp

theorem start_mem_iff {gone : List Zipper} (hgone : ∀ z ∈ gone, z ∈ leaves (parse t).tree) {z : Zipper}
    (hz : z ∈ leaves (parse t).tree) : z.start ∈ gone.map (·.start) ↔ z ∈ gone := by
  obtain ⟨ds, hds⟩ : ∃ ds, (parse t).tree = .node .compilationUnit ds := ⟨_, rfl⟩
  have hdraft := draft_parse h
  constructor
  · intro hmem
    obtain ⟨y, hy, heq⟩ := List.mem_map.mp hmem
    have hyl := hgone y hy
    rw [hds] at hdraft hyl hz
    rwa [← eq_of_start hdraft.filledAll hdraft.full_leaf hyl hz heq]
  · exact fun hmem => List.mem_map_of_mem hmem

theorem start_goneIn {z : Zipper} (hz : z ∈ leaves (parse t).tree) :
    z.start ∈ (goneIn (parse t).tree).map (·.start) ↔ z ∈ goneIn (parse t).tree :=
  start_mem_iff h (fun _ => leaf_of_goneIn h) hz

theorem lies_marksFrom (pre : List Zipper) {rest : List Zipper} {ws : List Word}
    (hleaves : leaves (parse t).tree = pre ++ rest)
    (hrest : rest.map cell = Word.flatten ws) : List.Forall₂ Mark.Lies
      (rest.map (goneMark (parse t).tree)) (KeywordSpacing.marksFrom ws) := by
  induction ws generalizing pre rest with
  | nil =>
    rw [List.map_eq_nil_iff.mp hrest]
    exact .nil
  | cons w ws ih =>
    rw [Word.flatten_cons] at hrest
    obtain ⟨z, rest, rfl, hz, hrest⟩ := List.map_eq_cons_iff.mp hrest
    obtain ⟨gs, qs, rfl, hgs, hqs⟩ := List.map_eq_append_iff.mp hrest
    have hsplit : leaves (parse t).tree = (pre ++ z :: gs) ++ qs := by simpa using hleaves
    have htail := ih _ hsplit hqs
    have hplain : List.Forall₂ Mark.Lies
        (gs.map (goneMark (parse t).tree)) (w.gap.map KeywordSpacing.plain) := by
      rw [← hgs, List.map_map, List.forall₂_map_left_iff, List.forall₂_map_right_iff, List.forall₂_same]
      exact fun g _ => ⟨rfl, rfl, .inr rfl⟩
    refine .cons ⟨by rw [KeywordSpacing.plain, ← hz]; rfl, rfl, .inr rfl⟩ ?_
    rw [List.map_append, KeywordSpacing.marksAfter]
    split
    · exact KeywordSpacing.lies_spaceFirst (List.rel_append hplain htail)
    · rename_i hr
      refine List.rel_append ?_ htail
      rw [← hgs, List.map_map, List.forall₂_map_left_iff, List.forall₂_map_right_iff, List.forall₂_same]
      intro g hg
      have hspacing : KeywordSpacing.spacingOf? w ws ≠ none := by
        intro hnone
        rw [KeywordSpacing.ruling, hnone] at hr
        cases hr
      have hstays := gap_stays h hleaves hz hgs hspacing hg
      have hgl : g ∈ leaves (parse t).tree := by rw [hleaves]; simp [hg]
      exact ⟨rfl, rfl, .inl (gone_goneMark_of_stays (mt (start_goneIn h hgl).mp hstays))⟩
    · exact List.rel_append hplain htail

theorem isSome_goneMark {z : Zipper} (hz : z ∈ leaves (parse t).tree) (hsig : z.token.isTrivia = false) :
    (goneMark (parse t).tree z).gone.isSome = goes z.erase := by
  have hgoes := goes_erase h hz hsig
  rw [← start_goneIn h hz] at hgoes
  rw [goneMark, mark]
  split
  · rename_i hgone
    exact (hgoes.mpr hgone).symm
  · rename_i hgone
    exact (Bool.eq_false_iff.mpr (mt hgoes.mp hgone)).symm

omit h in
theorem leaves_outline : leaves (.node .compilationUnit (Outline.bareAll (outline (itemsOf t)).1)) =
    ((leaves (parse t).tree).filter (!·.token.isTrivia)).map Zipper.erase := by
  rw [← erase_parse t]
  exact leavesOf_erase [] (parse t).tree rfl

theorem sheds_goneIn :
    (Mark.sheds 0 ((leaves (parse t).tree).map (goneMark (parse t).tree))).foldr Tree.shedAll
      (Outline.bareAll (outline (itemsOf t)).1) =
    pruneAll .compilationUnit [] [] (Outline.bareAll (outline (itemsOf t)).1) := by
  obtain ⟨ds, hds⟩ : ∃ ds, (parse t).tree = .node .compilationUnit ds := ⟨_, rfl⟩
  have hpaired := paired_parse h
  have herase := erase_parse t
  have hmarks : Marks isSpareAt (goneMark (parse t).tree) (leaves (parse t).tree) := by
    intro z hz hsig
    have htok := (root_leavesOf [] (parse t).tree z hz).2
    rw [isSome_goneMark h hz hsig, goes_eq_any (by rw [focus_leaf htok]; exact hsig)]
  have hprune := unwrap_isSpareAt [] (parse t).tree rfl hpaired
  have hunit : Kind.compilationUnit ≠ .parenExpr := by decide
  have hroot : isSpareAt ⟨.node .compilationUnit ds, []⟩ = false := isSpare_of_ne hunit
  rw [hds] at hpaired hmarks hprune herase ⊢
  rw [Tree.erase, Tree.node.injEq] at herase
  rw [← herase.2, foldr_sheds (fun _ => kind_of_isSpareAt) (fun _ => rfl) hroot hpaired hmarks]
  rw [unwrap_kept hroot, Tree.erase, prune_kept (isSpare_of_ne hunit), Tree.node.injEq] at hprune
  exact hprune.2

end Faultless

def marksOf (t : Text) (lead : List Cell) (ws : List Word) : List Mark :=
  List.zipWith Mark.atop ((leaves (parse t).tree).map (goneMark (parse t).tree))
    (lead.map KeywordSpacing.plain ++ KeywordSpacing.marksFrom ws)

/-- What is left of a text when its keywords and parentheses have been fixed: the pruned tree, and what became of each
token. -/
structure Fixed (t : Text) (lead : List Cell) (ws : List Word) (ps : List Patch) (tree : Tree) : Prop where
  marks : ps.map (·.toMark) = marksOf t lead ws
  filling : Patch.Filling none ps
  draft : Draft .compilationUnit (pruneAll .compilationUnit [] [] (Outline.bareAll (outline (itemsOf t)).1)) tree
    (ps.flatMap Patch.image)

section Apply

variable {t : Text} (h : (parse t).faults = []) {lead : List Cell} {ws : List Word}
  (hcells : (parse t).tree.cells .compilationUnit = lead ++ Word.flatten ws)

include h hcells

theorem lies_marks : List.Forall₂ Mark.Lies ((leaves (parse t).tree).map (goneMark (parse t).tree))
    (lead.map KeywordSpacing.plain ++ KeywordSpacing.marksFrom ws) := by
  have hmap : (leaves (parse t).tree).map cell = lead ++ Word.flatten ws := by
    rw [← hcells]
    exact map_cell_leavesAll .compilationUnit [] [] (parse t).tree.children
  obtain ⟨pre, rest, hleaves, hpre, hrest⟩ := List.map_eq_append_iff.mp hmap
  have htail := lies_marksFrom h pre hleaves hrest
  rw [hleaves, List.map_append]
  refine List.rel_append ?_ htail
  rw [← hpre, List.map_map, List.forall₂_map_left_iff, List.forall₂_map_right_iff, List.forall₂_same]
  exact fun z _ => ⟨rfl, rfl, .inr rfl⟩

theorem map_token_marksOf : (marksOf t lead ws).map (·.token) = (parse t).tree.tokens := by
  rw [marksOf, Mark.map_token_atop (lies_marks h hcells), List.map_append, KeywordSpacing.map_token_marksFrom,
    List.map_map, ← Tree.map_toToken_cells .compilationUnit, hcells, List.map_append]
  rfl

theorem able_marksOf : Mark.Able (Tree.cellsAll .compilationUnit (Outline.bareAll (outline (itemsOf t)).1)) []
    (marksOf t lead ws) := by
  obtain ⟨ds, hds⟩ : ∃ ds, (parse t).tree = .node .compilationUnit ds := ⟨_, rfl⟩
  have hdraft := draft_parse h
  have hown : ∀ z ∈ leaves (parse t).tree, z.start ∈ (goneIn (parse t).tree).map (·.start) → z.token.isTrivia = false →
      z.cell.owner = .parenExpr := by
    intro z hz hstart hsig
    obtain htrait | htrait := trait_of_goes h hz hsig ((goes_erase h hz hsig).mpr ((start_goneIn h hz).mp hstart))
    · exact beq_iff_eq.mp (congrArg (·.2) htrait)
    · exact beq_iff_eq.mp (congrArg (·.2) htrait)
  refine Mark.able_atop (lies_marks h hcells) ?_ (KeywordSpacing.able_plain (KeywordSpacing.able_marksFrom _ ws))
  rw [goneMark]
  rw [hds] at hdraft hown ⊢
  exact able_mark id hdraft hown [] rfl

omit h hcells in
theorem isTrivia_of_gone_plain {n : Mark} (hn : n ∈ lead.map KeywordSpacing.plain ++ KeywordSpacing.marksFrom ws)
    (hgone : n.gone.isSome = true) : n.token.isTrivia = true := by
  obtain hn | hn := List.mem_append.mp hn
  · obtain ⟨c, -, rfl⟩ := List.mem_map.mp hn
    cases hgone
  · exact KeywordSpacing.isTrivia_of_gone_marksFrom n hn hgone

theorem sheds_marksOf : Mark.sheds 0 (marksOf t lead ws) =
    Mark.sheds 0 ((leaves (parse t).tree).map (goneMark (parse t).tree)) :=
  Mark.sheds_atop (lies_marks h hcells) (fun _ hn hgone => isTrivia_of_gone_plain hn hgone) 0

theorem parts_marksOf : ((goneIn (parse t).tree).map (fun z => (id, z.takingPart)) ++
      Batch.tagged (KeywordSpacing.editsFrom (Cell.extent lead) ws)).Perm (Mark.parts none 0 (marksOf t lead ws)) := by
  obtain ⟨ds, hds⟩ : ∃ ds, (parse t).tree = .node .compilationUnit ds := ⟨_, rfl⟩
  have hdraft := draft_parse h
  have hkeywords : Batch.tagged (KeywordSpacing.editsFrom (Cell.extent lead) ws) =
      Mark.parts none 0 (lead.map KeywordSpacing.plain ++ KeywordSpacing.marksFrom ws) := by
    obtain ⟨last, hlast⟩ := KeywordSpacing.exists_parts_plain lead (KeywordSpacing.marksFrom ws) none 0
    rw [hlast, Nat.zero_add, KeywordSpacing.parts_marksFrom, KeywordSpacing.tagged_editsFrom]
  have hparens : ((goneIn (parse t).tree).map (fun z => (id, z.takingPart))).Perm
      (Mark.parts none 0 ((leaves (parse t).tree).map (goneMark (parse t).tree))) := by
    have hgone : ∀ z ∈ goneIn (parse t).tree, z ∈ leaves (parse t).tree := fun z hz => leaf_of_goneIn h hz
    have hnodup := nodup_goneIn h
    rw [goneMark]
    rw [hds] at hdraft hgone hnodup ⊢
    have hmarked := parts_mark hdraft.filledAll id ((goneIn (.node .compilationUnit ds)).map (·.start)) []
      (List.nil_append (leaves (.node .compilationUnit ds))).symm none
    exact ((filter_start hdraft.filledAll hdraft.full_leaf hgone hnodup).map _).trans (.of_eq hmarked.symm)
  exact (hparens.append (.of_eq hkeywords)).trans (Mark.parts_atop (lies_marks h hcells) none 0).symm

variable (hlead : ∀ c ∈ lead, c.isTrivia = true) {e : FixEngine} (hrules : e.registry.rules = builtinRules)

include hlead hrules

theorem perm_edits :
    (((ofRoot (parse t).tree).preorder.flatMap (fun z => KeywordSpacing.findingsAt z ++ findingsAt z)).filterMap
      (e.editOf? (parse t).tree)).Perm
    (((ofRoot (parse t).tree).preorder.flatMap findingsAt).filterMap (e.editOf? (parse t).tree) ++
      KeywordSpacing.editsFrom (Cell.extent lead) ws) := by
  have hlayout := KeywordSpacing.layout_parse h
  rw [hcells] at hlayout
  have hwords := flatMap_findingsAt_preorder hlayout hlead
  have hkeywords := filterMap_keywords hrules hlayout
  rw [← hwords] at hkeywords
  rw [← hkeywords, ← List.filterMap_append]
  exact ((List.flatMap_append_perm _ _ _).symm.trans List.perm_append_comm).filterMap _

theorem apply_builtin {edits : List Edit} (hedits : edits = ((ofRoot (parse t).tree).preorder.flatMap
      (fun z => KeywordSpacing.findingsAt z ++ findingsAt z)).filterMap (e.editOf? (parse t).tree)) (hne : edits ≠ [])
    (path : Option String) :
    ∃ ps tree, Fixed t lead ws ps tree ∧ Batch.apply (.ofText t path) edits false = .ok
      { source := { tree, path }, applied := edits.map (·.finding), edits := Patch.made 0 ps
        offsets := Batch.deltas (Patch.made 0 ps) } := by
  have hperm := perm_edits h hcells hlead hrules
  rw [← hedits] at hperm
  obtain ⟨htagged, hparts⟩ := tagged_parens h hrules
  have hrow : (Batch.tagged edits).Perm (Mark.parts none 0 (marksOf t lead ws)) := by
    refine (hperm.flatMap_right _).trans ?_
    rw [List.flatMap_append]
    exact (List.Perm.append_right _ (.of_eq htagged)).trans (parts_marksOf h hcells)
  have hfull : ∀ edit ∈ edits, edit.parts ≠ [] := by
    intro edit hedit
    obtain hmem | hmem := List.mem_append.mp (hperm.mem_iff.mp hedit)
    · exact hparts edit hmem
    · exact (KeywordSpacing.mem_editsFrom hmem).2
  have hdraft : Draft .compilationUnit (Outline.bareAll (outline (itemsOf t)).1) (Source.ofText t path).tree
      ((marksOf t lead ws).map (·.token)) := by
    rw [map_token_marksOf h hcells]
    exact draft_parse h
  obtain ⟨ps, tree, hmarks, hfilling, hpruned, happly⟩ :=
    Batch.apply_marks hdraft (by decide) (able_marksOf h hcells) hrow hne hfull
  rw [sheds_marksOf h hcells, sheds_goneIn h] at hpruned
  exact ⟨ps, tree, ⟨hmarks, hfilling, hpruned⟩, happly⟩

end Apply

end Parentheses

end Lintel
