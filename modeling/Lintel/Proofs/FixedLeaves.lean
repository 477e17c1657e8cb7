import Lintel.Proofs.BuiltinBatch
import Lintel.Proofs.PatchedOffsets

namespace Lintel

theorem forall₂_split {α β : Type} {R : α → β → Prop} {as : List α} {b : β} {bs bs' : List β}
    (h : List.Forall₂ R as (bs ++ b :: bs')) : ∃ cs a cs', as = cs ++ a :: cs' ∧ List.Forall₂ R cs bs ∧ R a b ∧
      List.Forall₂ R cs' bs' := by
  have htake := List.forall₂_take_append _ _ _ h
  have hdrop := List.forall₂_drop_append _ _ _ h
  have hsplit := (List.take_append_drop bs.length as).symm
  cases hrest : as.drop bs.length with
  | nil =>
    rw [hrest] at hdrop
    cases hdrop
  | cons a cs =>
    rw [hrest] at hdrop hsplit
    obtain _ | ⟨hab, htail⟩ := hdrop
    exact ⟨_, a, cs, hsplit, htake, hab, htail⟩

theorem Token.weight_eq_zero {us : List Token} (h : ∀ u ∈ us, u.isTrivia = true) : weight us = 0 := by
  rw [weight, List.length_eq_zero_iff, List.filter_eq_nil_iff]
  intro u hu
  simp [h u hu]

namespace Patch

variable {last : Option Token} {ps : List Patch}

theorem isTrivia_lead {p : Patch} : ∀ u ∈ p.lead, u.isTrivia = true := by
  intro u hu
  rw [lead] at hu
  split at hu
  · rw [List.mem_singleton.mp hu]
    rfl
  · cases hu

theorem Filling.isTrivia (h : Filling last ps) :
    ∀ p ∈ ps, p.gone.isSome = true → ∀ u ∈ p.filler, u.isTrivia = true := by
  induction ps generalizing last with
  | nil =>
    intro x hx
    cases hx
  | cons q ps ih =>
    intro p hp hgone
    obtain rfl | hp := List.mem_cons.mp hp
    · intro u hu
      rw [(h.1 hgone).isTrivia u hu]
      rfl
    · exact ih h.2 p hp hgone

theorem Filling.exists_patch (h : Filling last ps) {as cs : List Token} {b : Token} (hb : b.isTrivia = false)
    (himage : ps.flatMap image = as ++ b :: cs) : ∃ (pre : List Patch) (p : Patch) (post : List Patch),
      ps = pre ++ p :: post ∧ p.gone = none ∧ p.token = b ∧ as = pre.flatMap image ++ p.lead ∧
      cs = post.flatMap image := by
  have hfill := h.isTrivia
  clear h
  induction ps generalizing as with
  | nil => simp at himage
  | cons p ps ih =>
    have htail (as' : List Token) (has : as = p.image ++ as') (hrest : ps.flatMap image = as' ++ b :: cs) :
        ∃ (pre : List Patch) (q : Patch) (post : List Patch), p :: ps = pre ++ q :: post ∧ q.gone = none ∧ q.token = b ∧
          as = pre.flatMap image ++ q.lead ∧ cs = post.flatMap image := by
      obtain ⟨pre, q, post, rfl, hgone, htoken, rfl, hcs⟩ := ih hrest (fun r hr => hfill r (List.mem_cons_of_mem _ hr))
      exact ⟨p :: pre, q, post, rfl, hgone, htoken, by rw [has, List.flatMap_cons, List.append_assoc], hcs⟩
    rw [List.flatMap_cons] at himage
    obtain ⟨as', has, hrest⟩ | ⟨bs, hbs, hrest⟩ := List.append_eq_append_iff.mp himage
    · exact htail as' has hrest
    · cases bs with
      | nil => exact htail [] (by simpa using hbs.symm) hrest.symm
      | cons b' bs =>
        obtain ⟨rfl, rfl⟩ := List.cons.inj hrest
        -- It is the token itself, since all else is trivia.
        have hgone : p.gone = none := by
          cases hg : p.gone with
          | none => rfl
          | some rule =>
            have hmem : b ∈ p.lead ++ p.filler := by
              rw [image, hg] at hbs
              rw [show p.lead ++ p.filler = as ++ b :: bs from hbs]
              simp
            obtain hmem | hmem := List.mem_append.mp hmem
            · rw [isTrivia_lead b hmem] at hb
              cases hb
            · rw [hfill p List.mem_cons_self (by rw [hg]; rfl) b hmem] at hb
              cases hb
        have hsplit : p.lead ++ [p.token] = as ++ b :: bs := by
          rw [image, hgone] at hbs
          exact hbs
        have hlead : b ∉ p.lead := by
          intro hmem
          rw [isTrivia_lead b hmem] at hb
          cases hb
        obtain ⟨cs, hcs, hend⟩ | ⟨cs, hcs, hend⟩ := List.append_eq_append_iff.mp hsplit
        · cases cs with
          | nil =>
            obtain ⟨rfl, rfl⟩ := List.cons.inj hend
            exact ⟨[], p, ps, rfl, hgone, rfl, by simpa using hcs, rfl⟩
          | cons c cs => simp at hend
        · cases cs with
          | nil =>
            obtain ⟨rfl, rfl⟩ := List.cons.inj hend
            exact ⟨[], p, ps, rfl, hgone, rfl, by simpa using hcs.symm, rfl⟩
          | cons c cs =>
            obtain ⟨rfl, -⟩ := List.cons.inj hend
            exact absurd (by rw [hcs]; simp) hlead

theorem weight_lead (p : Patch) : Token.weight p.lead = 0 :=
  Token.weight_eq_zero isTrivia_lead

theorem weight_image {p : Patch} (h : p.gone.isSome = true → ∀ u ∈ p.filler, u.isTrivia = true) :
    Token.weight p.image = if p.gone.isSome then 0 else Token.weight [p.token] := by
  rw [image, Token.weight_append, weight_lead, Nat.zero_add]
  split
  · rename_i hgone
    exact Token.weight_eq_zero (h hgone)
  · rfl

end Patch

theorem Tree.mem_eraseAll {c : Tree} {cs : List Tree} (h : c ∈ eraseAll cs) : ∃ d ∈ cs, d.erase = c := by
  induction cs with
  | nil => cases h
  | cons d cs ih =>
    rw [eraseAll] at h
    split at h
    · obtain ⟨e, he, rfl⟩ := ih h
      exact ⟨e, List.mem_cons_of_mem _ he, rfl⟩
    · obtain rfl | h := List.mem_cons.mp h
      · exact ⟨d, List.mem_cons_self, rfl⟩
      · obtain ⟨e, he, rfl⟩ := ih h
        exact ⟨e, List.mem_cons_of_mem _ he, rfl⟩

mutual

theorem Tree.plain_erase : (t : Tree) → t.Each Plain → t.erase.Each Plain
  | .token _ _, _ => trivial
  | .node k cs, h => by
    refine ⟨fun hk c hc => ?_, plain_eraseAll cs h.2⟩
    obtain ⟨d, hd, rfl⟩ := mem_eraseAll hc
    have hlit := h.1 hk d hd
    cases d with
    | token k u => exact hlit
    | node k ds => exact hlit

theorem Tree.plain_eraseAll : (ts : List Tree) → EachAll Plain ts → EachAll Plain (eraseAll ts)
  | [], _ => trivial
  | t :: ts, h => by
    rw [eraseAll]
    split
    · exact plain_eraseAll ts h.2
    · exact ⟨plain_erase t h.1, plain_eraseAll ts h.2⟩

end

theorem Zipper.span_up {y z : Zipper} (h : z.up? = some y) :
    y.span.start ≤ z.span.start ∧ z.span.stop ≤ y.span.stop := by
  obtain ⟨focus, above⟩ := z
  cases above with
  | nil => cases h
  | cons f fs =>
    obtain rfl : (⟨f.fill focus, fs⟩ : Zipper) = y := Option.some.inj h
    have hstart : start ⟨focus, f :: fs⟩ = Tree.sizeAll f.left + start ⟨f.fill focus, fs⟩ := rfl
    have hsize : (f.fill focus).size = Tree.sizeAll f.left + (focus.size + Tree.sizeAll f.right) := by
      rw [Frame.fill, Tree.size_node, Tree.sizeAll_append, Tree.sizeAll_reverse, Tree.sizeAll_cons]
    simp only [span, Span.stop]
    omega

theorem Parens.erase_openZipper (p : Parens) : p.openZipper.above.map Frame.erase =
    ⟨.parenExpr, [], [p.inner.erase, .leaf p.closing]⟩ :: p.above.map Frame.erase := by
  have hlead : Tree.eraseAll p.lead = [] := Tree.eraseAll_of_trivia fun u hu => p.trivia u (by simp [hu])
  have hchildren := p.eraseAll_children
  rw [Parens.children, Tree.eraseAll_append, hlead, Tree.eraseAll_cons (t := .leaf p.opening) p.isTrivia_opening]
    at hchildren
  obtain ⟨-, hrest⟩ := List.cons.inj hchildren
  rw [Parens.openZipper, List.map_cons, Frame.erase, List.reverse_reverse, hlead, hrest]
  rfl

namespace Parentheses

open Zipper Grammar

def Matched (z : Zipper) (p : Patch) : Prop :=
  p.token = z.token ∧ (z.token.isTrivia = false → p.gone.isSome = goes z.erase)

theorem tokens_matched {zs : List Zipper} {ps : List Patch} (h : List.Forall₂ Matched zs ps) :
    zs.map token = ps.map (·.token) := by
  induction h with
  | nil => rfl
  | cons hzp _ ih => rw [List.map_cons, List.map_cons, hzp.1, ih]

theorem weight_matched {zs : List Zipper} {ps : List Patch} (h : List.Forall₂ Matched zs ps)
    (hfill : ∀ p ∈ ps, p.gone.isSome = true → ∀ u ∈ p.filler, u.isTrivia = true) :
    Token.weight (ps.flatMap Patch.image) = (zs.filter (fun z => !goes z.erase && !z.token.isTrivia)).length := by
  induction h with
  | nil => rfl
  | @cons z p zs ps hzp _ ih =>
    have hrest := ih (fun q hq => hfill q (List.mem_cons_of_mem _ hq))
    rw [List.flatMap_cons, Token.weight_append, hrest, Patch.weight_image (hfill p List.mem_cons_self), hzp.1,
      List.filter_cons]
    cases hsig : z.token.isTrivia with
    | true =>
      have hzero : Token.weight [z.token] = 0 := by simp [Token.weight, hsig]
      simp [hzero]
    | false =>
      have hone : Token.weight [z.token] = 1 := by simp [Token.weight, hsig]
      rw [hzp.2 hsig, hone]
      cases goes z.erase with
      | true => simp
      | false => simp [Nat.add_comm]

section Fixed

variable {t : Text} (h : (parse t).faults = []) {lead : List Cell} {ws : List Word}
  (hcells : (parse t).tree.cells .compilationUnit = lead ++ Word.flatten ws) {ps : List Patch} {tree : Tree}
  (hfix : Fixed t lead ws ps tree)

include h hfix

include hcells in
theorem Fixed.matched : List.Forall₂ Matched (leaves (parse t).tree) ps := by
  have hgeneral (zs : List Zipper) (hzs : ∀ z ∈ zs, z ∈ leaves (parse t).tree) (ns : List Mark)
      (hlies : List.Forall₂ Mark.Lies (zs.map (goneMark (parse t).tree)) ns)
      (hns : ∀ n ∈ ns, n.gone.isSome = true → n.token.isTrivia = true) :
      List.Forall₂ (fun z m => m.token = z.token ∧ (z.token.isTrivia = false → m.gone.isSome = goes z.erase)) zs
        (List.zipWith Mark.atop (zs.map (goneMark (parse t).tree)) ns) := by
    induction zs generalizing ns with
    | nil => exact .nil
    | cons z zs ih =>
      rw [List.map_cons] at hlies ⊢
      cases hlies with
      | @cons _ n _ ns hzn hlies =>
        have htoken : n.token = z.token := hzn.1.symm
        have hrest := ih (fun y hy => hzs y (List.mem_cons_of_mem _ hy)) ns hlies
          (fun m hm => hns m (List.mem_cons_of_mem _ hm))
        rw [List.zipWith_cons_cons]
        refine .cons ⟨(Mark.token_atop _ _).trans htoken, fun hsig => ?_⟩ hrest
        have hn : n.gone = none := by
          rw [← Option.not_isSome_iff_eq_none]
          intro hgone
          have htrivia := hns n List.mem_cons_self hgone
          rw [htoken, hsig] at htrivia
          cases htrivia
        rw [← isSome_goneMark h (hzs z List.mem_cons_self) hsig, Mark.gone_atop, hn, Option.or_none]
  have hmarks := hgeneral _ (fun _ hz => hz) _ (lies_marks h hcells) (fun _ hn hgone => isTrivia_of_gone_plain hn hgone)
  rw [← marksOf, ← hfix.marks, List.forall₂_map_right_iff] at hmarks
  exact hmarks

include hcells in
theorem Fixed.full_patches : ∀ p ∈ ps, 0 < p.token.text.size := by
  intro p hp
  have hmem : p.token ∈ ps.map (·.toMark.token) := List.mem_map_of_mem hp
  have hmarks := congrArg (List.map (·.token)) hfix.marks
  rw [map_token_marksOf h hcells, List.map_map] at hmarks
  refine (draft_parse h).full p.token ?_
  rw [← hmarks]
  exact hmem

omit h in
theorem Fixed.exists_children : ∃ ds, tree = .node .compilationUnit ds := by
  have herase := hfix.draft.erase
  cases tree with
  | token k u => cases herase
  | node k ds =>
    obtain ⟨rfl, -⟩ := Tree.node.inj herase
    exact ⟨ds, rfl⟩

omit h in
theorem Fixed.erase_eq : tree.erase = prune [] (.node .compilationUnit (Outline.bareAll (outline (itemsOf t)).1)) := by
  have hne : Kind.compilationUnit ≠ .parenExpr := by decide
  rw [hfix.draft.erase, prune_kept (isSpare_of_ne hne)]

theorem Fixed.slimmed : List.Forall₂ (fun z y => Slimmed z.erase y.erase)
    ((leaves (parse t).tree).filter (fun z => !goes z.erase && !z.token.isTrivia))
    ((leaves tree).filter (!·.token.isTrivia)) := by
  have hpaired := paired_parse h
  rw [erase_parse] at hpaired
  have hprune := leaves_prune [] _ rfl hpaired [] .nil
  have hnew : leavesOf [] tree.erase = ((leaves tree).filter (!·.token.isTrivia)).map Zipper.erase := by
    obtain ⟨ds, rfl⟩ := hfix.exists_children
    exact leavesOf_erase [] _ rfl
  rw [← hfix.erase_eq, hnew, ← leaves, leaves_outline, List.filter_map, List.forall₂_map_left_iff,
    List.forall₂_map_right_iff, List.filter_filter] at hprune
  exact hprune

end Fixed

/-- A significant leaf that stays, with what stands around it before and after the text is fixed. -/
structure Survivor (t : Text) (ps : List Patch) (tree : Tree) where
  before : List Zipper
  old : Zipper
  after : List Zipper
  pre : List Patch
  patch : Patch
  post : List Patch
  newBefore : List Zipper
  new : Zipper
  newAfter : List Zipper
  leaves_old : leaves (parse t).tree = before ++ old :: after
  leaves_new : leaves tree = newBefore ++ new :: newAfter
  patches : ps = pre ++ patch :: post
  significant : old.token.isTrivia = false
  stays : patch.gone = none
  matched_before : List.Forall₂ Matched before pre
  matched : Matched old patch
  matched_after : List.Forall₂ Matched after post
  token_new : new.token = old.token
  tokens_before : newBefore.map token = pre.flatMap Patch.image ++ patch.lead
  tokens_after : newAfter.map token = post.flatMap Patch.image
  slimmed : Slimmed old.erase new.erase

section Survivors

variable {t : Text} (h : (parse t).faults = []) {lead : List Cell} {ws : List Word}
  (hcells : (parse t).tree.cells .compilationUnit = lead ++ Word.flatten ws) {ps : List Patch} {tree : Tree}
  (hfix : Fixed t lead ws ps tree)

include h hcells hfix

theorem Fixed.exists_survivor {ls rs : List Zipper} {z : Zipper} (hleaves : leaves (parse t).tree = ls ++ z :: rs)
    (hsig : z.token.isTrivia = false) (hstays : goes z.erase = false) :
    ∃ s : Survivor t ps tree, s.before = ls ∧ s.old = z ∧ s.after = rs := by
  have hmatched := hfix.matched h hcells
  rw [hleaves] at hmatched
  obtain ⟨pre, p, post, rfl, hpre, hzp, hpost⟩ := forall₂_split hmatched.flip
  have hgone : p.gone = none := by
    have hsome := hzp.2 hsig
    rwa [hstays, Option.isSome_eq_false_iff, Option.isNone_iff_eq_none] at hsome
  have hdraft := hfix.draft
  have himage : (pre ++ p :: post).flatMap Patch.image =
      (pre.flatMap Patch.image ++ p.lead) ++ p.token :: post.flatMap Patch.image := by
    simp [Patch.image, hgone]
  rw [himage] at hdraft
  obtain ⟨ds, ls', y, rs', rfl, -, hnew, hls', hy, hrs'⟩ := hdraft.exists_leaf
  have hslimmed := hfix.slimmed h
  rw [hleaves, hnew, List.filter_append, List.filter_append, List.filter_cons_of_pos (by simp [hsig, hstays]),
    List.filter_cons_of_pos (by rw [hy, hzp.1, hsig]; rfl)] at hslimmed
  -- As many leaves stay before the leaf as there are significant ones before what it became.
  have hlength : (ls'.filter (!·.token.isTrivia)).length =
    (ls.filter (fun z => !goes z.erase && !z.token.isTrivia)).length := by
    have hweight : Token.weight (ls'.map token) = Token.weight (pre.flatMap Patch.image) := by
      rw [hls', Token.weight_append, Patch.weight_lead, Nat.add_zero]
    rw [← weight_matched hpre.flip fun q hq => hfix.filling.isTrivia q (List.mem_append_left _ hq), ← hweight,
      Token.weight, List.filter_map, List.length_map]
    rfl
  have hrest := List.forall₂_drop_append _ _ _ hslimmed
  rw [hlength, List.drop_left] at hrest
  obtain _ | ⟨hzy, -⟩ := hrest
  exact ⟨⟨ls, z, rs, pre, p, post, ls', y, rs', hleaves, hnew, rfl, hsig, hgone, hpre.flip, hzp, hpost.flip,
    hy.trans hzp.1, hls', hrs', hzy⟩, rfl, rfl, rfl⟩

theorem Fixed.exists_survivor_new {ls rs : List Zipper} {y : Zipper} (hleaves : leaves tree = ls ++ y :: rs)
    (hsig : y.token.isTrivia = false) : ∃ s : Survivor t ps tree, s.newBefore = ls ∧ s.new = y ∧ s.newAfter = rs := by
  have hmatched := hfix.matched h hcells
  have htokens : (leaves tree).map token = ps.flatMap Patch.image := by
    obtain ⟨ds, rfl⟩ := hfix.exists_children
    rw [map_token_leaves, hfix.draft.tokens]
  rw [hleaves, List.map_append, List.map_cons] at htokens
  obtain ⟨pre, p, post, rfl, hgone, htoken, hpre, -⟩ := hfix.filling.exists_patch hsig htokens.symm
  obtain ⟨zs, z, rest, hold, hzs, hzp, -⟩ := forall₂_split hmatched
  have hsig' : z.token.isTrivia = false := by rw [← hzp.1, htoken, hsig]
  have hstays : goes z.erase = false := by rw [← hzp.2 hsig', hgone]; rfl
  obtain ⟨s, hbefore, hz, -⟩ := hfix.exists_survivor h hcells hold hsig' hstays
  -- Both stand after equally many leaves.
  have hpatches : s.pre = pre := by
    refine List.append_inj_left s.patches.symm ?_
    rw [← s.matched_before.length_eq, hbefore, hzs.length_eq]
  have hpatch : s.patch = p := by
    have hrest := s.patches
    rw [hpatches, List.append_cancel_left_eq] at hrest
    exact (List.cons.inj hrest).1.symm
  have hlength : ls.length = s.newBefore.length := by
    have hnew := s.tokens_before
    rw [hpatches, hpatch, ← hpre] at hnew
    simpa using (congrArg List.length hnew).symm
  obtain ⟨hls, hcons⟩ := List.append_inj (hleaves.symm.trans s.leaves_new) hlength
  obtain ⟨hy, hrs⟩ := List.cons.inj hcons
  exact ⟨s, hls.symm, hy.symm, hrs.symm⟩

end Survivors

namespace Survivor

variable {t : Text} {ps : List Patch} {tree : Tree} (s : Survivor t ps tree)

theorem goes_old : goes s.old.erase = false := by
  rw [← s.matched.2 s.significant, s.stays]
  rfl

theorem exists_frames : ∃ f fs g gs, s.old.above = f :: fs ∧ s.new.above = g :: gs ∧ g.kind = f.kind ∧
    g.erase.left.map (·.isNode) = f.erase.left.map (·.isNode) ∧
    g.erase.right = pruneAll f.kind (fs.map Frame.erase) (s.old.focus.erase :: f.erase.left) f.erase.right ∧
    Thinned (fs.map Frame.erase) (f.erase.fill s.old.focus.erase) (gs.map Frame.erase) := by
  have hleaf : s.old ∈ leaves (parse t).tree := by rw [s.leaves_old]; simp
  obtain ⟨hroot, htok⟩ := root_leavesOf [] (parse t).tree s.old hleaf
  obtain ⟨ds, hds⟩ : ∃ ds, (parse t).tree = .node .compilationUnit ds := ⟨_, rfl⟩
  obtain ⟨f, fs, habove⟩ := exists_frame (hroot.trans hds) htok
  have hgoes := s.goes_old
  obtain ⟨-, hthin⟩ := s.slimmed
  rw [goes, Zipper.erase, habove] at hgoes
  simp only [Zipper.erase, habove, List.map_cons] at hthin
  generalize hgs : s.new.above.map Frame.erase = gs at hthin
  cases hthin with
  | drop hs _ => cases hs.symm.trans hgoes
  | keep _ hkind hleft hright hrest =>
    obtain ⟨g, gs, hnew, rfl, rfl⟩ := List.map_eq_cons_iff.mp hgs
    exact ⟨f, fs, g, gs, habove, hnew, hkind, hleft, hright, hrest⟩

theorem owner_new : s.new.cell.owner = s.old.cell.owner := by
  obtain ⟨f, fs, g, gs, hold, hnew, hkind, -⟩ := s.exists_frames
  rw [cell, cell, hold, hnew]
  exact hkind

theorem kind_new : s.new.cell.kind = s.old.cell.kind :=
  congrArg (·.kind) s.token_new

section Offsets

variable (h : (parse t).faults = []) {lead : List Cell} {ws : List Word} (hfix : Fixed t lead ws ps tree)

theorem tokens_old : s.before.map token = s.pre.map (·.token) :=
  tokens_matched s.matched_before

include h in
theorem span_old : s.old.span = ⟨Token.extent (s.pre.map (·.token)), s.old.token.text.size⟩ := by
  obtain ⟨ds, hds⟩ : ∃ ds, (parse t).tree = .node .compilationUnit ds := ⟨_, rfl⟩
  have hdraft := draft_parse h
  have hleaves := s.leaves_old
  rw [hds] at hdraft hleaves
  rw [span_leaf hdraft.filledAll hleaves, Cell.extent_eq, map_token, s.tokens_old]
  rfl

include hfix in
theorem span_new : s.new.span =
    ⟨Token.extent (s.pre.flatMap Patch.image) + Token.extent s.patch.lead, s.old.token.text.size⟩ := by
  obtain ⟨ds, rfl⟩ := hfix.exists_children
  rw [span_leaf hfix.draft.filledAll s.leaves_new, Cell.extent_eq, map_token, s.tokens_before, Token.extent_append,
    ← s.token_new]
  rfl

variable (hcells : (parse t).tree.cells .compilationUnit = lead ++ Word.flatten ws)
  (hfit : Token.extent (ps.flatMap Patch.image) ≤ 0xFFFFFFFF)

include h hfix hcells hfit

theorem map_start : (Batch.deltas (Patch.made 0 ps)).map s.old.span.start =
    Token.extent (s.pre.flatMap Patch.image) := by
  rw [s.span_old h]
  exact Patch.map_boundary s.patches (hfix.full_patches h hcells) hfit

theorem map_stop : (Batch.deltas (Patch.made 0 ps)).map s.old.span.stop = s.new.span.stop := by
  have hsplit : ps = (s.pre ++ [s.patch]) ++ s.post := by
    rw [List.append_assoc]
    exact s.patches
  have hold : s.old.span.stop = Token.extent ((s.pre ++ [s.patch]).map (·.token)) := by
    rw [s.span_old h, List.map_append, Token.extent_append]
    simp [Span.stop, s.matched.1]
  have hnew : s.new.span.stop = Token.extent ((s.pre ++ [s.patch]).flatMap Patch.image) := by
    rw [s.span_new hfix]
    simp [Span.stop, Patch.image, s.stays, s.matched.1, Nat.add_assoc]
  rw [hold, hnew]
  exact Patch.map_boundary hsplit (hfix.full_patches h hcells) hfit

end Offsets

end Survivor

section Refound

variable {t : Text} (h : (parse t).faults = []) {lead : List Cell} {ws : List Word} {ps : List Patch} {tree : Tree}
  (hfix : Fixed t lead ws ps tree)

include h

theorem Fixed.paired (hfix : Fixed t lead ws ps tree) : tree.erase.Each Tree.Paired := by
  have hpaired := paired_parse h
  rw [erase_parse] at hpaired
  rw [hfix.erase_eq]
  exact each_prune [] _ hpaired

theorem plain_of_root {z : Zipper} (hroot : z.root = (parse t).tree) : z.focus.Each Tree.Plain := by
  have hplain := (draft_parse h).plain
  rw [← hroot] at hplain
  exact each_plug hplain

theorem paired_of_root {z : Zipper} (hroot : z.root = (parse t).tree) (hsig : z.focus.isTrivia = false) :
    z.focus.erase.Each Tree.Paired := by
  have hpaired := paired_parse h
  rw [← hroot, root, erase_plug hsig] at hpaired
  exact each_plug hpaired

omit h in
theorem Survivor.exists_parent (s : Survivor t ps tree) {q : Parens} (hold : s.old = q.openZipper) :
    ∃ y, s.new.up? = some y ∧ y.root = tree ∧ y.focus.erase = .node .parenExpr [.leaf q.opening,
        prune (⟨.parenExpr, [.leaf q.opening], [.leaf q.closing]⟩ :: q.above.map Frame.erase) q.inner.erase,
        .leaf q.closing] ∧
      Thinned (q.above.map Frame.erase) (.node .parenExpr [.leaf q.opening, q.inner.erase, .leaf q.closing])
        (y.above.map Frame.erase) := by
  obtain ⟨f, fs, g, gs, hf, hg, hkind, hleft, hright, hthin⟩ := s.exists_frames
  have hfocus : s.old.focus.erase = .leaf q.opening := by rw [hold]; rfl
  have hframes := congrArg (List.map Frame.erase) (hold ▸ hf : q.openZipper.above = f :: fs)
  rw [q.erase_openZipper, List.map_cons] at hframes
  obtain ⟨hframe, hfs⟩ := List.cons.inj hframes
  have hparen : f.kind = .parenExpr := congrArg (·.kind) hframe.symm
  rw [hfocus, hparen, ← hfs, ← hframe] at hright
  rw [← hframe] at hleft
  rw [hfocus, ← hfs, ← hframe] at hthin
  have hnew : s.new.focus.erase = .leaf q.opening := s.slimmed.1.trans hfocus
  have hleaf : s.new ∈ leaves tree := by rw [s.leaves_new]; simp
  obtain ⟨hroot, htok⟩ := root_leavesOf [] tree s.new hleaf
  rw [root, hg] at hroot
  have hsig : s.new.focus.isTrivia = false := by
    rw [focus_leaf htok, s.token_new]
    exact s.significant
  have hnone : g.erase.left = [] := List.map_eq_nil_iff.mp hleft
  refine ⟨⟨g.fill s.new.focus, gs⟩, by rw [up?, hg], hroot, ?_, hthin⟩
  rw [Frame.erase_fill hsig, Frame.fill, hnone, hright, hnew, show g.erase.kind = .parenExpr from hkind.trans hparen]
  rfl

theorem Survivor.reports_iff (s : Survivor t ps tree) (hfix : Fixed t lead ws ps tree) {q : Parens}
    (hroot : q.zipper.root = (parse t).tree) (hold : s.old = q.openZipper) :
    (check q.zipper).findings = [] ∧ ∃ y, s.new.up? = some y ∧ y.root = tree ∧ ((check y).findings ≠ [] ↔
      ∃ f fs, q.above = f :: fs ∧ (check ⟨f.fill q.zipper.focus, fs⟩).findings ≠ [] ∧
        (check ⟨q.zipper.focus, fs⟩).findings ≠ []) := by
  have herase : q.zipper.focus.erase = .node .parenExpr [.leaf q.opening, q.inner.erase, .leaf q.closing] := by
    rw [Parens.zipper, Tree.erase, q.eraseAll_children]
  have hplain := plain_of_root h hroot
  have hpaired := paired_of_root h hroot rfl
  have hkept := s.goes_old
  rw [hold, goes, Zipper.erase, q.erase_openZipper] at hkept
  obtain ⟨y, hup, hy, hfocus, hthin⟩ := s.exists_parent hold
  refine ⟨?_, y, hup, hy, ?_⟩
  · by_contra hne
    rw [← ne_eq, Parentheses.reports_iff hplain hpaired, herase] at hne
    cases hne.symm.trans hkept
  have hplain' : y.focus.Each Tree.Plain := by
    have hall := hfix.draft.plain
    rw [← hy] at hall
    exact each_plug hall
  have hpaired' : y.focus.erase.Each Tree.Paired := by
    have hall := hfix.paired h
    have hnode : y.focus.isTrivia = false := by
      cases hf : y.focus with
      | token k u =>
        rw [hf] at hfocus
        cases hfocus
      | node k cs => rfl
    rw [← hy, root, erase_plug hnode] at hall
    exact each_plug hall
  have hwhole := paired_parse h
  have hne : (plug q.zipper.focus.erase (q.above.map Frame.erase)).kind ≠ .parenExpr := by
    rw [← erase_plug rfl, show plug q.zipper.focus q.above = (parse t).tree from hroot, erase_parse]
    exact fun hk => by cases hk
  rw [← hroot, root, erase_plug rfl] at hwhole
  have hbare := Tree.plain_erase _ hplain
  rw [herase] at hwhole hne hbare
  rw [Parentheses.reports_iff hplain' hpaired', hfocus,
    isSpare_thinned hthin hkept q.isNode_erase_inner hbare.2.2.1 hwhole hne]
  -- The same about the places before, with trivia.
  have hplaces {f : Frame} {fs : List Frame} (habove : q.above = f :: fs) :
      isSpare (fs.map Frame.erase) (f.erase.fill q.zipper.focus.erase) = true ∧
        isSpare (fs.map Frame.erase) q.zipper.focus.erase = true ↔
      (check ⟨f.fill q.zipper.focus, fs⟩).findings ≠ [] ∧ (check ⟨q.zipper.focus, fs⟩).findings ≠ [] := by
    have houter : (⟨f.fill q.zipper.focus, fs⟩ : Zipper).root = (parse t).tree := by
      rw [root, ← hroot, root, show q.zipper.above = f :: fs from habove]
      rfl
    rw [Parentheses.reports_iff (plain_of_root h houter) (paired_of_root h houter rfl),
      Parentheses.reports_iff (z := ⟨q.zipper.focus, fs⟩) hplain hpaired, Frame.erase_fill rfl]
  rw [herase] at hplaces
  constructor
  · rintro ⟨f, fs, hfs, hspare⟩
    obtain ⟨f, fs, habove, rfl, rfl⟩ := List.map_eq_cons_iff.mp hfs
    exact ⟨f, fs, habove, (hplaces habove).mp hspare⟩
  · rintro ⟨f, fs, habove, hreported⟩
    exact ⟨f.erase, fs.map Frame.erase, by rw [habove]; rfl, (hplaces habove).mpr hreported⟩

/-- Parentheses that are not reported, but right inside others that are, and in place of these would be. -/
def IsShadowed (z : Zipper) : Prop :=
  (check z).findings = [] ∧ ∃ f fs, z.above = f :: fs ∧ (check ⟨f.fill z.focus, fs⟩).findings ≠ [] ∧
    (check ⟨z.focus, fs⟩).findings ≠ []

variable (hcells : (parse t).tree.cells .compilationUnit = lead ++ Word.flatten ws)

include hcells

theorem Fixed.exists_shadowed (hfix : Fixed t lead ws ps tree) {y : Zipper} (hy : y.root = tree)
    (hne : (check y).findings ≠ []) : ∃ z, z.root = (parse t).tree ∧ IsShadowed z := by
  obtain ⟨p, rfl⟩ : ∃ p : Parens, p.zipper = y := by
    obtain ⟨htok, hkind⟩ := kind_of_findings hne
    have hpaired := hfix.paired h
    obtain ⟨focus, above⟩ := y
    cases focus with
    | token k u => cases htok
    | node k cs =>
      obtain rfl : k = .parenExpr := hkind
      rw [← hy, root, erase_plug rfl] at hpaired
      exact Parens.exists_parens rfl (each_plug hpaired).1
  obtain ⟨ls, g₁, g₂, rs, hleaves, -⟩ := p.exists_leaves
  rw [hy] at hleaves
  obtain ⟨s, -, hnew, -⟩ := hfix.exists_survivor_new h hcells hleaves p.isTrivia_opening
  obtain ⟨f, fs, g, gs, hf, hg, hkind, -⟩ := s.exists_frames
  have hold : s.old ∈ leaves (parse t).tree := by rw [s.leaves_old]; simp
  obtain ⟨hroot, htok⟩ := root_leavesOf [] (parse t).tree s.old hold
  rw [root, hf] at hroot
  have hparen : f.kind = .parenExpr := by
    rw [hnew] at hg
    rw [← hkind, ← (List.cons.inj hg).1]
  obtain ⟨q, hq⟩ := exists_parens_at h (z := ⟨f.fill s.old.focus, fs⟩) hroot ⟨rfl, hparen⟩
  have hup : s.old.up? = some q.zipper := by rw [up?, hf, hq]
  have hkinds : s.old.kind = .lParen := by
    have htoken := congrArg (·.kind) s.token_new
    rw [hnew] at htoken
    exact htoken.symm.trans p.isOpening
  have hopen : s.old = q.openZipper := by
    have hsig : s.old.isTrivia = false := by
      rw [isTrivia, focus_leaf htok]
      exact s.significant
    obtain hopen | hclose := q.eq_of_up? hup htok hsig
    · exact hopen
    · rw [hclose, q.kind_closeZipper] at hkinds
      cases hkinds
  obtain ⟨hclean, x, hx, -, hiff⟩ := s.reports_iff h hfix (by rw [hq]; exact hroot) hopen
  rw [hnew, p.up?_openZipper] at hx
  obtain rfl := Option.some.inj hx
  exact ⟨q.zipper, by rw [hq]; exact hroot, hclean, hiff.mp hne⟩

theorem Fixed.exists_reported (hfix : Fixed t lead ws ps tree) {z y : Zipper} (hroot : z.root = (parse t).tree)
    (hz : IsShadowed z) (hup : z.up? = some y) : ∃ (s : Survivor t ps tree) (x : Zipper), x.root = tree ∧
      (check x).findings ≠ [] ∧ s.new.up? = some x ∧ y.span.start ≤ s.old.span.start ∧
      s.old.span.stop ≤ y.span.stop := by
  obtain ⟨hclean, f, fs, habove, houter, hinner⟩ := hz
  obtain ⟨q, rfl⟩ := exists_parens_at h hroot (kind_of_findings (z := ⟨z.focus, fs⟩) hinner)
  obtain ⟨ls, rs, hleaves⟩ := List.append_of_mem ((gone_parens h hroot).1 q.openZipper (by simp [Parens.gone]))
  have hstays : goes q.openZipper.erase = false := by
    have hspare : ¬ isSpare (q.above.map Frame.erase) q.zipper.focus.erase = true := by
      intro hspare
      exact (Parentheses.reports_iff (plain_of_root h hroot) (paired_of_root h hroot rfl)).mpr hspare hclean
    rw [Parens.zipper, Tree.erase, q.eraseAll_children, Bool.not_eq_true] at hspare
    rw [goes, Zipper.erase, q.erase_openZipper]
    exact hspare
  obtain ⟨s, -, hold, -⟩ := hfix.exists_survivor h hcells hleaves q.isTrivia_opening hstays
  obtain ⟨-, x, hx, hxroot, hiff⟩ := s.reports_iff h hfix hroot hold
  have hfirst := span_up (hold ▸ q.up?_openZipper : s.old.up? = some q.zipper)
  have hsecond := span_up hup
  exact ⟨s, x, hxroot, hiff.mpr ⟨f, fs, habove, houter, hinner⟩, hx, by omega, by omega⟩

end Refound

end Parentheses

end Lintel
