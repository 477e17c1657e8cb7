import Lintel.Fix.Engine
import Lintel.Proofs.BuiltinFindings
import Lintel.Proofs.ParenthesizedNodes
import Lintel.Proofs.ReadingBack
import Lintel.Proofs.ReparseCheck

namespace Lintel

theorem Frame.fillMany_singleton (f : Frame) (t : Tree) : f.fillMany [t] = f.fill t := by
  simp [fillMany, fill]

namespace Zipper

mutual

theorem root_preorderOf (above : List Frame) :
    (t : Tree) → (z : Zipper) → z ∈ preorderOf above t → z.root = plug t above
  | .token k t, z, h => by rw [List.mem_singleton.mp h]; rfl
  | .node k cs, z, h => by
    obtain rfl | h := List.mem_cons.mp h
    · rfl
    · exact root_preorderAll k above [] cs z h

theorem root_preorderAll (kind : Kind) (above : List Frame) (left : List Tree) : (cs : List Tree) → (z : Zipper) →
    z ∈ preorderAll kind above left cs → z.root = plug (.node kind (left.reverse ++ cs)) above
  | [], z, h => by cases h
  | c :: cs, z, h => by
    obtain h | h := List.mem_append.mp h
    · exact root_preorderOf _ c z h
    · simpa using root_preorderAll kind above (c :: left) cs z h

end

theorem filled_of_plug {t : Tree} {f : Frame} {fs : List Frame} {k : Kind} {ds : List Tree}
    (h : plug t (f :: fs) = .node k ds) (hfill : Tree.FilledAll ds) : t.Filled := by
  induction fs generalizing t f with
  | nil =>
    simp only [plug, Frame.fill, Tree.node.injEq] at h
    rw [← h.2] at hfill
    exact (Tree.filledAll_append.mp hfill).2.1
  | cons g fs ih => exact (Tree.filledAll_append.mp (ih (t := f.fill t) h).2).2.1

theorem shedAll_unwrapped {k : Kind} (hk : k ≠ .parenExpr) {l r : Token} {x : Tree} (hx : x.isNode = true)
    {fs : List Frame} {bs : List Tree} (h : plug (.node .parenExpr [.leaf l, x, .leaf r]) fs = .node k bs) :
    .node k (Tree.shedAll (tokensBefore fs) (Tree.shedAll (tokensBefore fs + (1 + x.tokens.length)) bs)) =
      plug x fs := by
  cases fs with
  | nil =>
    rw [plug, Tree.node.injEq] at h
    exact absurd h.1.symm hk
  | cons f fs =>
    have hright : (Tree.node .parenExpr [.leaf l, x, .leaf r]).shed (1 + x.tokens.length) =
        [.node .parenExpr [.leaf l, x]] := by
      have hshed := Tree.shed_token .parenExpr [.leaf l, x] [] r
      have hcount : (Tree.tokensAll [.leaf l, x]).length = 1 + x.tokens.length := by
        simp [Tree.tokensAll, Tree.leaf, Tree.tokens, Nat.add_comm]
      rw [hcount] at hshed
      exact hshed
    have hleft : (Tree.node .parenExpr [.leaf l, x]).shed 0 = [x] := by
      have hshed := Tree.shed_token .parenExpr [] [x] l
      have hall : ([] ++ [x]).all (·.isNode) = true := by simp [hx]
      rw [if_pos hall] at hshed
      exact hshed
    have hfirst := shedAll_plug rfl (n := 1 + x.tokens.length)
      (by simp [Tree.tokens, Tree.tokensAll, Tree.leaf, Nat.add_comm]) f fs h
    rw [hright, Frame.fillMany_singleton] at hfirst
    have hsecond := shedAll_plug (t := .node .parenExpr [.leaf l, x]) rfl (n := 0)
      (by simp [Tree.tokens, Tree.tokensAll, Tree.leaf]) f fs hfirst
    rw [hleft, Nat.add_zero, Frame.fillMany_singleton] at hsecond
    exact hsecond.symm

end Zipper

namespace Parens

open Zipper

variable (p : Parens)

theorem rank_openZipper : p.openZipper.rank = p.zipper.rank := by
  have hlead : Tree.eraseAll p.lead = [] := Tree.eraseAll_of_trivia fun t ht => p.trivia t (by simp [ht])
  simp [rank, openZipper, zipper, tokensBefore, Frame.erase, hlead, Tree.tokensAll]

theorem rank_closeZipper : p.closeZipper.rank = p.zipper.rank + (1 + p.inner.erase.tokens.length) := by
  have hgaps := p.trivia
  simp only [List.mem_append] at hgaps
  have hleft : Tree.eraseAll (p.lead ++ .leaf p.opening :: (p.gap ++ p.inner :: p.gap')) =
      [.leaf p.opening, p.inner.erase] := by
    rw [Tree.eraseAll_append, Tree.eraseAll_of_trivia fun t ht => hgaps t (by simp [ht]),
      Tree.eraseAll_cons (t := .leaf p.opening) p.isTrivia_opening, Tree.eraseAll_append,
      Tree.eraseAll_of_trivia fun t ht => hgaps t (by simp [ht]), Tree.eraseAll_cons p.isTrivia_inner,
      Tree.eraseAll_of_trivia fun t ht => hgaps t (by simp [ht])]
    rfl
  have hcount : (Tree.tokensAll [.leaf p.opening, p.inner.erase].reverse).length = 1 + p.inner.erase.tokens.length := by
    rw [length_tokensAll_reverse]
    simp [Tree.tokensAll, Tree.leaf, Tree.tokens, Nat.add_comm]
  simp only [rank, closeZipper, zipper, tokensBefore, Frame.erase, List.map_cons, List.foldr_cons, List.reverse_reverse,
    hleft, hcount]
  omega

theorem isNode_erase_inner : p.inner.erase.isNode = true := by
  have hnode := p.isNode
  cases hi : p.inner with
  | token k t =>
    rw [hi] at hnode
    cases hnode
  | node k cs => rfl

theorem shedAll_parens {k : Kind} {bs : List Tree} (hk : k ≠ .parenExpr) (h : p.zipper.root.erase = .node k bs) :
    .node k (Tree.shedAll p.openZipper.rank (Tree.shedAll p.closeZipper.rank bs)) = (plug p.inner p.above).erase := by
  have hplace : plug (.node .parenExpr [.leaf p.opening, p.inner.erase, .leaf p.closing]) (p.above.map Frame.erase) =
      .node k bs := by
    rw [← p.eraseAll_children, ← h, root, erase_plug rfl]
    rfl
  rw [erase_plug p.isTrivia_inner, rank_openZipper, rank_closeZipper]
  exact shedAll_unwrapped hk p.isNode_erase_inner hplace

end Parens

namespace Parentheses

open Zipper

/-- The items of the second text are those of the first without the parentheses at the place, and the first can be
followed with these left out. -/
def Followed (z : Zipper) (t u : Text) : Prop :=
  Parse.lexFaults (lex u) = [] ∧ ∃ (front : List Item) (e : Grammar.Enclosed),
    itemsOf t = front ++ e.whole.old ∧ itemsOf u = front ++ e.whole.new ∧ front.length = z.rank ∧
      e.whole.outer = z.focus.erase ∧ e.follows front = true

theorem reads_back {t u : Text} {p : Parens} (hroot : p.zipper.root = (parse t).tree) (h : Followed p.zipper t u) :
    (parse u).faults = [] ∧ (parse u).tree.erase = (plug p.inner p.above).erase := by
  obtain ⟨hlex, front, e, hold, hnew, hfront, houter, hfollows⟩ := h
  obtain ⟨hclean, ps, fs, qs, hbs, hbs', hrank⟩ := Grammar.Enclosed.outline_of_follows hfollows
  rw [← hold] at hbs
  rw [← hnew] at hclean hbs'
  refine ⟨?_, ?_⟩
  · show Parse.lexFaults (lex u) ++ Parse.locate _ (Grammar.outline (itemsOf u)).2 = []
    rw [hlex, hclean]
    rfl
  · rw [Parens.zipper, Tree.erase, p.eraseAll_children] at houter
    obtain ⟨-, hnode, -⟩ : _ ∧ e.node = p.inner.erase ∧ _ := by simpa [Grammar.Enclosed.whole] using houter
    have herase : p.zipper.root.erase = .node .compilationUnit (Outline.bareAll (Grammar.outline (itemsOf t)).1) := by
      rw [hroot, erase_parse]
    -- Both trees come from taking out the tokens at the same two places.
    have hplace : plug e.whole.outer (fs ++ [⟨.compilationUnit, ps.reverse, qs⟩]) =
        .node .compilationUnit (Outline.bareAll (Grammar.outline (itemsOf t)).1) := by
      rw [plug_snoc, hbs]
      simp [Frame.fill]
    have hshed := shedAll_unwrapped (by decide) (hnode ▸ p.isNode_erase_inner) hplace
    rw [plug_snoc, tokensBefore_snoc, length_tokensAll_reverse, hrank, hfront, hnode] at hshed
    rw [erase_parse, hbs', ← p.shedAll_parens (by decide) herase, p.rank_openZipper, p.rank_closeZipper, hshed]
    simp [Frame.fill, Grammar.Enclosed.whole, hnode]

section Fix

variable {t : Text} (h : (parse t).faults = []) {p : Parens} (hroot : p.zipper.root = (parse t).tree)

include h hroot

theorem filled_inner : p.inner.erase.Filled := by
  have hfilled := (draft_parse h).filled
  have hplace : plug p.inner.erase (p.innerZipper.above.map Frame.erase) =
      .node .compilationUnit (Outline.bareAll (Grammar.outline (itemsOf t)).1) := by
    rw [← erase_plug p.isTrivia_inner, ← erase_parse, ← hroot]
    congr 1
    simp [root, Parens.zipper, Parens.innerZipper, plug, Frame.fill, Parens.children]
  exact filled_of_plug hplace hfilled

theorem full_children : ∀ y ∈ Tree.tokensAll p.children, 0 < y.text.size := by
  intro y hy
  refine (draft_parse h).full y ?_
  rw [← hroot, root, show p.zipper.focus = .node .parenExpr p.children from rfl, tokens_plug_node]
  simp [hy]

theorem zipper_of_span {q : Parens} (hq : q.zipper.root = (parse t).tree) (hspan : p.zipper.span = q.zipper.span) :
    p.zipper = q.zipper := by
  have hfirst := p.nodeAt?_zipper (full_children h hroot)
  have hsecond := q.nodeAt?_zipper (full_children h hq)
  rw [hroot, hspan] at hfirst
  rw [hq] at hsecond
  exact Option.some.inj (hfirst.symm.trans hsecond)

theorem gone_parens : (∀ z ∈ p.gone, z ∈ leaves (parse t).tree) ∧ p.gone.Nodup ∧
    (∀ z ∈ padding p.openZipper p.closeZipper, z.token.isTrivia = true) := by
  obtain ⟨ds, hds⟩ : ∃ ds, (parse t).tree = .node .compilationUnit ds := ⟨_, rfl⟩
  have hdraft := draft_parse h
  rw [hds] at hdraft hroot ⊢
  obtain ⟨ls, a, core, b, rs, hleaves, hgone, htrivia, -⟩ := p.gone_leaves hroot hdraft.filledAll
    (filled_inner h (hroot.trans hds.symm))
  have hsub : (p.openZipper :: (a ++ b ++ [p.closeZipper])).Sublist (leaves (.node .compilationUnit ds)) := by
    rw [hleaves]
    refine List.sublist_append_of_sublist_right (.cons_cons _ ?_)
    refine List.Sublist.append (List.Sublist.append ?_ (List.Sublist.refl b)) ?_
    · exact List.sublist_append_left a core
    · exact List.singleton_sublist.mpr List.mem_cons_self
  have hperm : p.gone.Perm (p.openZipper :: (a ++ b ++ [p.closeZipper])) := by
    rw [hgone]
    exact List.perm_middle
  have hnodup : (leaves (.node .compilationUnit ds)).Nodup :=
    (pairwise_start hdraft.filledAll hdraft.full_leaf [] rfl).imp fun hlt heq =>
      absurd (congrArg start heq) hlt.ne
  refine ⟨fun z hz => hsub.subset (hperm.mem_iff.mp hz), hperm.nodup_iff.mpr (hnodup.sublist hsub), fun z hz => ?_⟩
  refine htrivia z ?_
  have hpadding : padding p.openZipper p.closeZipper = a ++ b := List.append_cancel_right hgone
  rwa [← hpadding]

theorem fix_parens {f : Finding} (hspan : f.span = p.zipper.span) (hrule : f.rule = id) (path : Option String) :
    ∃ edit tree r, fix (parse t).tree f = .ok edit ∧ Batch.apply ⟨(parse t).tree, path⟩ [edit] false = .ok r ∧
      r.leftovers = [] ∧ r.source = ⟨tree, path⟩ ∧ tree.erase = (plug p.inner p.above).erase := by
  obtain ⟨hmem, hnodup, htrivia⟩ := gone_parens h hroot
  have hfix := p.fix_zipper (full_children h hroot) hspan htrivia
  rw [hroot] at hfix
  have hsig : ∀ z ∈ p.gone, z.token.isTrivia = false → z = p.openZipper ∨ z = p.closeZipper := by
    intro z hz hsig
    obtain hz | hz := List.mem_append.mp hz
    · rw [htrivia z hz] at hsig
      cases hsig
    · simpa using hz
  have hown : ∀ z ∈ p.gone, z.token.isTrivia = false → z.cell.owner = .parenExpr := by
    intro z hz hs
    obtain rfl | rfl := hsig z hz hs <;> rfl
  obtain ⟨ps, tree, -, -, hdraft, happly⟩ := Batch.apply_taking ⟨(parse t).tree, path⟩
    [⟨f, p.gone.map takingPart⟩] id rfl (draft_parse h) (by decide) hmem hnodup hown (by simp) (by simp [Parens.gone])
    (by simp [Batch.tagged, Edit.rule, hrule])
  refine ⟨_, tree, _, hfix, happly, rfl, rfl, ?_⟩
  have hranks : ∀ i, i ∈ [p.openZipper.rank, p.closeZipper.rank] ↔ ∃ z ∈ p.gone, z.token.isTrivia = false ∧
    z.rank = i := by
    intro i
    simp only [List.mem_cons, List.not_mem_nil, or_false]
    constructor
    · rintro (rfl | rfl)
      · exact ⟨p.openZipper, by simp [Parens.gone], p.isTrivia_opening, rfl⟩
      · exact ⟨p.closeZipper, by simp [Parens.gone], p.isTrivia_closing, rfl⟩
    · rintro ⟨z, hz, hs, rfl⟩
      obtain rfl | rfl := hsig z hz hs <;> simp
  have hlt : p.openZipper.rank < p.closeZipper.rank := by
    rw [p.rank_openZipper, p.rank_closeZipper]
    omega
  have hstart := draft_parse h
  obtain ⟨ds, hds⟩ : ∃ ds, (parse t).tree = .node .compilationUnit ds := ⟨_, rfl⟩
  rw [hds] at hstart hdraft hmem
  rw [sheds_mark hstart.filledAll hstart.full_leaf hmem id (List.pairwise_pair.mpr hlt) hranks] at hdraft
  have herase : p.zipper.root.erase = .node .compilationUnit (Outline.bareAll (Grammar.outline (itemsOf t)).1) := by
    rw [hroot, erase_parse]
  rw [hdraft.erase, ← p.shedAll_parens (by decide) herase]
  rfl

end Fix

/-- The rule for parentheses is the only one with its id, and the only one that reports under it. -/
structure Sole (rules : List Rule) : Prop where
  id : ∀ r ∈ rules, r.id = Parentheses.id → r = rule
  reports : ∀ r ∈ rules, ∀ c z, ∀ f ∈ r.findings c z, f.auxiliary = false → f.rule = Parentheses.id →
    r.id = Parentheses.id

theorem sole_builtin : Sole builtinRules := by
  refine ⟨fun r hr hid => ?_, fun r hr c z f hf haux hid => ?_⟩
  · simp only [builtinRules, List.mem_cons, List.not_mem_nil, or_false] at hr
    obtain rfl | rfl | rfl | rfl | rfl := hr
    case inr.inl => rfl
    all_goals exact absurd hid (by decide)
  · rw [← hid, rule_of_builtin r hr c z f hf haux]

theorem exists_check {d : Dispatch} (hsole : Sole d.registry.rules) {source : Source} {cancelled : Bool}
    {fs : List Finding}
    (hfound : d.collectPrimary source cancelled = .ok fs) {f : Finding} (hf : f ∈ fs) (hid : f.rule = id) :
    f.auxiliary = false ∧ rule ∈ d.registry.rules ∧
      ∃ z ∈ (ofRoot source.tree).preorder, f ∈ (check z).findings := by
  obtain ⟨haux, z, hz, r, hr, hmem⟩ := Dispatch.exists_rule_of_collectPrimary hfound hf
  obtain rfl := hsole.id r hr (hsole.reports r hr _ z f hmem haux hid)
  exact ⟨haux, hr, z, hz, hmem⟩

theorem exists_parens_at {t : Text} (h : (parse t).faults = []) {z : Zipper} (hroot : z.root = (parse t).tree)
    (hz : z.isToken = false ∧ z.kind = .parenExpr) : ∃ p : Parens, p.zipper = z := by
  obtain ⟨cs, hcs⟩ : ∃ cs, z.focus = .node .parenExpr cs := by
    obtain ⟨focus, above⟩ := z
    cases focus with
    | token k u => cases hz.1
    | node k cs => exact ⟨cs, by rw [show k = .parenExpr from hz.2]⟩
  have hpaired := paired_parse h
  rw [← hroot, root, hcs, erase_plug rfl] at hpaired
  exact Parens.exists_parens hcs (each_plug hpaired).1

theorem fixOf?_sole {e : FixEngine} (hsole : Sole e.registry.rules) (hmem : rule ∈ e.registry.rules) {f : Finding}
    (hid : f.rule = id) : e.fixOf? f = some fix := by
  have hsome : (e.registry.rules.find? (·.id == id)).isSome = true :=
    List.find?_isSome.mpr ⟨rule, hmem, beq_self_eq_true id⟩
  obtain ⟨r, hr⟩ := Option.isSome_iff_exists.mp hsome
  obtain rfl := hsole.id r (List.mem_of_find?_eq_some hr) (by simpa using List.find?_some hr)
  rw [FixEngine.fixOf?, Registry.get?, hid, hr]
  rfl

theorem fixOf?_builtin {e : FixEngine} (hrules : e.registry.rules = builtinRules) {f : Finding} (hid : f.rule = id) :
    e.fixOf? f = some fix :=
  fixOf?_sole (hrules ▸ sole_builtin) (by simp [hrules, builtinRules]) hid

/-- A finding of parentheses that are not needed can be fixed, and in the tree without trivia the expression then
stands where the parentheses stood. Where the reading of the text can be followed without the parentheses, the fixed
text is read as this tree again. -/
theorem fixOne_unwraps {t : Text} (h : (parse t).faults = []) {e : FixEngine} (hsole : Sole e.registry.rules)
    {path : Option String} {fs : List Finding}
    (hfound : ({ registry := e.registry } : Dispatch).collectPrimary (.ofText t path) e.cancelled = .ok fs)
    {f : Finding}
    (hf : f ∈ fs) (hid : f.rule = id) :
    ∃ (p : Parens) (tree : Tree), p.zipper.root = (parse t).tree ∧ p.zipper.span = f.span ∧
      e.fixOne (.ofText t path) f = .ok ⟨tree, path⟩ ∧ tree.erase = (plug p.inner p.above).erase ∧
      (Followed p.zipper t tree.text → (parse tree.text).faults = [] ∧ (parse tree.text).tree.erase = tree.erase) := by
  obtain ⟨haux, hmem, z, hz, hcheck⟩ := exists_check hsole hfound hf hid
  have hroot : z.root = (parse t).tree := root_preorderOf [] (parse t).tree z hz
  obtain ⟨-, hspan, hparen⟩ := of_check hcheck haux
  obtain ⟨p, rfl⟩ := exists_parens_at h hroot hparen
  obtain ⟨edit, tree, r, hfix, happly, hleft, hsource, herase⟩ := fix_parens h hroot hspan hid path
  have hcancel : e.cancelled = false := by
    cases hc : e.cancelled with
    | false => rfl
    | true =>
      rw [hc, Dispatch.collectPrimary_cancelled] at hfound
      cases hfound
  have hrun : FixEngine.runFix (.ofText t path) f fix = .ok edit := by
    rw [FixEngine.runFix, show (Source.ofText t path).tree = (parse t).tree from rfl, hfix]
  have hmade : e.apply (.ofText t path) [edit] = .ok r := by
    rw [FixEngine.apply, hcancel, show Source.ofText t path = ⟨(parse t).tree, path⟩ from rfl, happly]
  refine ⟨p, tree, hroot, hspan.symm, ?_, herase, fun hfollowed => herase ▸ reads_back hroot hfollowed⟩
  simp [FixEngine.fixOne, fixOf?_sole hsole hmem hid, haux, hrun, hmade, Except.mapError, hleft, hsource, bind,
    Except.bind, pure, Except.pure]

namespace Comparison

def name (c : Char) : Tree :=
  .node .nameExpr [.token .ident [c]]

def parens (t : Tree) : Tree :=
  .node .parenExpr [.token .lParen ['('], t, .token .rParen [')']]

def statement (t : Tree) (u : Tree := parens (name 'c')) : Tree :=
  .node .compilationUnit [.node .exprStmt [.node .assignmentExpr [name 'x', .token .eq ['='],
    .node .binaryExpr [.node .binaryExpr [t, .token .lt ['<'], name 'b'], .token .gt ['>'], u]],
    .token .semicolon [';']]]

def call : Tree :=
  .node .compilationUnit [.node .exprStmt [.node .assignmentExpr [name 'x', .token .eq ['='],
    .node .invocationExpr [.node .genericNameExpr [.token .ident ['a'], .node .typeArgumentList [.token .lt ['<'],
      .node .nameType [.token .ident ['b']], .token .gt ['>']]],
      .node .argumentList [.token .lParen ['('], .node .argument [name 'c'], .token .rParen [')']]]],
    .token .semicolon [';']]]

def engine : FixEngine :=
  { registry := { settings := {}, rules := builtinRules, exempts := fun _ => false } }

def finding (n : Nat) : Finding :=
  { rule := id, span := ⟨n, 3⟩, secondary := [⟨n, 1⟩, ⟨n + 2, 1⟩] }

theorem readings :
    ((parse (statement (parens (name 'a'))).text).tree.same (statement (parens (name 'a'))) = true ∧
      (parse (statement (parens (name 'a'))).text).faults = []) ∧
    (parse (statement (name 'a')).text).tree.same call = true ∧
    ({ registry := engine.registry } : Dispatch).collectPrimary ⟨statement (parens (name 'a')), none⟩ engine.cancelled =
      .ok [finding 2, finding 8] := by
  decide +kernel

theorem parse_statement :
    (parse (statement (parens (name 'a'))).text).tree = statement (parens (name 'a')) ∧
      (parse (statement (parens (name 'a'))).text).faults = [] :=
  And.imp_left (Tree.eq_of_same _ _) readings.1

theorem ofText_statement :
    Source.ofText (statement (parens (name 'a'))).text none = ⟨statement (parens (name 'a')), none⟩ :=
  congrArg (Source.mk · none) parse_statement.1

theorem parse_bare : (parse (statement (name 'a')).text).tree = call :=
  Tree.eq_of_same _ _ readings.2.1

theorem collect_statement : ({ registry := engine.registry } : Dispatch).collectPrimary
    (.ofText (statement (parens (name 'a'))).text none) engine.cancelled = .ok [finding 2, finding 8] := by
  rw [ofText_statement]
  exact readings.2.2

def edit (n : Nat) : Edit :=
  { finding := finding n
    parts := [⟨⟨n, 1⟩, .removeToken .lParen true, nofun⟩, ⟨⟨n + 2, 1⟩, .removeToken .rParen true, nofun⟩] }

theorem fixOne_parens {n : Nat} {tree : Tree}
    (hrun : FixEngine.runFix ⟨statement (parens (name 'a')), none⟩ (finding n) fix = .ok (edit n))
    (hresolve : ∀ p ∈ (edit n).parts, (p.resolve (statement (parens (name 'a'))) 0).toOption.isSome = true)
    (hfold : (Batch.tagged [edit n]).reverse.foldlM Batch.step { tree := statement (parens (name 'a')) } =
      .ok { tree := tree, made := [⟨id, ⟨n, 1⟩, []⟩, ⟨id, ⟨n + 2, 1⟩, []⟩] }) :
    engine.fixOne ⟨statement (parens (name 'a')), none⟩ (finding n) = .ok ⟨tree, none⟩ := by
  have horder : (Batch.tagged [edit n]).Pairwise (fun x y => x.2.Precedes y.2) :=
    Batch.pairwise_tagged (by simp [edit, Part.Leads, Span.stop])
  have happly : Batch.apply ⟨statement (parens (name 'a')), none⟩ [edit n] false = _ :=
    Batch.apply_ordered (.refl _) horder (by simp) (by simp [edit]) (by simpa using hresolve) hfold
  obtain ⟨r, hmade, hsource, hleft⟩ : ∃ r, engine.apply ⟨statement (parens (name 'a')), none⟩ [edit n] = .ok r ∧
      r.source = ⟨tree, none⟩ ∧ r.leftovers = [] := by
    rw [FixEngine.apply, show engine.cancelled = false from rfl, happly]
    exact ⟨_, rfl, rfl, rfl⟩
  simp [FixEngine.fixOne, fixOf?_builtin (e := engine) rfl (f := finding n) rfl, show (finding n).auxiliary =
    false from rfl, hrun, hmade, Except.mapError, hleft, hsource, bind, Except.bind, pure, Except.pure]

theorem fixOne_left :
    engine.fixOne ⟨statement (parens (name 'a')), none⟩ (finding 2) = .ok ⟨statement (name 'a'), none⟩ :=
  fixOne_parens rfl (by decide) (by with_unfolding_all rfl)

theorem fixOne_right : engine.fixOne ⟨statement (parens (name 'a')), none⟩ (finding 8) =
    .ok ⟨statement (parens (name 'a')) (name 'c'), none⟩ :=
  fixOne_parens rfl (by decide) (by with_unfolding_all rfl)

def right : Parens where
  above := [⟨.binaryExpr, [.token .gt ['>'], .node .binaryExpr [parens (name 'a'), .token .lt ['<'], name 'b']], []⟩,
    ⟨.assignmentExpr, [.token .eq ['='], name 'x'], []⟩, ⟨.exprStmt, [], [.token .semicolon [';']]⟩,
    ⟨.compilationUnit, [], []⟩]
  lead := []
  opening := ⟨.lParen, ['(']⟩
  gap := []
  inner := name 'c'
  gap' := []
  closing := ⟨.rParen, [')']⟩
  trail := []
  trivia := nofun
  isOpening := rfl
  isNode := rfl
  isClosing := rfl

def item (k : Kind) (c : Char) : Item :=
  { kind := k, text := [c] }

def front : List Item :=
  [item .ident 'x', item .eq '=', item .lParen '(', item .ident 'a', item .rParen ')', item .lt '<', item .ident 'b',
    item .gt '>']

def enclosed : Grammar.Enclosed where
  opening := item .lParen '('
  within := [item .ident 'c']
  closing := item .rParen ')'
  behind := [item .semicolon ';']
  node := name 'c'
  filled := List.cons_ne_nil _ _

theorem followed_right : Followed right.zipper (statement (parens (name 'a'))).text
    (statement (parens (name 'a')) (name 'c')).text := by
  refine ⟨?_, front, enclosed, ?_, ?_, rfl, rfl, ?_⟩
  all_goals decide +kernel

/-- Of the two pairs of parentheses the second can be left out in reading as well. -/
theorem fixOne_unwraps_statement : (parse (statement (parens (name 'a'))).text).faults = [] ∧
    (∃ (p : Parens) (tree : Tree), p.zipper.root = (parse (statement (parens (name 'a'))).text).tree ∧
      p.zipper.span = ⟨2, 3⟩ ∧
      engine.fixOne (.ofText (statement (parens (name 'a'))).text none) (finding 2) = .ok ⟨tree, none⟩ ∧
      tree.erase = (plug p.inner p.above).erase) ∧
    ∃ (p : Parens) (tree : Tree), p.zipper.root = (parse (statement (parens (name 'a'))).text).tree ∧
      p.zipper.span = ⟨8, 3⟩ ∧
      engine.fixOne (.ofText (statement (parens (name 'a'))).text none) (finding 8) = .ok ⟨tree, none⟩ ∧
      tree.erase = (plug p.inner p.above).erase ∧ (parse tree.text).faults = [] ∧
      (parse tree.text).tree.erase = tree.erase := by
  refine ⟨parse_statement.2, ?_, ?_⟩
  · obtain ⟨p, tree, hroot, hspan, hfix, herase, -⟩ := fixOne_unwraps parse_statement.2 (e := engine) sole_builtin
      collect_statement (f := finding 2) (by simp) rfl
    exact ⟨p, tree, hroot, hspan, hfix, herase⟩
  · obtain ⟨p, tree, hroot, hspan, hfix, herase, hback⟩ := fixOne_unwraps parse_statement.2 (e := engine) sole_builtin
      collect_statement (f := finding 8) (by simp) rfl
    have htree := hfix
    rw [ofText_statement, fixOne_right] at htree
    cases htree
    refine ⟨p, _, hroot, hspan, hfix, herase, hback ?_⟩
    have hplace : right.zipper.root = (parse (statement (parens (name 'a'))).text).tree := parse_statement.1.symm
    rw [zipper_of_span parse_statement.2 hroot hplace hspan]
    exact followed_right

/-- Where parentheses go, what is left may be read in another way: as the call of a generic method. -/
theorem fixOne_statement : (parse (statement (parens (name 'a'))).text).faults = [] ∧
    finding 2 ∈ [finding 2, finding 8] ∧
    ({ registry := engine.registry } : Dispatch).collectPrimary (.ofText (statement (parens (name 'a'))).text none)
      engine.cancelled = .ok [finding 2, finding 8] ∧
    engine.fixOne (.ofText (statement (parens (name 'a'))).text none) (finding 2) = .ok ⟨statement (name 'a'), none⟩ ∧
    (parse (statement (name 'a')).text).tree.erase ≠ (statement (name 'a')).erase := by
  refine ⟨parse_statement.2, by simp, collect_statement, ?_, ?_⟩
  · rw [ofText_statement]
    exact fixOne_left
  · rw [parse_bare]
    have hskeleton : call.erase.skeleton 0 ≠ (statement (name 'a')).erase.skeleton 0 := by decide
    exact fun heq => hskeleton (congrArg (Tree.skeleton 0) heq)

end Comparison

end Parentheses

end Lintel
