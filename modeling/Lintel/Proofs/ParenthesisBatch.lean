import Lintel.Proofs.BuiltinBatch
import Lintel.Proofs.FixPasses

namespace Lintel

namespace FixEngine

theorem editsFor_of_editOf? {e : FixEngine} {source : Source} {fs : List Finding} {edits : List Edit}
    (h : List.Forall₂ (fun f edit => e.editOf? source.tree f = some edit) fs edits) :
    e.editsFor source fs = .ok (edits, []) := by
  induction h with
  | nil => rfl
  | @cons f edit fs edits hf _ ih =>
    obtain ⟨fix, hof, hfix⟩ := Option.bind_eq_some_iff.mp hf
    have hrun : runFix source f fix = .ok edit := by
      cases hr : fix source.tree f with
      | error refusal =>
        rw [hr] at hfix
        cases hfix
      | ok edit' =>
        rw [hr] at hfix
        obtain rfl := Option.some.inj hfix
        rw [runFix, hr]
    simp only [editsFor, hof, hrun, ih, bind, Except.bind]
    rfl

end FixEngine

def Token.isNote (t : Token) : Bool :=
  t.kind matches .lineComment | .blockComment | .docComment | .directive

theorem Patch.filter_image {q : Token → Bool} (hspace : q .space = false) {last : Option Token} {ps : List Patch}
    (hfill : Filling last ps) (hgone : ∀ p ∈ ps, p.gone.isSome = true → q p.token = false) :
    (ps.flatMap image).filter q = (ps.map (·.token)).filter q := by
  induction ps generalizing last with
  | nil => rfl
  | cons p ps ih =>
    have hlead : p.lead.filter q = [] := by
      rw [lead]
      split <;> simp [hspace]
    rw [List.flatMap_cons, List.filter_append, ih hfill.2 (fun r hr => hgone r (List.mem_cons_of_mem _ hr)),
      List.map_cons, image, List.filter_append, hlead, List.nil_append]
    split
    · rename_i hp
      have hfiller : p.filler.filter q = [] := by
        rw [List.filter_eq_nil_iff]
        intro t ht
        rw [(hfill.1 hp).isTrivia t ht, hspace]
        exact Bool.false_ne_true
      rw [hfiller, List.filter_cons_of_neg (by simp [hgone p List.mem_cons_self hp])]
      rfl
    · rw [← List.filter_append]
      rfl

namespace Parentheses

open Zipper

def reportedIn (fs : List Finding) (z : Zipper) : Bool :=
  z.kind == .parenExpr && fs.any (·.span == z.span)

structure Reports (e : FixEngine) (t : Tree) (f : Finding) (p : Parens) : Prop where
  root : p.zipper.root = t
  found : findingsAt p.zipper = [f]
  rule : f.rule = id
  span : f.span = p.zipper.span
  edit : e.editOf? t f = some ⟨f, p.gone.map takingPart⟩

section Faultless

variable {t : Text} (h : (parse t).faults = []) {e : FixEngine} (hsole : Sole e.registry.rules)

include h hsole

theorem exists_reports {path : Option String} {found : List Finding}
    (hfound : e.survey (.ofText t path) = .ok found) {f : Finding} (hf : f ∈ found) (hid : f.rule = id) :
    f.auxiliary = false ∧ ∃ p, Reports e (parse t).tree f p := by
  obtain ⟨haux, hmem, z, hz, hcheck⟩ := exists_check hsole hfound hf hid
  have hat : f ∈ findingsAt z := List.mem_filter.mpr ⟨hcheck, by simp [haux]⟩
  have hroot : z.root = (parse t).tree := root_preorderOf [] (parse t).tree z hz
  have hne : (check z).findings ≠ [] := List.ne_nil_of_mem hcheck
  obtain ⟨p, rfl⟩ := exists_reported h hroot hne
  obtain ⟨f', hf', hid', hspan, hedit⟩ := exists_edit h (fun _ => fixOf?_sole hsole hmem) hroot hne
  rw [hf'] at hat
  obtain rfl := List.mem_singleton.mp hat
  exact ⟨haux, p, hroot, hf', hid', hspan, hedit⟩

theorem exists_parens_all {path : Option String} {found fs : List Finding}
    (hfound : e.survey (.ofText t path) = .ok found)
    (hfs : ∀ f ∈ fs, f ∈ found ∧ f.rule = id) : ∃ ps, List.Forall₂ (Reports e (parse t).tree) fs ps := by
  induction fs with
  | nil => exact ⟨[], .nil⟩
  | cons f fs ih =>
    obtain ⟨hf, hid⟩ := hfs f List.mem_cons_self
    obtain ⟨-, p, hp⟩ := exists_reports h hsole hfound hf hid
    obtain ⟨ps, hps⟩ := ih fun g hg => hfs g (List.mem_cons_of_mem _ hg)
    exact ⟨p :: ps, .cons hp hps⟩

omit hsole

variable {fs : List Finding} {ps : List Parens} (hps : List.Forall₂ (Reports e (parse t).tree) fs ps)

include hps

omit h in
theorem mem_reports {p : Parens} (hp : p ∈ ps) : ∃ f ∈ fs, Reports e (parse t).tree f p := by
  induction hps with
  | nil => cases hp
  | cons hfp _ ih =>
    obtain rfl | hp := List.mem_cons.mp hp
    · exact ⟨_, List.mem_cons_self, hfp⟩
    · obtain ⟨f, hf, hr⟩ := ih hp
      exact ⟨f, List.mem_cons_of_mem _ hf, hr⟩

omit h in
theorem reports_of_mem {f : Finding} (hf : f ∈ fs) : ∃ p ∈ ps, Reports e (parse t).tree f p := by
  induction hps with
  | nil => cases hf
  | cons hfp _ ih =>
    obtain rfl | hf := List.mem_cons.mp hf
    · exact ⟨_, List.mem_cons_self, hfp⟩
    · obtain ⟨p, hp, hr⟩ := ih hf
      exact ⟨p, List.mem_cons_of_mem _ hp, hr⟩

theorem nodup_gone (hnodup : fs.Nodup) : (ps.flatMap (·.gone)).Nodup := by
  induction hps with
  | nil => exact List.nodup_nil
  | @cons f p fs ps hfp hrest ih =>
    obtain ⟨hf, hfs⟩ := List.nodup_cons.mp hnodup
    rw [List.flatMap_cons, List.nodup_append]
    refine ⟨(gone_parens h hfp.root).2.1, ih hfs, ?_⟩
    rintro z hz y hy rfl
    obtain ⟨q, hq, hzq⟩ := List.mem_flatMap.mp hy
    obtain ⟨g, hg, hgq⟩ := mem_reports hrest hq
    have hsame := zipper_of_gone h hfp.root hgq.root hz hzq
    have hfound := hfp.found
    rw [hsame, hgq.found] at hfound
    rw [(List.cons.inj hfound).1] at hg
    exact hf hg

theorem leaf_of_gone {z : Zipper} (hz : z ∈ ps.flatMap (·.gone)) : z ∈ leaves (parse t).tree := by
  obtain ⟨p, hp, hzp⟩ := List.mem_flatMap.mp hz
  obtain ⟨f, -, hfp⟩ := mem_reports hps hp
  exact (gone_parens h hfp.root).1 z hzp

theorem mem_gone_iff {z : Zipper} (hz : z ∈ leaves (parse t).tree) (hsig : z.token.isTrivia = false) :
    z ∈ ps.flatMap (·.gone) ↔ z.up?.any (reportedIn fs) = true := by
  obtain ⟨hroot, htok⟩ := root_leavesOf [] (parse t).tree z hz
  have hsig' : z.isTrivia = false := by
    rw [Zipper.isTrivia, focus_leaf htok]
    exact hsig
  constructor
  · intro hgone
    obtain ⟨p, hp, hzp⟩ := List.mem_flatMap.mp hgone
    obtain ⟨f, hf, hfp⟩ := mem_reports hps hp
    have hchosen : reportedIn fs p.zipper = true := by
      rw [reportedIn, Bool.and_eq_true, List.any_eq_true]
      exact ⟨rfl, f, hf, by simp [hfp.span]⟩
    obtain hzp | hzp := List.mem_append.mp hzp
    · rw [(gone_parens h hfp.root).2.2 z hzp] at hsig
      cases hsig
    · obtain rfl | rfl : z = p.openZipper ∨ z = p.closeZipper := by simpa using hzp
      · rw [p.up?_openZipper]
        exact hchosen
      · rw [p.up?_closeZipper]
        exact hchosen
  · intro hany
    obtain ⟨y, hup, hy⟩ := (Option.any_eq_true _ _).mp hany
    rw [reportedIn, Bool.and_eq_true, List.any_eq_true, beq_iff_eq] at hy
    obtain ⟨hkind, f, hf, hspan⟩ := hy
    obtain ⟨g, gs, habove⟩ : ∃ g gs, z.above = g :: gs := by
      cases habove : z.above with
      | nil => simp [up?, habove] at hup
      | cons g gs => exact ⟨g, gs, rfl⟩
    obtain rfl : ⟨g.fill z.focus, gs⟩ = y := by simpa [up?, habove] using hup
    have hyroot : (⟨g.fill z.focus, gs⟩ : Zipper).root = (parse t).tree := by
      rw [root, habove] at hroot
      exact hroot
    obtain ⟨q, hq⟩ := exists_parens_at h hyroot ⟨rfl, hkind⟩
    obtain ⟨p, hp, hfp⟩ := reports_of_mem hps hf
    have hsame : p.zipper = q.zipper := by
      refine zipper_of_span h hfp.root (by rw [hq]; exact hyroot) ?_
      rw [← hfp.span, hq]
      exact beq_iff_eq.mp hspan
    refine List.mem_flatMap.mpr ⟨p, hp, ?_⟩
    rw [← hq, ← hsame] at hup
    obtain rfl | rfl := p.eq_of_up? hup htok hsig'
    · simp [Parens.gone]
    · simp [Parens.gone]

theorem sheds_gone : (Mark.sheds 0 ((leaves (parse t).tree).map (mark id ((ps.flatMap (·.gone)).map (·.start))))).foldr
    Tree.shedAll
      (Outline.bareAll (Grammar.outline (itemsOf t)).1) =
    unwrapAll (reportedIn fs) .compilationUnit [] [] (parse t).tree.children := by
  obtain ⟨ds, hds⟩ : ∃ ds, (parse t).tree = .node .compilationUnit ds := ⟨_, rfl⟩
  have hpaired := paired_parse h
  have herase := erase_parse t
  have hmarks : Marks (reportedIn fs) (mark id ((ps.flatMap (·.gone)).map (·.start))) (leaves (parse t).tree) := by
    intro z hz hsig
    rw [mark, Bool.eq_iff_iff, ← mem_gone_iff h hps hz hsig, ← start_mem_iff h (fun _ => leaf_of_gone h hps) hz]
    split
    · rename_i hmem
      exact iff_of_true rfl hmem
    · rename_i hmem
      exact iff_of_false (by simp) hmem
  rw [hds] at hpaired hmarks herase ⊢
  rw [Tree.erase, Tree.node.injEq] at herase
  rw [← herase.2]
  exact foldr_sheds (fun z hz => by simpa using (Bool.and_eq_true_iff.mp hz).1) (fun _ => rfl) rfl hpaired hmarks

omit h hps in
theorem isPadding_of_mem {l r z : Zipper} (hz : z ∈ padding l r) : isPadding z = true := by
  have hafter : z ∈ l.followingWhile isPadding → isPadding z = true := by
    rw [followingWhile_eq]
    exact List.mem_takeWhile_imp
  have hbefore : z ∈ (r.precedingWhile isPadding).reverse → isPadding z = true := by
    rw [List.mem_reverse, precedingWhile_eq]
    exact List.mem_takeWhile_imp
  rw [padding] at hz
  split at hz
  · exact hafter hz
  · exact (List.mem_append.mp hz).elim hafter hbefore

omit h hps in
theorem isNote_gone {p : Parens} {z : Zipper} (hz : z ∈ p.gone) : z.token.isNote = false := by
  obtain hz | hz := List.mem_append.mp hz
  · have hpad := isPadding_of_mem hz
    rw [isPadding] at hpad
    split at hpad
    · rename_i hk
      rw [Token.isNote, show z.token.kind = _ from hk]
    · rename_i hk
      rw [Token.isNote, show z.token.kind = _ from hk]
    · cases hpad
  · obtain rfl | rfl : z = p.openZipper ∨ z = p.closeZipper := by simpa using hz
    · rw [Token.isNote, show p.openZipper.token.kind = _ from p.isOpening]
    · rw [Token.isNote, show p.closeZipper.token.kind = _ from p.isClosing]

omit h in
theorem exists_edits : ∃ edits, List.Forall₂ (fun f edit => e.editOf? (parse t).tree f = some edit) fs edits ∧
    edits.map (·.finding) = fs ∧ Batch.tagged edits = (ps.flatMap (·.gone)).map (fun z => (id, z.takingPart)) ∧
    ∀ edit ∈ edits, edit.parts ≠ [] := by
  induction hps with
  | nil => exact ⟨[], .nil, rfl, rfl, by simp⟩
  | @cons f p fs ps hfp _ ih =>
    obtain ⟨edits, hedits, hfindings, htagged, hparts⟩ := ih
    refine ⟨⟨f, p.gone.map takingPart⟩ :: edits, .cons hfp.edit hedits, by rw [List.map_cons, hfindings], ?_, ?_⟩
    · rw [Batch.tagged, List.flatMap_cons, ← Batch.tagged, htagged, List.flatMap_cons, List.map_append]
      simp [Edit.rule, hfp.rule]
    · intro edit hedit
      obtain rfl | hedit := List.mem_cons.mp hedit
      · simp [Parens.gone]
      · exact hparts edit hedit

theorem owner_gone : ∀ z ∈ ps.flatMap (·.gone), z.token.isTrivia = false → z.cell.owner = .parenExpr := by
  intro z hz hsig
  obtain ⟨p, hp, hzp⟩ := List.mem_flatMap.mp hz
  obtain ⟨f, -, hfp⟩ := mem_reports hps hp
  obtain hzp | hzp := List.mem_append.mp hzp
  · rw [(gone_parens h hfp.root).2.2 z hzp] at hsig
    cases hsig
  · obtain rfl | rfl : z = p.openZipper ∨ z = p.closeZipper := by simpa using hzp
    · rfl
    · rfl

theorem apply_reports (hnodup : fs.Nodup) (path : Option String) :
    ∃ r edits, Batch.apply (.ofText t path) edits false = .ok r ∧
    List.Forall₂ (fun f edit => e.editOf? (parse t).tree f = some edit) fs edits ∧ r.applied = fs ∧ r.leftovers = [] ∧
    r.source.tree.erase = unwrap (reportedIn fs) [] (parse t).tree ∧
    r.source.tree.tokens.filter Token.isNote = (parse t).tree.tokens.filter Token.isNote := by
  obtain ⟨edits, hedits, hfindings, htagged, hparts⟩ := exists_edits hps
  by_cases hne : fs = []
  · subst hne
    cases hps
    cases hedits
    refine ⟨_, [], rfl, .nil, rfl, rfl, ?_, rfl⟩
    exact (unwrap_eq_erase (fun z => Bool.and_false _) [] _).symm
  · have hnil : edits ≠ [] := by
      rintro rfl
      exact hne hfindings.symm
    obtain ⟨qs, tree, hmarks, hfilling, hdraft, happly⟩ := Batch.apply_taking (.ofText t path) edits id rfl
      (draft_parse h)
      (by decide) (fun z hz => leaf_of_gone h hps hz) (nodup_gone h hps hnodup) (owner_gone h hps) hnil hparts htagged
    refine ⟨_, edits, happly, hedits, hfindings, rfl, ?_, ?_⟩
    · rw [hdraft.erase]
      refine Eq.trans (congrArg (Tree.node .compilationUnit) (sheds_gone h hps)) ?_
      exact (unwrap_kept rfl).symm
    · have htokens : qs.map (·.token) = (parse t).tree.tokens := by
        have hmap := congrArg (List.map (·.token)) hmarks
        rw [List.map_map, List.map_map] at hmap
        exact hmap.trans (map_token_leaves _ _)
      rw [hdraft.tokens, Patch.filter_image rfl hfilling, htokens]
      intro q hq hgone
      have hmem : q.toMark ∈ (leaves (parse t).tree).map (mark id ((ps.flatMap (·.gone)).map (·.start))) :=
        hmarks ▸ List.mem_map_of_mem hq
      obtain ⟨z, hz, heq⟩ := List.mem_map.mp hmem
      rw [← heq, mark] at hgone
      have hat : z ∈ ps.flatMap (·.gone) := by
        rw [← start_mem_iff h (fun _ => leaf_of_gone h hps) hz]
        by_contra hno
        rw [if_neg hno] at hgone
        cases hgone
      obtain ⟨p, -, hzp⟩ := List.mem_flatMap.mp hat
      rw [← heq]
      exact isNote_gone hzp

end Faultless

/-- Some of the parentheses that are reported, each once, can be fixed together: all are fixed, and none is left.
Without trivia, each node is then replaced by the one between its parentheses. Comments and directives stay, in order.
-/
theorem fixBatch_unwraps {t : Text} (h : (parse t).faults = []) {e : FixEngine} (hsole : Sole e.registry.rules)
    (hverifies : e.registry.settings.verifies = false) {path : Option String} {found fs : List Finding}
    (hfound : ({ registry := e.registry } : Dispatch).collectPrimary (.ofText t path) e.cancelled = .ok found)
    (hfs : ∀ f ∈ fs, f ∈ found ∧ f.rule = id) (hnodup : fs.Nodup) :
    ∃ r, e.fixBatch (.ofText t path) fs = .ok r ∧ r.applied = fs ∧ r.leftovers = [] ∧
      r.source.tree.erase = unwrap (reportedIn fs) [] (parse t).tree ∧
      r.source.tree.tokens.filter Token.isNote = (parse t).tree.tokens.filter Token.isNote := by
  obtain ⟨ps, hps⟩ := exists_parens_all h hsole hfound hfs
  obtain ⟨r, edits, happly, hedits, happlied, hleft, htree, hnotes⟩ := apply_reports h hps hnodup path
  have hcancel : e.cancelled = false := by
    cases hc : e.cancelled with
    | false => rfl
    | true =>
      rw [hc, Dispatch.collectPrimary_cancelled] at hfound
      cases hfound
  have hprimary : fs.filter (!·.auxiliary) = fs := by
    rw [List.filter_eq_self]
    intro f hf
    rw [(exists_reports h hsole hfound (hfs f hf).1 (hfs f hf).2).1]
    rfl
  have hfor : e.editsFor (.ofText t path) (fs.filter (!·.auxiliary)) = .ok (edits, []) := by
    rw [hprimary]
    exact FixEngine.editsFor_of_editOf? hedits
  have hmade : e.apply (.ofText t path) edits = .ok r := by
    rw [FixEngine.apply, hcancel, happly]
  refine ⟨{ r with leftovers := r.leftovers ++ [] }, ?_, happlied, by rw [hleft]; rfl, htree, hnotes⟩
  rw [FixEngine.fixBatch_eq hfor hmade, hverifies]
  rfl

namespace Nested

def text : Text :=
  "x=( /*c*/(a));".toList

def engine : FixEngine :=
  { registry :=
      { settings := { fix := some { verify := some false } }, rules := builtinRules, exempts := fun _ => false } }

def outer : Finding :=
  { rule := id, span := ⟨2, 11⟩, secondary := [⟨2, 1⟩, ⟨12, 1⟩] }

def inner : Finding :=
  { rule := id, span := ⟨9, 3⟩, secondary := [⟨9, 1⟩, ⟨11, 1⟩] }

def bare : Tree :=
  .node .compilationUnit
    [.node .exprStmt [.node .assignmentExpr [.node .nameExpr [.token .ident ['x']], .token .eq ['='],
    .node .nameExpr [.token .ident ['a']]], .token .semicolon [';']]]

theorem fixBatch_unwraps_nested : (parse text).faults = [] ∧
    ({ registry := engine.registry } : Dispatch).collectPrimary (.ofText text none) false = .ok [outer, inner] ∧
    [inner, outer].Nodup ∧ ∃ r, engine.fixBatch (.ofText text none) [inner, outer] = .ok r ∧
      r.applied = [inner, outer] ∧ r.leftovers = [] ∧ r.source.tree.erase = bare ∧
      r.source.tree.tokens.filter Token.isNote = (parse text).tree.tokens.filter Token.isNote := by
  obtain ⟨hclean, hfound, hsame⟩ : (parse text).faults = [] ∧
      ({ registry := engine.registry } : Dispatch).collectPrimary (.ofText text none) false = .ok [outer, inner] ∧
      (unwrap (reportedIn [inner, outer]) [] (parse text).tree).same bare = true := by
    decide +kernel
  have hunwrap := Tree.eq_of_same _ _ hsame
  obtain ⟨r, hr, happlied, hleft, htree, hnotes⟩ := fixBatch_unwraps (e := engine) hclean sole_builtin rfl hfound
    (show ∀ f ∈ [inner, outer], f ∈ [outer, inner] ∧ f.rule = id by decide) (by decide)
  exact ⟨hclean, hfound, by decide, r, hr, happlied, hleft, htree.trans hunwrap, hnotes⟩

end Nested

end Parentheses

end Lintel
