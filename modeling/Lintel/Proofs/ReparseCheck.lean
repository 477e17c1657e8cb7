import Lintel.Fix.Engine
import Lintel.Proofs.Cells
import Lintel.Proofs.LosslessRewrite
import Lintel.Proofs.OrderedBatch
import Lintel.Style.Parentheses

/-!
What reading a revision back shows. The check compares the kinds of the nodes in order. That order leaves open how
deep the nodes stand and where the tokens are: with this skeleton it is the tree without trivia, and without it trees
that differ may pass.
-/

namespace Lintel

namespace Tree

mutual

/-- The depth of each element, an element before those in it, and the tokens. -/
def skeleton (d : Nat) : Tree → List (Nat × Option Token)
  | .token k t => [(d, some ⟨k, t⟩)]
  | .node _ cs => (d, none) :: skeletonAll (d + 1) cs

def skeletonAll (d : Nat) : List Tree → List (Nat × Option Token)
  | [] => []
  | c :: cs => c.skeleton d ++ skeletonAll d cs

end

def Ends (d : Nat) (rest : List (Nat × Option Token)) : Prop :=
  ∀ e ∈ rest.head?, e.1 < d

theorem head?_skeleton (d : Nat) (t : Tree) : ∃ x rest, t.skeleton d = (d, x) :: rest := by
  cases t with
  | token k t => exact ⟨_, _, rfl⟩
  | node k cs => exact ⟨_, _, rfl⟩

theorem ends_skeletonAll {d : Nat} {rest : List (Nat × Option Token)} (h : Ends d rest) (ts : List Tree) :
    Ends (d + 1) (skeletonAll d ts ++ rest) := by
  cases ts with
  | nil =>
    intro e he
    exact Nat.lt_succ_of_lt (h e he)
  | cons t ts =>
    obtain ⟨x, xs, ht⟩ := head?_skeleton d t
    intro e he
    rw [skeletonAll, ht] at he
    obtain rfl : (d, x) = e := by simpa using he
    exact Nat.lt_succ_self d

mutual

theorem eq_of_skeleton : (t u : Tree) → (d : Nat) → {ks ks' : List Kind} → {rest rest' : List (Nat × Option Token)} →
    Ends (d + 1) rest → Ends (d + 1) rest' → t.nodeKinds ++ ks = u.nodeKinds ++ ks' →
    t.skeleton d ++ rest = u.skeleton d ++ rest' → t = u ∧ ks = ks' ∧ rest = rest'
  | .token k t, .token k' t', d, ks, ks', rest, rest', _, _, hk, hs => by
    simp_all [nodeKinds, skeleton]
  | .node k cs, .node k' cs', d, ks, ks', rest, rest', hr, hr', hk, hs => by
    rw [nodeKinds, nodeKinds, List.cons_append, List.cons_append] at hk
    rw [skeleton, skeleton, List.cons_append, List.cons_append] at hs
    obtain ⟨rfl, hkinds⟩ := List.cons.inj hk
    obtain ⟨rfl, hrest⟩ := eq_of_skeletonAll cs cs' (d + 1) hr hr' hkinds (List.cons.inj hs).2
    exact ⟨rfl, hrest⟩
  | .token k t, .node k' cs', d, _, _, _, _, _, _, _, hs => by simp [skeleton] at hs
  | .node k cs, .token k' t', d, _, _, _, _, _, _, _, hs => by simp [skeleton] at hs

theorem eq_of_skeletonAll : (ts us : List Tree) → (d : Nat) → {ks ks' : List Kind} →
    {rest rest' : List (Nat × Option Token)} → Ends d rest → Ends d rest' →
    nodeKindsAll ts ++ ks = nodeKindsAll us ++ ks' → skeletonAll d ts ++ rest = skeletonAll d us ++ rest' →
    ts = us ∧ ks = ks' ∧ rest = rest'
  | [], [], _, _, _, _, _, _, _, hk, hs => ⟨rfl, hk, hs⟩
  | [], u :: us, d, _, _, rest, rest', hr, _, _, hs => by
    obtain ⟨x, xs, hu⟩ := head?_skeleton d u
    rw [skeletonAll, skeletonAll, hu, List.nil_append] at hs
    have hlt := hr (d, x) (by simp [hs])
    exact absurd hlt (Nat.lt_irrefl d)
  | t :: ts, [], d, _, _, rest, rest', _, hr', _, hs => by
    obtain ⟨x, xs, ht⟩ := head?_skeleton d t
    rw [skeletonAll, skeletonAll, ht, List.nil_append] at hs
    have hlt := hr' (d, x) (by simp [← hs])
    exact absurd hlt (Nat.lt_irrefl d)
  | t :: ts, u :: us, d, ks, ks', rest, rest', hr, hr', hk, hs => by
    rw [nodeKindsAll, nodeKindsAll, List.append_assoc, List.append_assoc] at hk
    rw [skeletonAll, skeletonAll, List.append_assoc, List.append_assoc] at hs
    obtain ⟨rfl, hk, hs⟩ := eq_of_skeleton t u d (ends_skeletonAll hr ts) (ends_skeletonAll hr' us) hk hs
    obtain ⟨rfl, hrest⟩ := eq_of_skeletonAll ts us d hr hr' hk hs
    exact ⟨rfl, hrest⟩

end

theorem eq_iff_skeleton (t u : Tree) : t = u ↔ t.nodeKinds = u.nodeKinds ∧ t.skeleton 0 = u.skeleton 0 := by
  constructor
  · rintro rfl
    exact ⟨rfl, rfl⟩
  · rintro ⟨hk, hs⟩
    have hend : Ends 1 [] := by simp [Ends]
    exact (@eq_of_skeleton t u 0 [] [] [] [] hend hend (by simpa using hk) (by simpa using hs)).1

end Tree

namespace Consistency

theorem getElem?_commonLength {α : Type} [BEq α] [LawfulBEq α] (as bs : List α) :
    (as[commonLength as bs]? = none ∧ bs[commonLength as bs]? = none → as = bs) ∧
      ∀ a b, as[commonLength as bs]? = some a → bs[commonLength as bs]? = some b → a ≠ b := by
  fun_induction commonLength as bs with
  | case1 a as b bs hab ih => simpa [eq_of_beq hab] using ih
  | case2 a as b bs hab =>
    refine ⟨fun h => absurd h.1 (Option.some_ne_none a), fun x y hx hy => ?_⟩
    obtain rfl : a = x := Option.some.inj hx
    obtain rfl : b = y := Option.some.inj hy
    exact fun h => hab (beq_iff_eq.mpr h)
  | case3 as bs h =>
    cases as with
    | nil => cases bs <;> simp
    | cons a as =>
      cases bs with
      | nil => simp
      | cons b bs => exact absurd rfl (h a as b bs rfl)

theorem commonLength_self {α : Type} [BEq α] [LawfulBEq α] (as : List α) : commonLength as as = as.length := by
  induction as with
  | nil => rfl
  | cons a as ih => simp [commonLength, ih]

theorem shapeDifference?_eq_none {as bs : List Kind} : shapeDifference? as bs = none ↔ as = bs := by
  constructor
  · intro h
    simp only [shapeDifference?] at h
    split at h
    · cases h
    · rename_i ha hb
      exact (getElem?_commonLength as bs).1 ⟨ha, hb⟩
    · cases h
  · rintro rfl
    simp [shapeDifference?, commonLength_self]

def ReadsBack (c : Consistency) : Prop :=
  c.parse = fun t => .ok (Lintel.parse t).tree

theorem reparse?_eq {c : Consistency} (hc : c.ReadsBack) (source : Source) : c.reparse? source =
    .ok ((shapeDifference? source.tree.nodeKinds (Lintel.parse source.text).tree.nodeKinds).map .reparse) := by
  rw [ReadsBack] at hc
  simp [reparse?, hc, bind, Except.bind, pure, Except.pure, text_parse]

theorem reparse_not_mem_check {c : Consistency} (hc : c.ReadsBack) {old : Source} {r : Revision} {issues : List Issue}
    (h : c.check old r = .ok issues) : (∀ detail, Issue.reparse detail ∉ issues) ↔
      r.source.tree.nodeKinds = (Lintel.parse r.source.text).tree.nodeKinds := by
  simp only [check, reparse?_eq hc, bind, Except.bind, pure, Except.pure] at h
  cases hr : c.residuals r with
  | error f => simp [hr] at h
  | ok found =>
    simp only [hr, Except.ok.injEq] at h
    subst h
    rw [← shapeDifference?_eq_none]
    have hother : ∀ detail, Issue.reparse detail ∉ (lossless? old.text r).toList ++ found := by
      intro detail hm
      obtain hm | hm := List.mem_append.mp hm
      · simp [lossless?] at hm
      · obtain ⟨fixed, found', he⟩ := exists_of_mem_residuals hr hm
        cases he
    constructor
    · intro hall
      cases hd : shapeDifference? r.source.tree.nodeKinds (Lintel.parse r.source.text).tree.nodeKinds with
      | none => rfl
      | some detail => exact absurd (by simp [hd]) (hall detail)
    · intro hd detail hm
      apply hother detail
      simpa [hd] using hm

end Consistency

namespace FixEngine

theorem foldl_withdraw (fs : List Finding) (r : Revision) :
    (fs.foldl withdraw r).source = r.source ∧ (fs.foldl withdraw r).edits = r.edits := by
  induction fs generalizing r with
  | nil => exact ⟨rfl, rfl⟩
  | cons f fs ih => exact ih (withdraw r f)

def consistency (e : FixEngine) : Consistency :=
  { registry := e.registry, parse := e.parse, cancelled := e.cancelled }

theorem verified_cases {e : FixEngine} {source : Source} {r r' : Revision} (h : e.verified source r = .ok r') :
    ∃ issues, e.consistency.check source r = .ok issues ∧ (∀ i ∈ issues, i.fixed?.isSome = true) ∧
      r' = (issues.filterMap (·.fixed?)).foldl withdraw r := by
  simp only [verified, bind, Except.bind] at h
  rw [← consistency] at h
  cases hc : e.consistency.check source r with
  | error f => simp [hc] at h
  | ok issues =>
    simp only [hc] at h
    split at h
    · cases h
    · rename_i hm
      cases h
      refine ⟨issues, rfl, ?_, rfl⟩
      rw [Consistency.mismatch?, List.find?_eq_none] at hm
      intro i hi
      simpa [Option.isSome_iff_ne_none] using hm i hi

theorem verified_of_check {e : FixEngine} {source : Source} {r : Revision}
    (h : e.consistency.check source r = .ok []) : e.verified source r = .ok r := by
  simp only [verified, bind, Except.bind]
  rw [← consistency, h]
  rfl

theorem fixBatch_eq {e : FixEngine} {source : Source} {fs : List Finding} {edits : List Edit} {skipped : List Leftover}
    {r : Revision} (hedits : e.editsFor source (fs.filter (!·.auxiliary)) = .ok (edits, skipped))
    (happly : e.apply source edits = .ok r) : e.fixBatch source fs =
      if e.registry.settings.verifies && r.isChanged then e.verified source
        { r with leftovers := r.leftovers ++ skipped }
      else .ok { r with leftovers := r.leftovers ++ skipped } := by
  simp only [fixBatch, hedits, happly, bind, Except.bind]
  rfl

theorem fixBatch_cases {e : FixEngine} (hverifies : e.registry.settings.verifies = true) {source : Source}
    {fs : List Finding} {r : Revision} (h : e.fixBatch source fs = .ok r) (hchanged : r.isChanged = true) :
    ∃ r₀ issues, e.consistency.check source r₀ = .ok issues ∧ (∀ i ∈ issues, i.fixed?.isSome = true) ∧
      r = (issues.filterMap (·.fixed?)).foldl withdraw r₀ := by
  simp only [fixBatch, bind, Except.bind, pure, Except.pure, hverifies, Bool.true_and] at h
  cases he : e.editsFor source (fs.filter (!·.auxiliary)) with
  | error f => simp [he] at h
  | ok edits =>
    simp only [he] at h
    cases ha : e.apply source edits.1 with
    | error f => simp [ha] at h
    | ok r₀ =>
      simp only [ha] at h
      split at h
      · exact ⟨_, verified_cases h⟩
      · rename_i hn
        cases h
        exact absurd hchanged hn

end FixEngine

/-- The check of a revision sees the kinds of the nodes and nothing of the skeleton: it finds fault exactly if the
kinds differ from those that the text is read to have, and where it finds none, the tree is the one that the text is
read to have exactly if the skeletons agree. So it is with every changed revision that was verified. -/
theorem reparse_sees_nodeKinds {e : FixEngine} (hread : e.consistency.ReadsBack) :
    (∀ (old : Source) (r : Revision) (issues : List Issue), e.consistency.check old r = .ok issues →
      ((∀ detail, Issue.reparse detail ∉ issues) ↔
        r.source.tree.nodeKinds = (parse r.source.text).tree.nodeKinds) ∧
      ((∀ detail, Issue.reparse detail ∉ issues) →
        (r.source.tree.erase = (parse r.source.text).tree.erase ↔
          r.source.tree.erase.skeleton 0 = (parse r.source.text).tree.erase.skeleton 0))) ∧
    (∀ (source : Source) (fs : List Finding) (r : Revision), e.registry.settings.verifies = true →
      e.fixBatch source fs = .ok r → r.isChanged = true →
        r.source.tree.nodeKinds = (parse r.source.text).tree.nodeKinds ∧
        (r.source.tree.erase = (parse r.source.text).tree.erase ↔
          r.source.tree.erase.skeleton 0 = (parse r.source.text).tree.erase.skeleton 0)) := by
  have hskeleton {t u : Tree} (h : t.nodeKinds = u.nodeKinds) :
      t.erase = u.erase ↔ t.erase.skeleton 0 = u.erase.skeleton 0 := by
    rw [Tree.eq_iff_skeleton, Tree.nodeKinds_erase, Tree.nodeKinds_erase]
    exact and_iff_right h
  constructor
  · intro old r issues h
    have hiff := Consistency.reparse_not_mem_check hread h
    exact ⟨hiff, fun hnone => hskeleton (hiff.mp hnone)⟩
  · intro source fs r hverifies h hchanged
    obtain ⟨r₀, issues, hcheck, hfixed, rfl⟩ := FixEngine.fixBatch_cases hverifies h hchanged
    rw [(FixEngine.foldl_withdraw _ r₀).1]
    have hkinds := (Consistency.reparse_not_mem_check hread hcheck).mp (by
      intro detail hm
      have := hfixed _ hm
      cases this)
    exact ⟨hkinds, hskeleton hkinds⟩

namespace NestedQuery

def space : Tree :=
  .token .whitespace [' ']

def name (c : Char) : Tree :=
  .node .nameExpr [.token .ident [c]]

def fromClause (x y : Char) : Tree :=
  .node .fromClause [.token .fromKw "from".toList, space, .token .ident [x], space, .token .inKw "in".toList, space,
    name y]

def selectClause (ts : List Tree) : Tree :=
  .node .selectClause (.token .selectKw "select".toList :: ts)

def continuation : Tree :=
  .node .queryContinuation [.token .intoKw "into".toList, space, .token .ident ['e'], space,
    selectClause [space, name 'e']]

def inner (ts : List Tree) : Tree :=
  .node .queryExpr ([fromClause 'c' 'd', space, selectClause [space, name 'c']] ++ ts)

def statement (ts : List Tree) : Tree :=
  .node .compilationUnit [.node .exprStmt [.node .assignmentExpr [name 'x', .token .eq ['='],
    .node .queryExpr ([fromClause 'a' 'b', space] ++ ts)], .token .semicolon [';']]]

def parenthesized : Tree :=
  statement [selectClause [.node .parenExpr [.token .lParen ['('], inner [], .token .rParen [')']]], continuation]

def bared : Tree :=
  statement [selectClause [space, inner [], space], continuation]

def reread : Tree :=
  statement [selectClause [space, inner [space, continuation]]]

def engine : FixEngine :=
  { registry := { settings := {}, rules := [Parentheses.rule], exempts := fun _ => false } }

def finding : Finding :=
  { rule := Parentheses.id, span := ⟨20, 22⟩, secondary := [⟨20, 1⟩, ⟨41, 1⟩] }

theorem readings : parenthesized.text = "x=from a in b select(from c in d select c)into e select e;".toList ∧
    ((parse parenthesized.text).tree.same parenthesized = true ∧ (parse parenthesized.text).faults = []) ∧
    (parse bared.text).tree.same reread = true ∧
    ({ registry := engine.registry } : Dispatch).collectPrimary ⟨parenthesized, none⟩ false = .ok [finding] := by
  decide +kernel

theorem parse_parenthesized :
    (parse parenthesized.text).tree = parenthesized ∧ (parse parenthesized.text).faults = [] :=
  And.imp_left (Tree.eq_of_same _ _) readings.2.1

theorem parse_bared : (parse bared.text).tree = reread :=
  Tree.eq_of_same _ _ readings.2.2.1

def edit : Edit :=
  { finding, parts := [⟨⟨20, 1⟩, .removeToken .lParen true, nofun⟩, ⟨⟨41, 1⟩, .removeToken .rParen true, nofun⟩] }

def revision : Revision :=
  { source := ⟨bared, none⟩, applied := [finding]
    edits := [⟨Parentheses.id, ⟨20, 1⟩, [' ']⟩, ⟨Parentheses.id, ⟨41, 1⟩, [' ']⟩]
    offsets := ⟨[⟨⟨20, 1⟩, 1⟩, ⟨⟨41, 1⟩, 1⟩]⟩ }

theorem apply_parenthesized : Batch.apply ⟨parenthesized, none⟩ [edit] false = .ok revision := by
  have horder : (Batch.tagged [edit]).Pairwise (fun x y => x.2.Precedes y.2) :=
    Batch.pairwise_tagged (by simp [edit, Part.Leads, Span.stop])
  have hresolve : ∀ e ∈ [edit], ∀ p ∈ e.parts, (p.resolve parenthesized 0).toOption.isSome = true := by decide
  have hfold : (Batch.tagged [edit]).reverse.foldlM Batch.step { tree := parenthesized } =
      .ok { tree := bared, made := revision.edits } := by with_unfolding_all rfl
  have hdeltas : Batch.deltas revision.edits = revision.offsets :=
    congrArg OffsetMap.mk (List.mergeSort_of_pairwise (by decide))
  have happly : Batch.apply ⟨parenthesized, none⟩ [edit] false = _ :=
    Batch.apply_ordered (.refl _) horder (by simp) (by simp [edit]) hresolve hfold
  rw [happly, hdeltas]
  rfl

theorem fixBatch_parenthesized : engine.fixBatch ⟨parenthesized, none⟩ [finding] = .ok revision := by
  have hedits : engine.editsFor ⟨parenthesized, none⟩ [finding] = .ok ([edit], []) := rfl
  have happly : engine.apply ⟨parenthesized, none⟩ [edit] = .ok revision := by
    rw [FixEngine.apply, show engine.cancelled = false from rfl, apply_parenthesized]
  have hlossless : Consistency.lossless? parenthesized.text revision = none := by
    rw [Consistency.lossless?, Applied.splice, List.mergeSort_of_pairwise (by decide)]
    rfl
  have hresiduals : engine.consistency.residuals revision = .ok [] := by with_unfolding_all rfl
  have hkinds : bared.nodeKinds = reread.nodeKinds := by decide
  have hreparse : engine.consistency.reparse? revision.source = .ok none := by
    rw [Consistency.reparse?_eq (c := engine.consistency) rfl, show revision.source.text = bared.text from rfl,
      parse_bared,
      Consistency.shapeDifference?_eq_none.mpr (show revision.source.tree.nodeKinds = reread.nodeKinds from hkinds)]
    rfl
  have hcheck : engine.consistency.check ⟨parenthesized, none⟩ revision = .ok [] := by
    rw [Consistency.check, hreparse, hresiduals]
    exact congrArg (fun i => Except.ok (Option.toList i ++ [] ++ [])) hlossless
  rw [FixEngine.fixBatch_eq hedits happly]
  exact FixEngine.verified_of_check hcheck

theorem reparse_sees_nodeKinds_bared :
    engine.fixBatch (.ofText parenthesized.text none) [finding] = .ok revision ∧
      revision.source.tree.nodeKinds = (parse revision.source.text).tree.nodeKinds ∧
      (revision.source.tree.erase = (parse revision.source.text).tree.erase ↔
        revision.source.tree.erase.skeleton 0 = (parse revision.source.text).tree.erase.skeleton 0) := by
  have hfix : engine.fixBatch (.ofText parenthesized.text none) [finding] = .ok revision := by
    rw [Source.ofText, parse_parenthesized.1]
    exact fixBatch_parenthesized
  exact ⟨hfix, (reparse_sees_nodeKinds (e := engine) rfl).2 _ _ revision rfl hfix rfl⟩

/-- A fix that was verified may leave a tree that its text is not read to have. -/
theorem fixBatch_bared :
    parenthesized.text = "x=from a in b select(from c in d select c)into e select e;".toList ∧
      (parse parenthesized.text).faults = [] ∧
      ({ registry := engine.registry } : Dispatch).collectPrimary (.ofText parenthesized.text none) false =
        .ok [finding] ∧
      engine.fixBatch (.ofText parenthesized.text none) [finding] = .ok revision ∧
      revision.source.tree.erase ≠ (parse revision.source.text).tree.erase := by
  obtain ⟨htext, -, -, hfound⟩ := readings
  have hskeleton : bared.erase.skeleton 0 ≠ reread.erase.skeleton 0 := by decide
  refine ⟨htext, parse_parenthesized.2, ?_, ?_, ?_⟩
  · rw [Source.ofText, parse_parenthesized.1]
    exact hfound
  · rw [Source.ofText, parse_parenthesized.1]
    exact fixBatch_parenthesized
  · rw [show revision.source.text = bared.text from rfl, parse_bared]
    exact fun h => hskeleton (congrArg (Tree.skeleton 0) h)

end NestedQuery

end Lintel
