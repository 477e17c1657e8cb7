import Lintel.Proofs.Patches

namespace Lintel

namespace Zipper

theorem map_token_leaves (k : Kind) (ds : List Tree) : (leaves (.node k ds)).map token = (Tree.node k ds).tokens := by
  rw [← map_token, ← Tree.map_toToken_cells k, Tree.cells, ← map_cell_leavesAll k [] [] ds]
  rfl

end Zipper

namespace Draft

variable {k k' : Kind} {bs ds : List Tree} {ts : List Token} (h : Draft k bs (.node k' ds) ts)

include h

theorem filledAll : Tree.FilledAll ds := by
  have herase := h.erase
  rw [Tree.erase, Tree.node.injEq] at herase
  exact Tree.filledAll_of_eraseAll ds (herase.2 ▸ h.filled)

theorem full_leaf : ∀ z ∈ Zipper.leaves (.node k' ds), 0 < z.token.text.size := by
  intro z hz
  refine h.full z.token ?_
  rw [← h.tokens, ← Zipper.map_token_leaves]
  exact List.mem_map_of_mem hz

end Draft

namespace Zipper

def takingPart (z : Zipper) : Part :=
  .taking (!z.token.isTrivia) z.start z.token

def mark (rule : String) (offsets : List Nat) (z : Zipper) : Mark :=
  { token := z.token, gone := if z.start ∈ offsets then some rule else none }

section Leaves

variable {k : Kind} {ds : List Tree} (hfill : Tree.FilledAll ds)

include hfill

theorem start_leaf_token {ls rs : List Zipper} {z : Zipper} (h : leaves (.node k ds) = ls ++ z :: rs) :
    z.start = Token.extent (ls.map token) := by
  rw [start_leaf hfill h, ← extent_map_cell, Cell.extent_eq, map_token]

theorem pairwise_start (hfull : ∀ z ∈ leaves (.node k ds), 0 < z.token.text.size) (pre : List Zipper) {zs : List Zipper}
    (h : leaves (.node k ds) = pre ++ zs) : zs.Pairwise (fun y z => y.start < z.start) := by
  induction zs generalizing pre with
  | nil => exact .nil
  | cons z zs ih =>
    refine .cons (fun y hy => ?_) (ih (pre ++ [z]) (by simpa using h))
    obtain ⟨ys, ys', rfl⟩ := List.append_of_mem hy
    have hz := hfull z (by rw [h]; simp)
    have hsplit : leaves (.node k ds) = (pre ++ z :: ys) ++ y :: ys' := by simpa using h
    rw [start_leaf_token hfill h, start_leaf_token hfill hsplit]
    simp only [List.map_append, List.map_cons, Token.extent_append, Token.extent_cons]
    omega

theorem eq_of_start (hfull : ∀ z ∈ leaves (.node k ds), 0 < z.token.text.size) {y z : Zipper}
    (hy : y ∈ leaves (.node k ds)) (hz : z ∈ leaves (.node k ds)) (h : y.start = z.start) : y = z := by
  have hpair := pairwise_start hfill hfull [] rfl
  by_contra hne
  have hapart : y.start < z.start ∨ z.start < y.start := by
    refine List.Pairwise.forall_of_forall_of_flip (R := fun y z => y ≠ z → y.start < z.start ∨ z.start < y.start)
      (fun x _ hx => absurd rfl hx) (hpair.imp fun hlt _ => .inl hlt) (hpair.imp fun hlt _ => .inr hlt) hy hz hne
  omega

theorem parts_mark (rule : String) (offsets : List Nat) (pre : List Zipper) {zs : List Zipper}
    (h : leaves (.node k ds) = pre ++ zs)
    (last : Option Token) : Mark.parts last (Token.extent (pre.map token)) (zs.map (mark rule offsets)) =
      (zs.filter (·.start ∈ offsets)).map (fun z => (rule, z.takingPart)) := by
  induction zs generalizing pre last with
  | nil => rfl
  | cons z zs ih =>
    have hstart := start_leaf_token hfill h
    have htail := ih (pre ++ [z]) (by simpa using h) (some z.token)
    rw [List.map_append, Token.extent_append, List.map_singleton, Token.extent_cons, Token.extent_nil,
      Nat.add_zero] at htail
    have hown : (mark rule offsets z).own last (Token.extent (pre.map token)) =
        if z.start ∈ offsets then [(rule, z.takingPart)] else [] := by
      rw [← hstart, Mark.own, mark]
      split <;> rfl
    rw [List.map_cons, Mark.parts, hown, List.filter_cons, show (mark rule offsets z).token = z.token from rfl, htail]
    split <;> simp_all

theorem filter_start (hfull : ∀ z ∈ leaves (.node k ds), 0 < z.token.text.size) {gone : List Zipper}
    (hgone : ∀ z ∈ gone, z ∈ leaves (.node k ds)) (hnodup : gone.Nodup) :
    gone.Perm ((leaves (.node k ds)).filter (·.start ∈ gone.map (·.start))) := by
  have hleaves : (leaves (.node k ds)).Nodup :=
    (pairwise_start hfill hfull [] rfl).imp fun hlt heq => absurd (congrArg start heq) hlt.ne
  rw [List.perm_ext_iff_of_nodup hnodup (hleaves.filter _)]
  intro z
  rw [List.mem_filter, decide_eq_true_iff]
  constructor
  · exact fun hz => ⟨hgone z hz, List.mem_map_of_mem hz⟩
  · rintro ⟨hz, hstart⟩
    obtain ⟨y, hy, heq⟩ := List.mem_map.mp hstart
    rwa [← eq_of_start hfill hfull (hgone y hy) hz heq]

end Leaves

theorem able_mark {k : Kind} {bs ds : List Tree} {ts : List Token} {offsets : List Nat} (rule : String)
    (h : Draft k bs (.node k ds) ts)
    (hown : ∀ z ∈ leaves (.node k ds), z.start ∈ offsets → z.token.isTrivia = false → z.cell.owner = .parenExpr)
    (pre : List Zipper) {zs : List Zipper} (hleaves : leaves (.node k ds) = pre ++ zs) :
    Mark.Able (Tree.cellsAll k bs) (pre.map token) (zs.map (mark rule offsets)) := by
  induction zs generalizing pre with
  | nil => trivial
  | cons z zs ih =>
    refine ⟨fun hgone hsig => ?_, nofun, ?_⟩
    · have hat : z.start ∈ offsets := by
        by_contra hno
        rw [mark, if_neg hno] at hgone
        cases hgone
      rw [h.getElem?_leaf rfl hleaves hsig, Option.map_some, hown z (by rw [hleaves]; simp) hat hsig]
    · have hnext := ih (pre ++ [z]) (by simpa using hleaves)
      rwa [List.map_append] at hnext

def rank (z : Zipper) : Nat :=
  tokensBefore (z.above.map Frame.erase)

theorem rank_leaf {k : Kind} {ds : List Tree} {ls rs : List Zipper} {z : Zipper}
    (h : leaves (.node k ds) = ls ++ z :: rs) : z.rank = Token.weight (ls.map token) := by
  rw [rank, tokensBefore_erase, (split_leavesOf [] (.node k ds) h).1, cellsBefore, List.nil_append, map_token]

theorem mem_sheds_mark (rule : String) {offsets : List Nat} {zs : List Zipper} {n i : Nat} :
    i ∈ Mark.sheds n (zs.map (mark rule offsets)) ↔ ∃ (pre : List Zipper) (z : Zipper) (post : List Zipper),
      zs = pre ++ z :: post ∧ z.start ∈ offsets ∧ z.token.isTrivia = false ∧ i = n + Token.weight (pre.map token) := by
  induction zs generalizing n with
  | nil => simp [Mark.sheds]
  | cons z zs ih =>
    have hshed : i ∈ (mark rule offsets z).shed n ↔ z.start ∈ offsets ∧ z.token.isTrivia = false ∧ i = n := by
      rw [Mark.shed, mark]
      by_cases hz : z.start ∈ offsets <;> cases z.token.isTrivia <;> simp [hz]
    rw [List.map_cons, Mark.sheds, List.mem_append, hshed, ih, show (mark rule offsets z).token = z.token from rfl]
    constructor
    · rintro (⟨hz, ht, rfl⟩ | ⟨pre, y, post, rfl, hy, ht, rfl⟩)
      · exact ⟨[], z, zs, rfl, hz, ht, rfl⟩
      · refine ⟨z :: pre, y, post, rfl, hy, ht, ?_⟩
        rw [List.map_cons, Token.weight_cons z.token (pre.map token), Nat.add_assoc]
    · rintro ⟨pre, y, post, hsplit, hy, ht, rfl⟩
      cases pre with
      | nil =>
        obtain ⟨rfl, rfl⟩ := List.cons.inj hsplit
        exact .inl ⟨hy, ht, rfl⟩
      | cons x pre =>
        obtain ⟨rfl, rfl⟩ := List.cons.inj hsplit
        refine .inr ⟨pre, y, post, rfl, hy, ht, ?_⟩
        rw [List.map_cons, Token.weight_cons z.token (pre.map token), Nat.add_assoc]

theorem sheds_mark {k : Kind} {ds : List Tree} (hfill : Tree.FilledAll ds)
    (hfull : ∀ z ∈ leaves (.node k ds), 0 < z.token.text.size) {gone : List Zipper}
    (hgone : ∀ z ∈ gone, z ∈ leaves (.node k ds)) (rule : String) {ranks : List Nat} (hranks : ranks.Pairwise (· < ·))
    (hmem : ∀ i, i ∈ ranks ↔ ∃ z ∈ gone, z.token.isTrivia = false ∧ z.rank = i) :
    Mark.sheds 0 ((leaves (.node k ds)).map (mark rule (gone.map (·.start)))) = ranks := by
  have hsorted := Mark.pairwise_sheds 0 ((leaves (.node k ds)).map (mark rule (gone.map (·.start))))
  refine List.Perm.eq_of_pairwise (fun a b _ _ hab hba => absurd hab (by omega)) hsorted hranks ?_
  rw [List.perm_ext_iff_of_nodup (hsorted.imp fun h => h.ne) (hranks.imp fun h => h.ne)]
  intro i
  rw [mem_sheds_mark, hmem]
  constructor
  · rintro ⟨pre, z, post, hsplit, hstart, ht, rfl⟩
    obtain ⟨y, hy, heq⟩ := List.mem_map.mp hstart
    obtain rfl := eq_of_start hfill hfull (hgone y hy) (by rw [hsplit]; simp) heq
    exact ⟨y, hy, ht, by rw [rank_leaf hsplit, Nat.zero_add]⟩
  · rintro ⟨z, hz, ht, rfl⟩
    obtain ⟨pre, post, hsplit⟩ := List.append_of_mem (hgone z hz)
    exact ⟨pre, z, post, hsplit, List.mem_map_of_mem hz, ht, by rw [rank_leaf hsplit, Nat.zero_add]⟩

end Zipper

namespace Batch

open Zipper

theorem apply_taking {k : Kind} {bs ds : List Tree} (source : Source) (edits : List Edit) {gone : List Zipper}
    (rule : String) (ht : source.tree = .node k ds) (h : Draft k bs source.tree source.tree.tokens)
    (hk : k ≠ .parenExpr)
    (hgone : ∀ z ∈ gone, z ∈ leaves source.tree) (hnodup : gone.Nodup)
    (hown : ∀ z ∈ gone, z.token.isTrivia = false → z.cell.owner = .parenExpr) (hedits : edits ≠ [])
    (hne : ∀ e ∈ edits, e.parts ≠ []) (htagged : tagged edits = gone.map (fun z => (rule, z.takingPart))) :
    ∃ (ps : List Patch) (tree : Tree),
      ps.map (·.toMark) = (leaves source.tree).map (mark rule (gone.map (·.start))) ∧ Patch.Filling none ps ∧
      Draft k ((Mark.sheds 0 ((leaves source.tree).map (mark rule (gone.map (·.start))))).foldr Tree.shedAll bs) tree
        (ps.flatMap Patch.image) ∧
      apply source edits false = .ok
        { source := { source with tree }, applied := edits.map (·.finding), edits := Patch.made 0 ps
          offsets := deltas (Patch.made 0 ps) } := by
  obtain ⟨tree, path⟩ := source
  obtain rfl : tree = .node k ds := ht
  have hfill := h.filledAll
  have hfull := h.full_leaf
  have hmarks : ((leaves (.node k ds)).map (mark rule (gone.map (·.start)))).map (·.token) =
    (Tree.node k ds).tokens := by
    rw [List.map_map, ← map_token_leaves]
    rfl
  rw [← hmarks] at h
  refine apply_marks h hk ?_ ?_ hedits hne
  · refine able_mark rule h (fun z hz hstart hsig => ?_) [] rfl
    obtain ⟨y, hy, heq⟩ := List.mem_map.mp hstart
    rw [← eq_of_start hfill hfull (hgone y hy) hz heq] at hsig ⊢
    exact hown y hy hsig
  · have hparts := parts_mark hfill rule (gone.map (·.start)) [] (List.nil_append (leaves (.node k ds))).symm none
    rw [htagged]
    exact hparts ▸ (filter_start hfill hfull hgone hnodup).map _

end Batch

end Lintel
