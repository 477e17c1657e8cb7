import Lintel.Proofs.NodeBoundaries
import Mathlib.Data.List.Nodup

/-!
Which token owns which trivia. What stands between two significant tokens is cut after the first line end: the first
part goes with the token before, looking ahead from it, the second with the token after, looking back from that. So the
tokens of a text without complaints are its significant ones, each with what it owns, and what is left over stands after
the line of the last one.
-/

namespace Lintel

namespace Zipper

theorem tokens_ofRoot (root : Tree) : (ofRoot root).tokens = leaves root := by
  have hfilter : ∀ zs : List Zipper, zs.filter (·.isToken) = zs.flatMap (fun z => if z.isToken then [z] else []) := by
    intro zs
    induction zs with
    | nil => rfl
    | cons z zs ih => cases hz : z.isToken <;> simp [hz, ih]
  have hleaves : (leaves root).filter (·.isToken) = leaves root :=
    List.filter_eq_self.mpr fun z hz => (root_leavesOf [] root z hz).2
  have hnode : ∀ z : Zipper, z.isNode = true → (if z.isToken then [z] else []) = [] := by
    intro z hz
    rw [isNode, Tree.isNode_eq, Bool.not_eq_true'] at hz
    exact if_neg (by rw [isToken, hz]; exact Bool.false_ne_true)
  rw [tokens, hfilter, preorder, ofRoot, flatMap_preorderOf hnode, ← hfilter]
  exact hleaves

theorem takeLine_append_dropLine (zs : List Zipper) : takeLine zs ++ dropLine zs = zs := by
  induction zs with
  | nil => rfl
  | cons z zs ih =>
    rw [takeLine, dropLine]
    split
    · rfl
    · rw [List.cons_append, ih]

theorem getLast?_takeLine (zs : List Zipper) :
    (takeLine zs).getLast? = (zs.find? (·.kind == .newline)).or zs.getLast? := by
  induction zs with
  | nil => rfl
  | cons z zs ih =>
    rw [takeLine, List.find?_cons]
    cases hz : z.kind == .newline with
    | true => rfl
    | false =>
      rw [if_neg Bool.false_ne_true, List.getLast?_cons, ih, List.getLast?_cons]
      cases zs.find? (·.kind == .newline) <;> rfl

def owned (z : Zipper) : List Zipper :=
  z.leading ++ z :: z.trailing

def significant (zs : List Zipper) : List Zipper :=
  zs.filter (!·.isTrivia)

theorem significant_append (ys zs : List Zipper) : significant (ys ++ zs) = significant ys ++ significant zs :=
  List.filter_append ys zs

theorem significant_cons {z : Zipper} (hz : z.isTrivia = false) (zs : List Zipper) :
    significant (z :: zs) = z :: significant zs := by
  rw [significant, List.filter_cons_of_pos (by rw [hz]; rfl)]
  rfl

theorem significant_eq_nil {zs : List Zipper} (h : ∀ z ∈ zs, z.isTrivia = true) : significant zs = [] := by
  rw [significant, List.filter_eq_nil_iff]
  intro z hz
  rw [h z hz]
  exact Bool.false_ne_true

theorem exists_gap (zs : List Zipper) : ∃ gap rest, zs = gap ++ rest ∧ (∀ z ∈ gap, z.isTrivia = true) ∧
    ∀ z ∈ rest.head?, z.isTrivia = false := by
  refine ⟨zs.takeWhile (·.isTrivia), zs.dropWhile (·.isTrivia), List.takeWhile_append_dropWhile.symm,
    fun z hz => List.mem_takeWhile_imp hz, ?_⟩
  intro z hz
  have hnot := List.head?_dropWhile_not (·.isTrivia) zs
  rw [Option.mem_def.mp hz] at hnot
  simpa using hnot

section Attachment

variable {k : Kind} {cs : List Tree} (hfill : Tree.FilledAll cs) {ls rs : List Zipper} {z : Zipper}
  (h : leaves (.node k cs) = ls ++ z :: rs)

include hfill h

theorem trailing_leaf {gap rest : List Zipper} (hrs : rs = gap ++ rest) (hgap : ∀ y ∈ gap, y.isTrivia = true)
    (hrest : ∀ y ∈ rest.head?, y.isTrivia = false) : z.trailing = takeLine gap := by
  rw [trailing, followingWhile_eq, following_leaf hfill h, hrs, List.takeWhile_append_of_pos hgap]
  cases rest with
  | nil => simp
  | cons y rest => simp [hrest y rfl]

theorem leading_leaf_first (hls : ∀ y ∈ ls, y.isTrivia = true) : z.leading = ls := by
  have hback : ∀ y ∈ ls.reverse, y.isTrivia = true := fun y hy => hls y (List.mem_reverse.mp hy)
  have hnone : ls.reverse.find? (!·.isTrivia) = none := by
    rw [List.find?_eq_none]
    intro y hy
    simp [hback y hy]
  have hall : ls.reverse.takeWhile (·.isTrivia) = ls.reverse := by
    rw [List.takeWhile_eq_self_iff]
    exact hback
  have hwalk : walk prevToken? z.reach z = ls.reverse := preceding_leaf hfill h
  simp only [leading, triviaBefore, precedingWhile_eq, preceding_leaf hfill h, walkTo?_eq, hwalk, hnone, hall]
  exact List.reverse_reverse ls

theorem leading_leaf {ms gap : List Zipper} {y : Zipper} (hls : ls = ms ++ y :: gap) (hy : y.isTrivia = false)
    (hgap : ∀ x ∈ gap, x.isTrivia = true) : z.leading = dropLine gap := by
  have hback : ls.reverse = gap.reverse ++ y :: ms.reverse := by simp [hls]
  have hrun : ls.reverse.takeWhile (·.isTrivia) = gap.reverse := by
    rw [hback, List.takeWhile_append_of_pos (fun x hx => hgap x (List.mem_reverse.mp hx))]
    simp [hy]
  have hsome : (ls.reverse.find? (!·.isTrivia)).isSome = true := by
    rw [List.find?_isSome]
    exact ⟨y, by simp [hls], by rw [hy]; rfl⟩
  have hwalk : walk prevToken? z.reach z = ls.reverse := preceding_leaf hfill h
  simp only [leading, triviaBefore, precedingWhile_eq, preceding_leaf hfill h, walkTo?_eq, hwalk, hsome, hrun]
  rw [if_pos trivial, List.reverse_reverse]

theorem flatMap_owned_from (hz : z.isTrivia = false) : ∃ ms last gap, z :: rs = ms ++ last :: gap ∧
    last.isTrivia = false ∧ (∀ y ∈ gap, y.isTrivia = true) ∧
    (significant (z :: rs)).flatMap owned ++ dropLine gap = z.leading ++ z :: rs := by
  induction hn : rs.length using Nat.strong_induction_on generalizing ls z rs with
  | _ n ih =>
    obtain ⟨gap, rest, rfl, hgap, hrest⟩ := exists_gap rs
    have htrailing := trailing_leaf hfill h rfl hgap hrest
    cases rest with
    | nil =>
      refine ⟨[], z, gap, by simp, hz, hgap, ?_⟩
      rw [List.append_nil, significant_cons hz, significant_eq_nil hgap, List.flatMap_singleton, owned, htrailing,
        List.append_assoc, List.cons_append, takeLine_append_dropLine]
    | cons y rest =>
      have hy : y.isTrivia = false := hrest y rfl
      have hnext : leaves (.node k cs) = (ls ++ z :: gap) ++ y :: rest := by simpa using h
      have hleading := leading_leaf hfill hnext rfl hz hgap
      obtain ⟨ms, last, end_, hsplit, hlast, hend, hall⟩ := ih rest.length (by simp [← hn]; omega) hnext hy rfl
      refine ⟨z :: gap ++ ms, last, end_, by rw [← List.cons_append, hsplit, List.append_assoc], hlast, hend, ?_⟩
      rw [significant_cons hz, significant_append, significant_eq_nil hgap, List.nil_append, List.flatMap_cons,
        List.append_assoc, hall, hleading, owned, htrailing]
      calc z.leading ++ z :: takeLine gap ++ (dropLine gap ++ y :: rest)
          = z.leading ++ z :: (takeLine gap ++ dropLine gap ++ y :: rest) := by simp
        _ = z.leading ++ z :: (gap ++ y :: rest) := by rw [takeLine_append_dropLine]

omit h in
theorem flatMap_owned : ∃ rest, (significant (leaves (.node k cs))).flatMap owned ++ rest = leaves (.node k cs) := by
  obtain ⟨lead, rest, hsplit, hlead, hrest⟩ := exists_gap (leaves (.node k cs))
  cases rest with
  | nil =>
    rw [List.append_nil] at hsplit
    rw [hsplit, significant_eq_nil hlead]
    exact ⟨lead, rfl⟩
  | cons z rs =>
    obtain ⟨ms, last, gap, -, -, -, hall⟩ := flatMap_owned_from hfill hsplit (hrest z rfl)
    rw [leading_leaf_first hfill hsplit hlead, ← hsplit] at hall
    have hsig : significant (leaves (.node k cs)) = significant (z :: rs) := by
      rw [hsplit, significant_append, significant_eq_nil hlead, List.nil_append]
    exact ⟨dropLine gap, by rw [hsig, hall]⟩

end Attachment

section Spans

theorem start_fullSpan {y z : Zipper} (hy : z.owned.head? = some y) : z.fullSpan.start = y.start := by
  rw [owned] at hy
  rw [fullSpan, Span.start_between]
  cases hleading : z.leading with
  | nil =>
    rw [hleading] at hy
    cases hy
    rfl
  | cons x xs =>
    rw [hleading] at hy
    cases hy
    rfl

theorem pairwise_of_isChain {zs : List Zipper} (h : zs.IsChain Link) :
    zs.Pairwise (fun y z => y.span.stop ≤ z.start) := by
  have htrans : IsTrans Zipper (fun y z => y.span.stop ≤ z.start) :=
    ⟨fun x y z hxy hyz => Nat.le_trans hxy (Nat.le_trans (Nat.le_add_right _ _) hyz)⟩
  exact List.isChain_iff_pairwise.mp (h.imp fun y z hl => Nat.le_of_eq hl.start.symm)

theorem stop_fullSpan {y z : Zipper} (hchain : z.owned.IsChain Link) (hy : z.owned.getLast? = some y) :
    z.fullSpan.stop = y.span.stop := by
  obtain ⟨x, hx⟩ : ∃ x, z.owned.head? = some x := ⟨_, List.head?_eq_some_head (by simp [owned])⟩
  have hstart := start_fullSpan hx
  have hlast : y = z.trailing.getLast?.getD z := by
    rw [owned, List.getLast?_append_of_ne_nil _ (List.cons_ne_nil _ _), List.getLast?_cons] at hy
    exact (Option.some.inj hy).symm
  have hle : x.start ≤ y.span.stop := by
    obtain ⟨xs, hxs⟩ := List.head?_eq_some_iff.mp hx
    rw [hxs] at hy hchain
    obtain rfl | hmem := List.mem_cons.mp (List.mem_of_getLast? hy)
    · exact Nat.le_add_right _ _
    · have hfirst := (List.pairwise_cons.mp (pairwise_of_isChain hchain)).1 y hmem
      exact Nat.le_trans (Nat.le_trans (Nat.le_add_right _ _) hfirst) (Nat.le_add_right _ _)
  rw [fullSpan, Span.start_between] at hstart
  have hstop : z.trailing.getLast?.elim z.span.stop (·.span.stop) = y.span.stop := by
    rw [hlast]
    cases z.trailing.getLast? <;> rfl
  rw [fullSpan, hstart, hstop, Span.stop_between hle]

theorem isChain_owned {zs rest : List Zipper} (h : (zs.flatMap owned ++ rest).IsChain Link) {z : Zipper}
    (hz : z ∈ zs) : z.owned.IsChain Link := by
  obtain ⟨as, bs, rfl⟩ := List.append_of_mem hz
  rw [List.flatMap_append, List.flatMap_cons] at h
  exact (List.isChain_append.mp (List.isChain_append.mp (List.isChain_append.mp h).1).2.1).1

theorem isChain_fullSpan {zs rest : List Zipper} (h : (zs.flatMap owned ++ rest).IsChain Link) :
    zs.IsChain (fun y z => y.fullSpan.stop = z.fullSpan.start) := by
  induction zs with
  | nil => exact .nil
  | cons y zs ih =>
    have hy := isChain_owned h List.mem_cons_self
    rw [List.flatMap_cons, List.append_assoc] at h
    obtain ⟨-, hrest, hseam⟩ := List.isChain_append.mp h
    rw [List.isChain_cons]
    refine ⟨?_, ih hrest⟩
    intro z hz
    obtain ⟨zs, rfl⟩ := List.head?_eq_some_iff.mp hz
    obtain ⟨last, hlast⟩ : ∃ x, y.owned.getLast? = some x := ⟨_, List.getLast?_eq_some_getLast (by simp [owned])⟩
    obtain ⟨first, hfirst⟩ : ∃ x, z.owned.head? = some x := ⟨_, List.head?_eq_some_head (by simp [owned])⟩
    have hlink := hseam last hlast first (by
      rw [List.flatMap_cons, List.append_assoc, List.head?_append_of_ne_nil _ (by simp [owned])]
      exact hfirst)
    rw [stop_fullSpan hy hlast, start_fullSpan hfirst, hlink.start]
    rfl

end Spans

/-- How the trivia among the tokens of a text of some size goes with the significant ones. -/
structure Apportioned (size : Nat) (all : List Zipper) : Prop where
  start : ∀ z ∈ (significant all).head?, z.fullSpan.start = 0
  next : (significant all).IsChain (fun y z => y.fullSpan.stop = z.fullSpan.start)
  stop : ∀ (ls : List Zipper) (z : Zipper) (rs : List Zipper), all = ls ++ z :: rs → z.isTrivia = false →
    (∀ y ∈ rs, y.isTrivia = true) → z.fullSpan.stop = (rs.find? (·.kind == .newline)).elim size (·.span.stop)
  owner : ∀ last ∈ (significant all).getLast?, ∀ y ∈ all, y.isTrivia = true → y.start < last.fullSpan.stop →
    ∃! z, z ∈ significant all ∧ (y ∈ z.leading ∨ y ∈ z.trailing)
  once : ∀ z ∈ significant all, ∀ y ∈ z.leading, y ∉ z.trailing
  free : ∀ last ∈ (significant all).getLast?, ∀ y ∈ all, last.fullSpan.stop ≤ y.start →
    ∀ z ∈ significant all, y ∉ z.leading ∧ y ∉ z.trailing

section Apportioning

variable {zs rest : List Zipper} (hchain : (zs.flatMap owned ++ rest).IsChain Link)
  (hpos : ∀ z ∈ zs.flatMap owned ++ rest, 0 < z.focus.size)

include hchain hpos

theorem nodup_flatMap_owned : (zs.flatMap owned).Nodup := by
  have hpairs := (List.pairwise_append.mp (pairwise_of_isChain hchain)).1
  refine hpairs.imp_of_mem ?_
  rintro y z hy - hle rfl
  have hy := hpos y (List.mem_append_left _ hy)
  simp only [span, Span.stop] at hle
  omega

theorem start_lt_iff {last : Zipper} (hlast : zs.getLast? = some last) {y : Zipper}
    (hy : y ∈ zs.flatMap owned ++ rest) :
    y.start < last.fullSpan.stop ↔ y ∈ zs.flatMap owned := by
  obtain ⟨ms, rfl⟩ := List.getLast?_eq_some_iff.mp hlast
  obtain ⟨x, hx⟩ : ∃ x, last.owned.getLast? = some x := ⟨_, List.getLast?_eq_some_getLast (by simp [owned])⟩
  rw [stop_fullSpan (isChain_owned hchain (by simp)) hx]
  obtain ⟨front, hfront⟩ := List.getLast?_eq_some_iff.mp hx
  have hall : (ms ++ [last]).flatMap owned = ms.flatMap owned ++ front ++ [x] := by
    rw [List.flatMap_append, List.flatMap_singleton, hfront, List.append_assoc]
  have hpairs := pairwise_of_isChain hchain
  rw [hall] at hpos hpairs hy ⊢
  have hx := hpos x (by simp)
  obtain ⟨hbefore, -, hafter⟩ := List.pairwise_append.mp hpairs
  constructor
  · intro hlt
    obtain hy | hy := List.mem_append.mp hy
    · exact hy
    · have := hafter x (by simp) y hy
      omega
  · intro hy
    obtain hy | hy := List.mem_append.mp hy
    · have hle := (List.pairwise_append.mp hbefore).2.2 y hy x (by simp)
      simp only [span, Span.stop] at hle ⊢
      omega
    · obtain rfl := List.mem_singleton.mp hy
      simp only [span, Span.stop]
      omega

theorem existsUnique_owner (hsig : ∀ z ∈ zs, z.isTrivia = false) {y : Zipper} (hy : y ∈ zs.flatMap owned)
    (htrivia : y.isTrivia = true) : ∃! z, z ∈ zs ∧ (y ∈ z.leading ∨ y ∈ z.trailing) := by
  obtain ⟨z, hz, hyz⟩ := List.mem_flatMap.mp hy
  have hside : y ∈ z.leading ∨ y ∈ z.trailing := by
    obtain hyz | hyz := List.mem_append.mp hyz
    · exact .inl hyz
    · obtain rfl | hyz := List.mem_cons.mp hyz
      · rw [hsig y hz] at htrivia
        cases htrivia
      · exact .inr hyz
  refine ⟨z, ⟨hz, hside⟩, ?_⟩
  rintro z' ⟨hz', hside'⟩
  by_contra hne
  have hdisjoint := (List.nodup_flatMap.mp (nodup_flatMap_owned hchain hpos)).2
  have hsymm : Std.Symm (Function.onFun List.Disjoint owned) := ⟨fun _ _ h _ hy hy' => h hy' hy⟩
  have hyz' : y ∈ z'.owned := by
    rw [owned, List.mem_append, List.mem_cons]
    exact hside'.imp_right .inr
  exact hdisjoint.forall hz' hz hne hyz' hyz

theorem not_mem_trailing {y z : Zipper} (hz : z ∈ zs) (hy : y ∈ z.leading) : y ∉ z.trailing := by
  have hnodup := (List.nodup_flatMap.mp (nodup_flatMap_owned hchain hpos)).1 z hz
  intro hy'
  exact (List.nodup_append'.mp hnodup).2.2 hy (List.mem_cons_of_mem _ hy')

end Apportioning

theorem apportioned_leaves {k : Kind} {cs : List Tree} (hfill : Tree.FilledAll cs)
    (hpos : ∀ z ∈ leaves (.node k cs), 0 < z.focus.size) :
    Apportioned (Tree.sizeAll cs) (leaves (.node k cs)) := by
  have hchain : (leaves (.node k cs)).IsChain Link := isChain_leavesAll k [] [] cs hfill
  obtain ⟨rest, hall⟩ := flatMap_owned hfill
  have hsig : ∀ z ∈ significant (leaves (.node k cs)), z.isTrivia = false := by
    intro z hz
    simpa using (List.mem_filter.mp hz).2
  generalize hzs : significant (leaves (.node k cs)) = zs at hall hsig ⊢
  have hparts := hall ▸ hchain
  have hsizes := hall ▸ hpos
  constructor
  · rw [hzs]
    intro z hz
    obtain ⟨zs, rfl⟩ := List.head?_eq_some_iff.mp hz
    obtain ⟨y, hy⟩ : ∃ x, z.owned.head? = some x := ⟨_, List.head?_eq_some_head (by simp [owned])⟩
    obtain ⟨ys, hys⟩ := List.head?_eq_some_iff.mp hy
    rw [start_fullSpan hy]
    have hfirst : leaves (.node k cs) = [] ++ y :: (ys ++ zs.flatMap owned ++ rest) := by
      rw [← hall, List.flatMap_cons, hys]
      simp
    exact start_leaf hfill hfirst
  · rw [hzs]
    exact isChain_fullSpan hparts
  · intro ls z rs hsplit hz hrs
    have hmem : z ∈ zs := by
      rw [← hzs, hsplit, significant_append, significant_cons hz]
      simp
    have htrailing := trailing_leaf hfill hsplit (List.append_nil rs).symm hrs (by simp)
    have hlast : z.owned.getLast? = some (((rs.find? (·.kind == .newline)).or rs.getLast?).getD z) := by
      rw [owned, htrailing, List.getLast?_append_of_ne_nil _ (List.cons_ne_nil _ _), List.getLast?_cons,
        getLast?_takeLine]
    rw [stop_fullSpan (isChain_owned hparts hmem) hlast]
    cases hfind : rs.find? (·.kind == .newline) with
    | some y => rfl
    | none =>
      -- Without a line end the last token has all that follows, up to the last leaf.
      have hend := stop_lastAll k [] [] cs hfill (rs.getLast?.getD z) (by
        rw [show leavesAll k [] [] cs = ls ++ z :: rs from hsplit,
          List.getLast?_append_of_ne_nil _ (List.cons_ne_nil _ _), List.getLast?_cons])
      rw [Option.none_or, span, Span.stop, hend]
      simp [start]
  · rw [hzs]
    intro last hlast y hy htrivia hlt
    rw [← hall] at hy
    exact existsUnique_owner hparts hsizes hsig ((start_lt_iff hparts hsizes hlast hy).mp hlt) htrivia
  · rw [hzs]
    intro z hz y hy
    exact not_mem_trailing hparts hsizes hz hy
  · rw [hzs]
    intro last hlast y hy hle z hz
    rw [← hall] at hy
    have hnot : y ∉ z.owned := fun hmem =>
      absurd ((start_lt_iff hparts hsizes hlast hy).mpr (List.mem_flatMap.mpr ⟨z, hz, hmem⟩)) (Nat.not_lt.mpr hle)
    rw [owned, List.mem_append, List.mem_cons, not_or, not_or] at hnot
    exact ⟨hnot.1, hnot.2.2⟩

end Zipper

theorem Lexeme.text_ne_nil {lineStart : Bool} {t : Text} : ∀ l ∈ lexFrom lineStart t, l.text ≠ [] := by
  fun_induction lexFrom lineStart t with
  | case1 => exact List.forall_mem_nil _
  | case2 lineStart c t s ih => exact List.forall_mem_cons.mpr ⟨(step_whole lineStart c t).1, ih⟩

theorem Token.text_ne_nil_of_shows {ts us : List Token} (h : List.Forall₂ Shows ts us) (hts : ∀ t ∈ ts, t.text ≠ []) :
    ∀ u ∈ us, u.text ≠ [] := by
  induction h with
  | nil => exact List.forall_mem_nil _
  | cons hshows _ ih =>
    obtain ⟨ht, hts⟩ := List.forall_mem_cons.mp hts
    exact List.forall_mem_cons.mpr ⟨hshows.1 ▸ ht, ih hts⟩

theorem size_pos_of_leaf {t : Text} {z : Zipper} (hz : z ∈ Zipper.leaves (parse t).tree) : 0 < z.focus.size := by
  have hread : ∀ u ∈ (lex t).map (·.toToken), u.text ≠ [] := by
    intro u hu
    obtain ⟨l, hl, rfl⟩ := List.mem_map.mp hu
    exact Lexeme.text_ne_nil l hl
  have hmem : z.focus ∈ (Zipper.leaves (parse t).tree).map (·.focus) := List.mem_map_of_mem hz
  rw [Zipper.leaves, Zipper.map_focus_leavesOf] at hmem
  obtain ⟨u, hu, hfocus⟩ := List.mem_map.mp hmem
  have hne := Token.text_ne_nil_of_shows (shows_tokens_parse t) hread u hu
  rw [← hfocus]
  exact Nat.pos_of_ne_zero fun hzero => hne (Text.size_eq_zero.mp hzero)

theorem filledAll_parse {t : Text} (h : (Grammar.outline (itemsOf t)).2 = []) :
    ∃ cs, (parse t).tree = .node .compilationUnit cs ∧ Tree.FilledAll cs := by
  have herase := erase_parse t
  cases htree : (parse t).tree with
  | token k u =>
    rw [htree] at herase
    cases herase
  | node k cs =>
    rw [htree] at herase
    obtain ⟨rfl, hcs⟩ := Tree.node.inj herase
    exact ⟨cs, rfl, Tree.filledAll_of_eraseAll cs (hcs ▸ Outline.filledAll_bareAll _ (Grammar.filled_outline h))⟩

/-- Where the grammar has no complaint, the spans of the tokens of a text with the trivia they own follow each other
from the start of the text to the end of the last line with a token, and all trivia up to there goes with one token.
-/
theorem trivia_apportioned {t : Text}
    (h : ∀ f ∈ (parse t).faults, f.fault.category ≠ "Expected" ∧ f.fault.category ≠ "Unexpected") :
    Zipper.Apportioned t.size (Zipper.ofRoot (parse t).tree).tokens := by
  obtain ⟨cs, htree, hfill⟩ := filledAll_parse (outline_of_category h)
  have hpos : ∀ z ∈ Zipper.leaves (.node .compilationUnit cs), 0 < z.focus.size := fun z hz =>
    size_pos_of_leaf (htree ▸ hz)
  have hsize : Tree.sizeAll cs = t.size := by
    rw [← congrArg Text.size (text_parse t), htree]
    rfl
  rw [Zipper.tokens_ofRoot, htree, ← hsize]
  exact Zipper.apportioned_leaves hfill hpos

def commented : Text :=
  "//a\n x /*b*/ //c\n\n /*d*/ = y ; //e\n /*f".toList

theorem trivia_apportioned_commented :
    (parse commented).faults ≠ [] ∧
      (∀ f ∈ (parse commented).faults, f.fault.category ≠ "Expected" ∧ f.fault.category ≠ "Unexpected") ∧
      Zipper.Apportioned 39 (Zipper.ofRoot (parse commented).tree).tokens ∧
      (Zipper.significant (Zipper.ofRoot (parse commented).tree).tokens).map (fun z => (z.text, z.fullSpan)) =
        [(['x'], .between 0 17), (['='], .between 17 27), (['y'], .between 27 29), ([';'], .between 29 35)] := by
  obtain ⟨hsome, hfaults, hspans⟩ : (parse commented).faults ≠ [] ∧
      (∀ f ∈ (parse commented).faults, f.fault.category ≠ "Expected" ∧ f.fault.category ≠ "Unexpected") ∧
      (Zipper.significant (Zipper.ofRoot (parse commented).tree).tokens).map (fun z => (z.text, z.fullSpan)) =
        [(['x'], .between 0 17), (['='], .between 17 27), (['y'], .between 27 29), ([';'], .between 29 35)] := by
    decide +kernel
  have hsize : commented.size = 39 := by decide
  exact ⟨hsome, hfaults, hsize ▸ trivia_apportioned hfaults, hspans⟩

end Lintel
