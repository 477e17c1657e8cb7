import Lintel.Edit.Fold
import Lintel.Proofs.Placement

namespace Lintel

def Rewrites (old new : Tree) (s : Span) (replacement : Text) : Prop :=
  ∃ before gone after, old.text = before ++ gone ++ after ∧ before.size = s.start ∧ gone.size = s.length ∧
    new.text = before ++ replacement ++ after

namespace Zipper

theorem rewrites_replace {root : Tree} {s : Span} (z : Zipper) (t : Tree) (hr : z.root = root) (hs : z.span = s) :
    Rewrites root (z.replace t) s t.text := by
  subst hr hs
  exact ⟨_, _, _, z.text_root, z.size_textBefore, rfl, z.text_replace t⟩

theorem rewrites_splice? {root tree : Tree} {s : Span} {ts : List Tree} (z : Zipper) (hr : z.root = root)
    (hs : z.span = s) (h : z.splice? ts = some tree) : Rewrites root tree s (Tree.textAll ts) := by
  subst hr hs
  refine ⟨_, _, _, z.text_root, z.size_textBefore, rfl, ?_⟩
  rw [splice?] at h
  split at h
  · cases h
  · rename_i f fs ha
    cases h
    rw [ha, text_fillMany]

theorem rewrites_insertAfter? {root tree : Tree} {ts : List Tree} (z : Zipper) (hr : z.root = root)
    (h : z.insertAfter? ts = some tree) : Rewrites root tree ⟨z.span.stop, 0⟩ (Tree.textAll ts) := by
  obtain ⟨before, gone, after, ht, hb, hg, hn⟩ := z.rewrites_splice? hr rfl h
  have hf : z.focus.text = gone := by
    have hroot := z.text_root
    rw [hr, ht, List.append_assoc, List.append_assoc] at hroot
    have hsize : before.size = (textBefore z.above).size := by rw [hb, size_textBefore, span]
    obtain ⟨rfl, hrest⟩ := Text.append_inj_size hroot hsize
    exact (Text.append_inj_size hrest hg).1.symm
  refine ⟨before ++ gone, [], after, by simp [ht], ?_, rfl, ?_⟩
  · rw [Text.size_append, hb, hg, Span.stop]
  · simp [hn, Tree.textAll, hf]

theorem rewrites_removeToken? {root tree : Tree} {s : Span} {unwrap : Bool} {left : Text} (z : Zipper)
    (hr : z.root = root) (hs : z.span = s) (h : z.removeToken? unwrap = some (tree, left)) :
    Rewrites root tree s left := by
  subst hr hs
  refine ⟨_, _, _, z.text_root, z.size_textBefore, rfl, ?_⟩
  rw [removeToken?] at h
  generalize (if z.removalJoins then [Tree.token .whitespace [' ']] else []) = ts at h
  cases ha : z.above with
  | nil => simp [ha] at h
  | cons f fs =>
    simp only [ha, Option.some.injEq, Prod.mk.injEq] at h
    obtain ⟨rfl, rfl⟩ := h
    cases fs with
    | nil => simp [Tree.text, textBefore, textAfter]
    | cons g gs =>
      dsimp only
      split
      · rw [text_fillMany]
        simp [textBefore, textAfter]
      · rw [text_plug]
        simp [Tree.text, textBefore, textAfter]

theorem start_child {z x : Zipper} {k : Kind} {cs : List Tree} {i : Nat} (hf : z.focus = .node k cs)
    (hx : z.children[i]? = some x) :
    x.start = z.start + (Tree.textAll (cs.take i)).size ∧
      x.span.stop = z.start + (Tree.textAll (cs.take (i + 1))).size := by
  rw [children, hf] at hx
  obtain ⟨c, hc, rfl⟩ := getElem?_siblings k z.above [] cs i x hx
  have hstart : start ⟨c, ⟨k, (cs.take i).reverse ++ [], cs.drop (i + 1)⟩ :: z.above⟩ =
      z.start + (Tree.textAll (cs.take i)).size := by
    rw [← size_textBefore, ← size_textBefore]
    simp [textBefore]
  refine ⟨hstart, ?_⟩
  rw [span, Span.stop, hstart, List.take_add_one, hc]
  simp [Tree.textAll, Tree.size, Nat.add_assoc]

theorem children_between {s : Span} {z x y : Zipper} {first last : Nat} (hle : first ≤ last)
    (hx : z.children[first]? = some x) (hy : z.children[last]? = some y)
    (hs : x.start = s.start) (he : y.span.stop = s.stop) : ∃ k cs, z.focus = .node k cs ∧
      cs = cs.take first ++ (cs.take (last + 1)).drop first ++ cs.drop (last + 1) ∧
      z.start + Tree.sizeAll (cs.take first) = s.start ∧
      Tree.sizeAll ((cs.take (last + 1)).drop first) = s.length := by
  cases hf : z.focus with
  | token k t => simp [children, hf] at hx
  | node k cs =>
    have hto : cs.take (last + 1) = cs.take first ++ (cs.take (last + 1)).drop first := by
      have htake : (cs.take (last + 1)).take first = cs.take first := by
        rw [List.take_take, Nat.min_eq_left (by omega)]
      rw [← htake, List.take_append_drop]
    obtain ⟨hstart, -⟩ := start_child hf hx
    obtain ⟨-, hstop⟩ := start_child hf hy
    refine ⟨k, cs, rfl, by rw [← hto, List.take_append_drop], by rw [← hs, hstart, Tree.sizeAll], ?_⟩
    have hsize := congrArg Tree.sizeAll hto
    rw [Tree.sizeAll_append] at hsize
    rw [← Tree.sizeAll] at hstart hstop
    simp only [Span.stop] at he hstop
    omega

theorem rewrites_spliceChildren {root : Tree} {s : Span} {z x y : Zipper} {first last : Nat} (ts : List Tree)
    (hr : z.root = root) (hle : first ≤ last)
    (hx : z.children[first]? = some x) (hy : z.children[last]? = some y)
    (hs : x.start = s.start) (he : y.span.stop = s.stop) :
    Rewrites root (z.spliceChildren first (last + 1) ts) s (Tree.textAll ts) := by
  obtain ⟨k, cs, hf, hcs, hstart, hlength⟩ := children_between hle hx hy hs he
  have hroot := z.text_root
  rw [hr, hf, Tree.text] at hroot
  refine ⟨textBefore z.above ++ Tree.textAll (cs.take first), Tree.textAll ((cs.take (last + 1)).drop first),
    Tree.textAll (cs.drop (last + 1)) ++ textAfter z.above, ?_, ?_, hlength, ?_⟩
  · rw [hroot]
    conv => lhs; rw [hcs]
    simp
  · rw [Text.size_append, size_textBefore, ← hstart, Tree.sizeAll]
  · rw [spliceChildren, text_replace, hf]
    simp [Tree.text, Tree.children]

end Zipper

namespace Part

theorem lastIndex?_spec {p : Zipper → Bool} {zs : List Zipper} {i : Nat} (h : lastIndex? p zs = some i) :
    ∃ z, zs[i]? = some z ∧ p z = true := by
  rw [lastIndex?, Option.map_eq_some_iff] at h
  obtain ⟨⟨z, j⟩, hz, rfl⟩ := h
  have hm := List.mem_of_getLast? hz
  rw [List.mem_filter, List.mem_zipIdx_iff_getElem?] at hm
  exact ⟨z, hm.1, hm.2⟩

theorem fold_resolveNode {root tree : Tree} {span : Span} {kind : Kind} {target : Target} {t : Tree}
    {new : Text} (hr : resolveNode root span kind = .ok target) {p : Part} (hp : p.change = .replaceNode kind t)
    (hf : p.fold target = some (tree, new)) : Rewrites root tree span new := by
  rw [resolveNode] at hr
  split at hr
  · rename_i z hz
    cases hr
    obtain ⟨hroot, hspan⟩ := Zipper.nodeAt?_place hz
    simp only [fold, hp] at hf
    cases hf
    exact z.rewrites_replace t hroot hspan
  · cases hr

theorem fold_resolveTokens {root tree : Tree} {span : Span} {target : Target} {ts : List Tree} {new : Text}
    (hr : resolveTokens root span = .ok target) {p : Part} (hp : p.change = .replaceTokens ts)
    (hf : p.fold target = some (tree, new)) : Rewrites root tree span new := by
  have hroot := Zipper.root_covering root span
  rw [resolveTokens] at hr
  split at hr
  · cases hr
  · generalize Zipper.covering root span = z at hr hroot
    have whole (hz : z.span = span) (hf : (z.splice? ts).map (fun t => (t, Tree.textAll ts)) = some (tree, new)) :
        Rewrites root tree span new := by
      obtain ⟨t, ht, he⟩ := Option.map_eq_some_iff.mp hf
      cases he
      exact z.rewrites_splice? hroot hz ht
    dsimp only at hr
    split at hr
    · split at hr
      · rename_i hz
        cases hr
        simp only [fold, hp] at hf
        exact whole (by simpa using hz) hf
      · cases hr
    · split at hr
      · rename_i hz
        cases hr
        simp only [fold, hp] at hf
        simp only [Bool.and_eq_true, beq_iff_eq] at hz
        exact whole hz.1 hf
      · split at hr
        · rename_i first last hfirst hlast
          split at hr
          · rename_i hle
            cases hr
            simp only [fold, hp] at hf
            cases hf
            obtain ⟨x, hx, hxs⟩ := lastIndex?_spec hfirst
            obtain ⟨y, hy, hys⟩ := lastIndex?_spec hlast
            exact Zipper.rewrites_spliceChildren ts hroot hle hx hy (by simpa using hxs) (by simpa using hys)
          · cases hr
        · cases hr

theorem fold_resolveToken {root tree : Tree} {span : Span} {kind : Kind} {unwrap : Bool} {target : Target}
    {new : Text} (hr : resolveToken root span kind = .ok target) {p : Part}
    (hp : p.change = .removeToken kind unwrap) (hf : p.fold target = some (tree, new)) :
    Rewrites root tree span new := by
  rw [resolveToken] at hr
  split at hr
  · rename_i hz
    cases hr
    simp only [fold, hp] at hf
    simp only [Bool.and_eq_true, beq_iff_eq] at hz
    exact Zipper.rewrites_removeToken? _ (Zipper.root_covering root span) hz.2 hf
  · cases hr

theorem fold_resolveAnchor {root tree : Tree} {offset : Nat} {kind : Kind} {ts : List Tree} {target : Target}
    {new : Text} (hr : resolveAnchor root offset kind = .ok target) {p : Part}
    (hp : p.change = .insertAfter kind ts) (hf : p.fold target = some (tree, new)) :
    Rewrites root tree ⟨offset, 0⟩ new := by
  rw [resolveAnchor] at hr
  split at hr
  · rename_i z hz
    split at hr
    · rename_i hk
      cases hr
      simp only [fold, hp] at hf
      obtain ⟨t, ht, he⟩ := Option.map_eq_some_iff.mp hf
      cases he
      simp only [Bool.and_eq_true, beq_iff_eq] at hk
      rw [← hk.2]
      exact z.rewrites_insertAfter? (Zipper.root_tokenLeftOf hz) ht
    · cases hr
  · cases hr

theorem rewrites_fold {root tree : Tree} {p : Part} {shift : Nat} {target : Target} {new : Text}
    (hr : p.resolve root shift = .ok target) (hf : p.fold target = some (tree, new)) :
    Rewrites root tree (p.span.shift shift) new := by
  rw [resolve] at hr
  split at hr
  · cases hr
  · cases hc : p.change with
    | replaceNode kind t => exact fold_resolveNode (by simpa only [hc] using hr) hc hf
    | replaceTokens ts => exact fold_resolveTokens (by simpa only [hc] using hr) hc hf
    | removeToken kind unwrap => exact fold_resolveToken (by simpa only [hc] using hr) hc hf
    | insertAfter kind ts =>
      have hlen : p.span.length = 0 := p.insertion_empty (by rw [hc]; rfl)
      have h := fold_resolveAnchor (by simpa only [hc] using hr) hc hf
      simpa only [Span.shift, hlen] using h

end Part

end Lintel
