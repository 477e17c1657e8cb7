import Lintel.Proofs.Leaves
import Lintel.Proofs.SiblingRuns

namespace Lintel

open Tree

namespace Zipper

theorem run_plug {t : Tree} {n : Nat} {ts : List Tree} (h : Run [t] n ts) (fs : List Frame) :
    Run [plug t fs] (start ⟨t, fs⟩ + n) ts := by
  induction fs generalizing t n with
  | nil => simpa [plug, start] using h
  | cons f fs ih =>
    have hfill : Run [f.fill t] (sizeAll f.left + n) ts := by
      have hrun := Run.inside [] f.kind [] (h.append f.left.reverse f.right)
      simpa [Frame.fill] using hrun
    rw [plug, start_above t (f.fill t), Nat.add_assoc]
    exact ih hfill

theorem run_root (z : Zipper) : Run [z.root] z.start [z.focus] := by
  have hself : Run [z.focus] 0 [z.focus] := Run.here [] [z.focus] []
  exact run_plug hself z.above

theorem run_children {z : Zipper} {k : Kind} {l ts r : List Tree} (hf : z.focus = .node k (l ++ ts ++ r)) :
    Run [z.root] (z.start + sizeAll l) ts := by
  have hrun := run_plug (.inside [] k [] (.here l ts r)) z.above
  rw [root, hf]
  simpa [start] using hrun

theorem coverAll_skip {s : Span} (hs : 0 < s.length) (k : Kind) (above : List Frame) (left : List Tree) (start : Nat)
    (l : List Tree) (c : Tree) (r : List Tree) (hstart : start + sizeAll l ≤ s.start)
    (hstop : s.start < start + sizeAll l + c.size) :
    coverAll s k above left start (l ++ c :: r) =
      if (⟨start + sizeAll l, c.size⟩ : Span).contains s then
        some (coverOf s (⟨k, l.reverse ++ left, r⟩ :: above) (start + sizeAll l) c)
      else none := by
  induction l generalizing left start with
  | nil =>
    simp only [sizeAll_nil, Nat.add_zero] at hstop
    cases r with
    | nil => rfl
    | cons d r =>
      rw [List.nil_append, coverAll, if_neg (Nat.not_le.mpr hstop)]
      rfl
  | cons d l ih =>
    rw [sizeAll_cons, ← Nat.add_assoc] at hstart hstop ⊢
    have hpast : start + d.size ≤ s.start := by omega
    have hgoes : start + d.size < s.stop := by
      simp only [Span.stop]
      omega
    have hnext := ih (d :: left) (start + d.size) hstart hstop
    rw [List.reverse_cons, List.append_assoc, List.singleton_append, ← hnext, List.cons_append]
    cases l with
    | nil => rw [List.nil_append, coverAll, if_pos hpast, if_pos (by simp [hgoes])]
    | cons e l => rw [List.cons_append, coverAll, if_pos hpast, if_pos (by simp [hgoes])]

theorem contains_self (s : Span) : s.contains s = true := by
  simp [Span.contains]

theorem start_frame (c : Tree) (k : Kind) (l r : List Tree) (above : List Frame) (t : Tree) :
    start ⟨c, ⟨k, l.reverse ++ [], r⟩ :: above⟩ = start ⟨t, above⟩ + sizeAll l := by
  rw [start_above c t, List.append_nil, sizeAll_reverse]

theorem coverAll_run {s : Span} {f : List Tree} {n : Nat} {c : Tree} (h : Run f n [c]) (hc : 0 < c.size)
    (k : Kind) (above : List Frame) (hs : s = ⟨start ⟨.node k f, above⟩ + n, c.size⟩) :
    ∃ fs, coverAll s k above [] (start ⟨.node k f, above⟩) f = some (coverOf s fs s.start c) ∧
      start ⟨c, fs⟩ = s.start ∧ fs ≠ [] := by
  generalize hone : [c] = one at h
  induction h generalizing k above with
  | here l us r =>
    subst hone hs
    refine ⟨⟨k, l.reverse ++ [], r⟩ :: above, ?_, start_frame c k l r above _, by simp⟩
    rw [List.append_assoc, List.singleton_append, coverAll_skip hc _ _ _ _ _ _ _ (Nat.le_refl _) (by simp only; omega),
      if_pos (contains_self _)]
  | @inside l k' r cs j us h ih =>
    subst hone
    have hbound := h.bound
    rw [sizeAll_cons, sizeAll_nil] at hbound
    have hstart := start_frame (.node k' cs) k l r above (.node k (l ++ .node k' cs :: r))
    obtain ⟨fs, hcover, hfs⟩ := ih k' (⟨k, l.reverse ++ [], r⟩ :: above) (by rw [hs, hstart, Nat.add_assoc]) rfl
    refine ⟨fs, ?_, hfs⟩
    subst hs
    rw [coverAll_skip hc _ _ _ _ _ _ _ (by simp only; omega) (by simp only [size_node]; omega), if_pos, coverOf]
    · rw [hstart] at hcover
      rw [hcover, Option.getD_some]
    · rw [Span.contains_iff]
      simp only [Span.stop, size_node]
      omega

theorem run_singleton {t : Tree} {n : Nat} {ts : List Tree} (h : Run [t] n ts) (hne : ts ≠ []) :
    (ts = [t] ∧ n = 0) ∨ ∃ k cs, t = node k cs ∧ Run cs n ts := by
  obtain ⟨l, r, hf, rfl⟩ | ⟨l, k, cs, r, m, hf, rfl, hrun⟩ := h.elim
  · left
    cases l with
    | nil =>
      cases ts with
      | nil => exact absurd rfl hne
      | cons u us => simp_all
    | cons d l => simp_all
  · right
    cases l with
    | nil => exact ⟨k, cs, by simpa using (List.cons.inj hf).1, by simpa using hrun⟩
    | cons d l => simp at hf

theorem covering_run {root : Tree} {n : Nat} {c : Tree} (h : Run [root] n [c]) (hc : 0 < c.size) :
    ∃ fs, covering root ⟨n, c.size⟩ = coverOf ⟨n, c.size⟩ fs n c ∧ start ⟨c, fs⟩ = n := by
  obtain ⟨heq, rfl⟩ | ⟨k, cs, rfl, hrun⟩ := run_singleton h (by simp)
  · obtain rfl : c = root := by simpa using heq
    exact ⟨[], rfl, rfl⟩
  · obtain ⟨fs, hcover, hfs, -⟩ := coverAll_run (s := ⟨n, c.size⟩) hrun hc k [] (by simp [start])
    refine ⟨fs, ?_, hfs⟩
    rw [covering, coverOf]
    simp only [start, List.foldr_nil] at hcover
    rw [hcover, Option.getD_some]

mutual

theorem ancestors_coverOf (s : Span) (above : List Frame) : (t : Tree) → ∃ chain,
    (coverOf s above (start ⟨t, above⟩) t).ancestors = chain ++ ancestors ⟨t, above⟩ ∧
      ∀ y ∈ chain, y.span.contains s = true ∧ (span ⟨t, above⟩).contains y.span = true
  | .token k t => ⟨[], rfl, by simp⟩
  | .node k cs => by
    rw [coverOf]
    cases h : coverAll s k above [] (start ⟨.node k cs, above⟩) cs with
    | none => exact ⟨[], rfl, by simp⟩
    | some z =>
      obtain ⟨chain, hchain, hall⟩ := ancestors_coverAll s k above [] cs z (by
        rw [← h]
        simp [start])
      exact ⟨chain, hchain, fun y hy => hall y hy⟩

theorem ancestors_coverAll (s : Span) (kind : Kind) (above : List Frame) (left : List Tree) : (cs : List Tree) →
    (z : Zipper) → coverAll s kind above left (start ⟨.node kind cs, above⟩ + sizeAll left) cs = some z → ∃ chain,
      z.ancestors = chain ++ ancestors ⟨.node kind (left.reverse ++ cs), above⟩ ∧
        ∀ y ∈ chain, y.span.contains s = true ∧
          (span ⟨.node kind (left.reverse ++ cs), above⟩).contains y.span = true
  | [], z, h => by simp [coverAll] at h
  | c :: cs, z, h => by
    have hstart := start_cons c kind left cs above
    have hwide : (span ⟨.node kind (left.reverse ++ c :: cs), above⟩).contains
        (span ⟨c, ⟨kind, left, cs⟩ :: above⟩) = true := by
      rw [Span.contains_iff]
      simp only [span, Span.stop, hstart, size_node, sizeAll_append, sizeAll_cons, sizeAll_reverse]
      simp only [start]
      omega
    have here (h : (if (⟨start ⟨.node kind (c :: cs), above⟩ + sizeAll left, c.size⟩ : Span).contains s then
        some (coverOf s (⟨kind, left, cs⟩ :: above) (start ⟨.node kind (c :: cs), above⟩ + sizeAll left) c)
        else none) = some z) : ∃ chain,
        z.ancestors = chain ++ ancestors ⟨.node kind (left.reverse ++ c :: cs), above⟩ ∧
          ∀ y ∈ chain, y.span.contains s = true ∧
            (span ⟨.node kind (left.reverse ++ c :: cs), above⟩).contains y.span = true := by
      have hat : start ⟨.node kind (c :: cs), above⟩ + sizeAll left = start ⟨c, ⟨kind, left, cs⟩ :: above⟩ := by
        rw [hstart, Nat.add_comm]
        rfl
      rw [hat] at h
      split at h
      · rename_i hin
        cases h
        obtain ⟨chain, hchain, hall⟩ := ancestors_coverOf s (⟨kind, left, cs⟩ :: above) c
        refine ⟨chain ++ [⟨c, ⟨kind, left, cs⟩ :: above⟩],
          by rw [hchain]; simp [ancestors, parents, parentsOf, Frame.fill], ?_⟩
        intro y hy
        obtain hy | hy := List.mem_append.mp hy
        · obtain ⟨hys, hyc⟩ := hall y hy
          refine ⟨hys, ?_⟩
          rw [Span.contains_iff] at hwide hyc ⊢
          omega
        · obtain rfl := List.mem_singleton.mp hy
          exact ⟨hin, hwide⟩
      · cases h
    cases cs with
    | nil => exact here (by simpa only [coverAll] using h)
    | cons d ds =>
      rw [coverAll] at h
      split at h
      · split at h
        · have hnext := ancestors_coverAll s kind above (c :: left) (d :: ds) z (by
            rw [← h, sizeAll_cons, Nat.add_comm c.size, ← Nat.add_assoc]
            rfl)
          simpa using hnext
        · exact here h
      · exact here h

end

theorem isNode_parentsOf (t : Tree) (fs : List Frame) : ∀ z ∈ parentsOf t fs, z.isNode = true := by
  induction fs generalizing t with
  | nil => simp [parentsOf]
  | cons f fs ih =>
    intro z hz
    obtain rfl | hz := List.mem_cons.mp hz
    · rfl
    · exact ih _ z hz

theorem nodeAt?_shape {root : Tree} {s : Span} {kind : Kind} {z : Zipper} (h : nodeAt? root s kind = some z) :
    ∃ cs, z.focus = .node kind cs := by
  rw [nodeAt?] at h
  have hkind : z.kind = kind := by simpa using List.find?_some h
  have hmem := (List.takeWhile_prefix _).subset (List.mem_of_find?_eq_some h)
  have hnode : z.isNode = true := by
    split at hmem
    · exact isNode_parentsOf _ _ z hmem
    · rename_i htok
      obtain rfl | hmem := List.mem_cons.mp hmem
      · simpa [isNode, isNode_eq, isToken] using htok
      · exact isNode_parentsOf _ _ z hmem
  cases hf : z.focus with
  | token k t => simp [isNode, Tree.isNode, hf] at hnode
  | node k cs =>
    rw [Zipper.kind, hf] at hkind
    exact ⟨cs, congrArg (Tree.node · cs) hkind⟩

theorem nodeAt?_run {root : Tree} {n : Nat} {kind : Kind} {cs : List Tree} (h : Run [root] n [.node kind cs])
    (hcs : 0 < sizeAll cs) : ∃ z, nodeAt? root ⟨n, sizeAll cs⟩ kind = some z := by
  obtain ⟨fs, hcover, hfs⟩ := covering_run h hcs
  obtain ⟨chain, hchain, hall⟩ := ancestors_coverOf ⟨n, sizeAll cs⟩ fs (.node kind cs)
  rw [size_node] at hcover
  rw [hfs, ← hcover] at hchain
  have hspan : ∀ y ∈ chain, y.span = ⟨n, sizeAll cs⟩ := by
    intro y hy
    obtain ⟨hin, hout⟩ := hall y hy
    rw [Span.contains_iff] at hin hout
    simp only [span, Span.stop, hfs, size_node] at hin hout ⊢
    congr 1 <;> omega
  -- What the search finds may be a token: then the nodes are all that is around it.
  have hnodes : ∃ pre post, (if (covering root ⟨n, sizeAll cs⟩).isToken then (covering root ⟨n, sizeAll cs⟩).parents
      else (covering root ⟨n, sizeAll cs⟩).ancestors) = pre ++ ⟨.node kind cs, fs⟩ :: post ∧ pre ⊆ chain := by
    split
    · rename_i htok
      cases chain with
      | nil =>
        obtain ⟨hz, -⟩ := List.cons.inj hchain
        rw [hz] at htok
        cases htok
      | cons y chain =>
        obtain ⟨-, hparents⟩ := List.cons.inj hchain
        exact ⟨chain, _, hparents, List.subset_cons_self _ _⟩
    · exact ⟨chain, _, hchain, List.Subset.refl _⟩
  obtain ⟨pre, post, hnodes, hpre⟩ := hnodes
  rw [nodeAt?]
  simp only [hnodes]
  rw [← Option.isSome_iff_exists, List.find?_isSome]
  refine ⟨⟨.node kind cs, fs⟩, ?_, by simp [Zipper.kind, Tree.kind]⟩
  have hself : (span ⟨.node kind cs, fs⟩ == ⟨n, sizeAll cs⟩) = true := by
    simp [span, hfs, size_node]
  rw [List.takeWhile_append_of_pos (fun y hy => by simp [hspan y (hpre hy)])]
  simp [hself]

theorem length_ancestors (z : Zipper) : z.ancestors.length = z.above.length + 1 := by
  have hparents (t : Tree) (fs : List Frame) : (parentsOf t fs).length = fs.length := by
    induction fs generalizing t with
    | nil => rfl
    | cons f fs ih => simp [parentsOf, ih]
  simp [ancestors, parents, hparents]

theorem span_coverOf (above : List Frame) (t : Tree) : (coverOf (span ⟨t, above⟩) above (start ⟨t, above⟩) t).span =
    span ⟨t, above⟩ ∧ above.length ≤ (coverOf (span ⟨t, above⟩) above (start ⟨t, above⟩) t).above.length := by
  obtain ⟨chain, hchain, hall⟩ := ancestors_coverOf (span ⟨t, above⟩) above t
  have hlen := congrArg List.length hchain
  rw [List.length_append, length_ancestors, length_ancestors] at hlen
  refine ⟨?_, by simp only at hlen; omega⟩
  cases chain with
  | nil => exact congrArg span (List.cons.inj hchain).1
  | cons y chain =>
    obtain ⟨rfl, -⟩ := List.cons.inj hchain
    obtain ⟨hin, hout⟩ := hall _ List.mem_cons_self
    rw [Span.contains_iff] at hin hout
    simp only [span, Span.stop] at hin hout ⊢
    congr 1 <;> omega

theorem coverOf_run {s : Span} {f ts : List Tree} {n : Nat} (h : Run f n ts) (hts : Firm ts) (k : Kind)
    (above : List Frame) (hs : s = ⟨start ⟨.node k f, above⟩ + n, sizeAll ts⟩) {z : Zipper}
    (hz : coverOf s above (start ⟨.node k f, above⟩) (.node k f) = z) :
    (z.span = s ∧ z.above ≠ []) ∨
      ∃ k l r, z.focus = .node k (l ++ ts ++ r) ∧ z.start + sizeAll l = s.start := by
  have hpos := hts.pos
  induction h generalizing k above with
  | here l ts r =>
    obtain ⟨t, us, rfl, ht⟩ := hts.head
    have hframe := start_frame t k l (us ++ r) above (.node k (l ++ (t :: us) ++ r))
    rw [sizeAll_cons] at hs
    rw [coverOf, List.append_assoc, List.cons_append, coverAll_skip (by rw [hs]; simp only; omega) _ _ _ _ _ _ _
      (by rw [hs]; simp) (by rw [hs]; simp; omega)] at hz
    split at hz
    · rename_i hin
      rw [Option.getD_some] at hz
      left
      have hspan : s = span ⟨t, ⟨k, l.reverse ++ [], us ++ r⟩ :: above⟩ := by
        rw [Span.contains_iff, hs] at hin
        simp only [Span.stop] at hin
        rw [hs, span, hframe]
        congr 1
        simp only
        omega
      have hfound := span_coverOf (⟨k, l.reverse ++ [], us ++ r⟩ :: above) t
      rw [hframe, ← hspan, List.append_assoc, List.cons_append, hz] at hfound
      refine ⟨hfound.1, ?_⟩
      intro hnil
      rw [hnil] at hfound
      simp at hfound
    · right
      subst hz hs
      exact ⟨k, l, r, by simp, rfl⟩
  | @inside l k' r cs j us h ih =>
    have hbound := h.bound
    have hframe := start_frame (.node k' cs) k l r above (.node k (l ++ .node k' cs :: r))
    have hin : (⟨start ⟨.node k (l ++ .node k' cs :: r), above⟩ + sizeAll l, (Tree.node k' cs).size⟩ :
      Span).contains s =
        true := by
      rw [Span.contains_iff, hs]
      simp only [Span.stop, size_node]
      omega
    rw [coverOf, coverAll_skip (by rw [hs]; exact hpos) _ _ _ _ _ _ _ (by rw [hs]; simp only; omega)
      (by rw [hs]; simp only [size_node]; omega), if_pos hin, Option.getD_some] at hz
    apply ih hts k' (⟨k, l.reverse ++ [], r⟩ :: above) (by rw [hs, hframe, Nat.add_assoc]) _ hpos
    rw [hframe]
    exact hz

theorem mem_leavesAll_append {k : Kind} {above : List Frame} {left l r : List Tree} {c : Tree} {z : Zipper}
    (h : z ∈ leavesOf (⟨k, l.reverse ++ left, r⟩ :: above) c) : z ∈ leavesAll k above left (l ++ c :: r) := by
  induction l generalizing left with
  | nil =>
    rw [List.nil_append, leavesAll]
    exact List.mem_append_left _ h
  | cons d l ih =>
    rw [List.cons_append, leavesAll]
    apply List.mem_append_right
    apply ih
    simpa using h

theorem mem_leavesAll_of_run {f : List Tree} {n : Nat} {kind : Kind} {x : Text} (h : Run f n [.token kind x])
    (k : Kind) (above : List Frame) :
    ∃ z ∈ leavesAll k above [] f, z.focus = .token kind x ∧ z.start = start ⟨.node k f, above⟩ + n := by
  generalize hone : [Tree.token kind x] = one at h
  induction h generalizing k above with
  | here l us r =>
    subst hone
    refine ⟨⟨.token kind x, ⟨k, l.reverse ++ [], r⟩ :: above⟩, ?_, rfl, start_frame _ k l r above _⟩
    rw [List.append_assoc, List.singleton_append]
    exact mem_leavesAll_append (by simp [leavesOf])
  | @inside l k' r cs j us h ih =>
    obtain ⟨z, hz, hfocus, hstart⟩ := ih k' (⟨k, l.reverse ++ [], r⟩ :: above) hone
    refine ⟨z, mem_leavesAll_append hz, hfocus, ?_⟩
    rw [hstart, start_frame _ k l r above (.node k (l ++ .node k' cs :: r)), Nat.add_assoc]

theorem mem_leaves_of_run {root : Tree} {n : Nat} {kind : Kind} {x : Text} (h : Run [root] n [.token kind x]) :
    ∃ z ∈ leaves root, z.focus = .token kind x ∧ z.start = n := by
  obtain ⟨heq, rfl⟩ | ⟨k, cs, rfl, hrun⟩ := run_singleton h (by simp)
  · obtain rfl : Tree.token kind x = root := by simpa using heq
    exact ⟨_, List.mem_singleton_self _, rfl, rfl⟩
  · obtain ⟨z, hz, hfocus, hstart⟩ := mem_leavesAll_of_run hrun k []
    exact ⟨z, hz, hfocus, by simpa [start] using hstart⟩

mutual

theorem seekIn_spec {p : Span → Bool} (above : List Frame) : (t : Tree) → (z : Zipper) →
    seekIn p above (start ⟨t, above⟩) t = some z → z.isToken = true ∧ p z.span = true
  | .token k t, z, h => by
    rw [seekIn] at h
    split at h
    · rename_i hp
      cases h
      exact ⟨rfl, hp⟩
    · cases h
  | .node k cs, z, h => seekAll_spec k above [] cs z (by rw [sizeAll_nil, Nat.zero_add]; exact h)

theorem seekAll_spec {p : Span → Bool} (kind : Kind) (above : List Frame) (left : List Tree) : (cs : List Tree) →
    (z : Zipper) → seekAll p kind above left (sizeAll left + start ⟨.node kind [], above⟩) cs = some z →
      z.isToken = true ∧ p z.span = true
  | [], z, h => by simp [seekAll] at h
  | c :: cs, z, h => by
    rw [seekAll] at h
    split at h
    · exact seekIn_spec _ c z (by rw [start_cons]; exact h)
    · apply seekAll_spec kind above (c :: left) cs z
      rw [← h, sizeAll_cons]
      congr 1
      omega

end

theorem tokenLeftOf_spec {root : Tree} {offset : Nat} {z : Zipper} (h : tokenLeftOf root offset = some z) :
    z.isToken = true ∧ 0 < z.focus.size := by
  simp only [tokenLeftOf, tokensAt, Option.or_eq_some_iff] at h
  obtain h | ⟨-, h⟩ := h
  · obtain ⟨htok, hp⟩ := seekIn_spec [] root z h
    rw [Bool.and_eq_true, decide_eq_true_eq, decide_eq_true_eq] at hp
    simp only [span, Span.stop] at hp
    exact ⟨htok, by omega⟩
  · obtain ⟨htok, hp⟩ := seekIn_spec [] root z h
    rw [Bool.and_eq_true, decide_eq_true_eq, decide_eq_true_eq] at hp
    simp only [span, Span.stop] at hp
    exact ⟨htok, by omega⟩

theorem focus_of_isToken {z : Zipper} (h : z.isToken = true) : ∃ x, z.focus = .token z.kind x := by
  obtain ⟨f, above⟩ := z
  cases f with
  | token k x => exact ⟨x, rfl⟩
  | node k cs => cases h

end Zipper

def Change.Suits : Change → List Tree → Prop
  | .replaceNode kind _, ts => ∃ cs, ts = [.node kind cs]
  | .replaceTokens _, _ => True
  | .removeToken kind _, ts => ∃ x, ts = [.token kind x]
  | .insertAfter kind _, ts => ∃ x, ts = [.token kind x]

namespace Part

structure Fits (p : Part) (shift n : Nat) (ts : List Tree) : Prop where
  firm : Firm ts
  suits : p.change.Suits ts
  stop : n + sizeAll ts = p.span.stop + shift
  length : p.change.isInsertion = false → sizeAll ts = p.span.length

def Stands (root : Tree) (p : Part) (shift : Nat) : Prop :=
  ∃ n ts, Run [root] n ts ∧ p.Fits shift n ts

def Solid (p : Part) : Prop :=
  p.change.isInsertion = false → 0 < p.span.length

theorem run_resolveTokens {root : Tree} {s : Span} {target : Target} (h : resolveTokens root s = .ok target)
    (hs : 0 < s.length) : ∃ ts, Firm ts ∧ Run [root] s.start ts ∧ sizeAll ts = s.length := by
  have hroot := Zipper.root_covering root s
  rw [resolveTokens, if_neg (by simp only [Span.isEmpty, beq_iff_eq]; omega)] at h
  generalize Zipper.covering root s = z at h hroot
  have whole (hz : z.span = s) : ∃ ts, Firm ts ∧ Run [root] s.start ts ∧ sizeAll ts = s.length := by
    subst hz hroot
    exact ⟨[z.focus], .singleton hs, z.run_root, by simp [Zipper.span]⟩
  dsimp only at h
  split at h
  · split at h
    · rename_i hz
      exact whole (by simpa using hz)
    · cases h
  · split at h
    · rename_i hz
      rw [Bool.and_eq_true, beq_iff_eq] at hz
      exact whole hz.1
    · split at h
      · rename_i first last hfirst hlast
        obtain ⟨x, hx, hxs⟩ := lastIndex?_spec hfirst
        obtain ⟨y, hy, hys⟩ := lastIndex?_spec hlast
        split at h
        · rename_i hle
          obtain ⟨k, cs, hf, hcs, hstart, hlength⟩ :=
            Zipper.children_between hle hx hy (by simpa using hxs) (by simpa using hys)
          obtain ⟨l, us, r, hus, hl, hr, hfirm⟩ := @exists_firm ((cs.take (last + 1)).drop first) (by omega)
          have hfocus : z.focus = .node k (cs.take first ++ l ++ us ++ (r ++ cs.drop (last + 1))) := by
            rw [hf]
            conv => lhs; rw [hcs, hus]
            simp
          have hrun := Zipper.run_children hfocus
          rw [hroot, sizeAll_append, hl, Nat.add_zero, hstart] at hrun
          rw [hus, sizeAll_append, sizeAll_append, hl, hr, Nat.zero_add, Nat.add_zero] at hlength
          exact ⟨us, hfirm, hrun, hlength⟩
        · cases h
      · cases h

theorem stands_of_resolve {root : Tree} {p : Part} {shift : Nat} {target : Target}
    (h : p.resolve root shift = .ok target) (hp : p.Solid) : p.Stands root shift := by
  -- An element with the span of the part.
  have whole {z : Zipper} (hroot : z.root = root) (hspan : z.span = p.span.shift shift)
      (hsuits : p.change.Suits [z.focus]) (htakes : p.change.isInsertion = false) : p.Stands root shift := by
    have hlength : z.focus.size = p.span.length := congrArg Span.length hspan
    have hstart : z.start = p.span.start + shift := congrArg Span.start hspan
    have hpos := hp htakes
    refine ⟨z.start, [z.focus], hroot ▸ z.run_root, .singleton (by omega), hsuits, ?_, fun _ => by simpa using hlength⟩
    simp only [sizeAll_cons, sizeAll_nil, Span.stop]
    omega
  rw [resolve] at h
  split at h
  · cases h
  · cases hc : p.change with
    | replaceNode kind t =>
      simp only [hc, resolveNode] at h
      split at h
      · rename_i z hz
        obtain ⟨hroot, hspan⟩ := Zipper.nodeAt?_place hz
        obtain ⟨cs, hcs⟩ := Zipper.nodeAt?_shape hz
        exact whole hroot hspan (by rw [hc, hcs]; exact ⟨cs, rfl⟩) (by rw [hc]; rfl)
      · cases h
    | replaceTokens ts =>
      simp only [hc] at h
      obtain ⟨us, hfirm, hrun, hus⟩ := run_resolveTokens h (hp (by rw [hc]; rfl))
      refine ⟨_, us, hrun, hfirm, by rw [hc]; trivial, ?_, fun _ => hus⟩
      simp only [hus, Span.shift, Span.stop]
      omega
    | removeToken kind unwrap =>
      simp only [hc, resolveToken] at h
      split at h
      · rename_i hz
        simp only [Bool.and_eq_true, beq_iff_eq] at hz
        obtain ⟨⟨htok, hkind⟩, hspan⟩ := hz
        obtain ⟨x, hx⟩ := Zipper.focus_of_isToken htok
        exact whole (Zipper.root_covering _ _) hspan (by rw [hc, hx, hkind]; exact ⟨x, rfl⟩) (by rw [hc]; rfl)
      · cases h
    | insertAfter kind ts =>
      simp only [hc, resolveAnchor] at h
      split at h
      · rename_i z hz
        split at h
        · rename_i hat
          rw [Bool.and_eq_true, beq_iff_eq, beq_iff_eq] at hat
          obtain ⟨htok, hpos⟩ := Zipper.tokenLeftOf_spec hz
          obtain ⟨x, hx⟩ := Zipper.focus_of_isToken htok
          have hempty : p.span.length = 0 := p.insertion_empty (by rw [hc]; rfl)
          have hstop : z.start + z.focus.size = p.span.start + shift := hat.2
          refine ⟨z.start, [z.focus], Zipper.root_tokenLeftOf hz ▸ z.run_root, .singleton hpos, ?_, ?_, ?_⟩
          · rw [hc, hx, hat.1]
            exact ⟨x, rfl⟩
          · simp only [sizeAll_cons, sizeAll_nil, Span.stop]
            omega
          · rw [hc]
            rintro ⟨⟩
        · cases h
      · cases h

theorem lastIndex?_max {f : Zipper → Bool} {zs : List Zipper} {i : Nat} {z : Zipper} (hz : zs[i]? = some z)
    (hf : f z = true) : ∃ j, lastIndex? f zs = some j ∧ i ≤ j := by
  have hmem : (z, i) ∈ zs.zipIdx.filter (fun x => f x.1) := by
    rw [List.mem_filter, List.mem_zipIdx_iff_getElem?]
    exact ⟨hz, hf⟩
  have hsorted : (zs.zipIdx.filter (fun x => f x.1)).Pairwise (fun x y => x.2 < y.2) := by
    apply List.Pairwise.filter
    have hindices : (zs.zipIdx.map Prod.snd).Pairwise (· < ·) := by
      rw [List.zipIdx_map_snd]
      exact List.pairwise_lt_range'
    exact List.pairwise_map.mp hindices
  rw [lastIndex?]
  generalize zs.zipIdx.filter (fun x => f x.1) = ys at hmem hsorted
  obtain rfl | ⟨ys, y, rfl⟩ := ys.eq_nil_or_concat
  · cases hmem
  · rw [List.concat_eq_append] at hmem hsorted ⊢
    refine ⟨y.2, by simp, ?_⟩
    obtain hmem | hmem := List.mem_append.mp hmem
    · exact Nat.le_of_lt ((List.pairwise_append.mp hsorted).2.2 _ hmem y (by simp))
    · exact Nat.le_of_eq (congrArg Prod.snd (List.mem_singleton.mp hmem))

theorem length_siblings (k : Kind) (above : List Frame) (left cs : List Tree) :
    (Zipper.siblings k above left cs).length = cs.length := by
  induction cs generalizing left with
  | nil => rfl
  | cons c cs ih => simp [Zipper.siblings, ih]

theorem exists_child {z : Zipper} {k : Kind} {cs : List Tree} (hf : z.focus = .node k cs) {i : Nat}
    (hi : i < cs.length) : ∃ x, z.children[i]? = some x := by
  rw [Zipper.children, hf]
  exact ⟨_, List.getElem?_eq_getElem (by rw [length_siblings]; exact hi)⟩

theorem lastIndex?_children {z : Zipper} {s : Span} {k : Kind} {l ts r : List Tree}
    (hf : z.focus = .node k (l ++ ts ++ r)) (hts : Firm ts) (hstart : z.start + sizeAll l = s.start)
    (hs : sizeAll ts = s.length) : ∃ first last, lastIndex? (fun c => c.start == s.start) z.children = some first ∧
      lastIndex? (fun c => c.span.stop == s.stop) z.children = some last ∧ first ≤ last := by
  obtain ⟨t, us, hhead, ht⟩ := hts.head
  obtain ⟨vs, u, rfl, hu⟩ := hts.last
  obtain ⟨x, hx⟩ := exists_child hf (i := l.length) (by simp only [List.length_append, List.length_singleton]; omega)
  obtain ⟨y, hy⟩ := exists_child hf (i := (l ++ vs).length) (by simp)
  have hxs : x.start = s.start := by
    rw [(Zipper.start_child hf hx).1, ← sizeAll, ← hstart]
    simp
  have hys : y.span.stop = s.stop := by
    have hcs : l ++ (vs ++ [u]) ++ r = l ++ vs ++ u :: r := by simp
    rw [(Zipper.start_child hf hy).2, ← sizeAll, Span.stop, ← hstart, ← hs, hcs, List.take_length_add_append]
    simp only [List.take_succ_cons, List.take_zero, sizeAll_append]
    omega
  obtain ⟨first, hfirst, -⟩ := lastIndex?_max (f := fun c => c.start == s.start) hx (by simp [hxs])
  obtain ⟨last, hlast, hle⟩ := lastIndex?_max (f := fun c => c.span.stop == s.stop) hy (by simp [hys])
  refine ⟨first, last, hfirst, hlast, ?_⟩
  -- The first of the children has a text, so none after it starts where it does.
  have hfirst' : first ≤ l.length := by
    obtain ⟨x', hx', hxs'⟩ := lastIndex?_spec hfirst
    have hat := (Zipper.start_child hf hx').1
    by_contra hlt
    obtain ⟨d, rfl⟩ : ∃ d, first = l.length + (d + 1) := ⟨first - l.length - 1, by omega⟩
    rw [← sizeAll, hhead, List.append_assoc, List.take_length_add_append, List.cons_append, List.take_succ_cons,
      sizeAll_append, sizeAll_cons] at hat
    have hsame : x'.start = s.start := by simpa using hxs'
    omega
  rw [List.length_append] at hle
  omega

theorem resolveTokens_of_run {root : Tree} {s : Span} {ts : List Tree} (hroot : root.isNode = true) (hts : Firm ts)
    (hrun : Run [root] s.start ts) (hs : sizeAll ts = s.length) : ∃ target, resolveTokens root s = .ok target := by
  have hpos := hts.pos
  cases root with
  | token k x => cases hroot
  | node k cs =>
  -- The root itself is found as the run of its children.
  have hinner : ∃ us, Firm us ∧ Run cs s.start us ∧ sizeAll us = s.length := by
    obtain ⟨rfl, hstart⟩ | ⟨_, _, h, hin⟩ := Zipper.run_singleton hrun (by rintro rfl; simp at hpos)
    · rw [sizeAll_cons, sizeAll_nil, size_node] at hs hpos
      obtain ⟨l, us, r, rfl, hl, hr, hfirm⟩ := @exists_firm cs (by omega)
      rw [sizeAll_append, sizeAll_append] at hs
      have hself := Run.here l us r
      rw [hl, ← hstart] at hself
      exact ⟨us, hfirm, hself, by omega⟩
    · cases h
      exact ⟨ts, hts, hin, hs⟩
  obtain ⟨us, hfirm, hin, hus⟩ := hinner
  rw [resolveTokens, if_neg (by simp only [Span.isEmpty, beq_iff_eq]; omega)]
  have hcover := Zipper.coverOf_run (s := s) hin hfirm k [] (by simp [Zipper.start, hus]) rfl
  simp only [Zipper.start, List.foldr_nil] at hcover
  rw [← Zipper.covering] at hcover
  generalize Zipper.covering (.node k cs) s = z at hcover
  dsimp only
  obtain ⟨hspan, habove⟩ | ⟨k', l, r, hfocus, hstart⟩ := hcover
  · split
    · exact ⟨_, if_pos (by simp [hspan])⟩
    · exact ⟨_, if_pos (by simp [hspan, habove])⟩
  · rw [if_neg (by simp [Zipper.isToken, hfocus, Tree.isToken])]
    split
    · exact ⟨_, rfl⟩
    · obtain ⟨first, last, hfirst, hlast, hle⟩ := lastIndex?_children hfocus hfirm hstart hus
      simp only [hfirst, hlast, if_pos hle]
      exact ⟨_, rfl⟩

theorem resolve_of_stands {root : Tree} {p : Part} {shift : Nat} (hroot : root.isNode = true)
    (h : p.Stands root shift) : ∃ target, p.resolve root shift = .ok target := by
  obtain ⟨n, ts, hrun, hfits⟩ := h
  have hpos := hfits.firm.pos
  have hstop := hfits.stop
  have hin : ¬ root.size < (p.span.shift shift).stop := by
    have hbound := hrun.bound
    simp only [sizeAll_cons, sizeAll_nil] at hbound
    simp only [Span.shift, Span.stop] at hstop ⊢
    omega
  have hspan (htakes : p.change.isInsertion = false) : p.span.shift shift = ⟨n, sizeAll ts⟩ := by
    have hlength := hfits.length htakes
    simp only [Span.stop] at hstop
    rw [Span.shift, ← hlength]
    congr 1
    omega
  have hsuits := hfits.suits
  rw [resolve, if_neg hin]
  cases hc : p.change with
  | replaceNode kind t =>
    rw [hc] at hsuits
    obtain ⟨cs, rfl⟩ := hsuits
    simp only [sizeAll_cons, sizeAll_nil, size_node, Nat.add_zero] at hspan hpos
    obtain ⟨z, hz⟩ := Zipper.nodeAt?_run hrun hpos
    exact ⟨.node z, by simp only [resolveNode, hspan (by rw [hc]; rfl), hz]⟩
  | replaceTokens us =>
    rw [hspan (by rw [hc]; rfl)]
    exact resolveTokens_of_run hroot hfits.firm hrun rfl
  | removeToken kind unwrap =>
    rw [hc] at hsuits
    obtain ⟨x, rfl⟩ := hsuits
    obtain ⟨z, hz, hfocus, hstart⟩ := Zipper.mem_leaves_of_run hrun
    have hself : z.span = p.span.shift shift := by
      rw [hspan (by rw [hc]; rfl), Zipper.span, hstart, hfocus, sizeAll_cons, sizeAll_nil, Nat.add_zero]
    have hcover := Zipper.covering_leaf hz (by simpa [hfocus] using hpos)
    rw [hself] at hcover
    refine ⟨.token z, ?_⟩
    simp [resolveToken, hcover, hself, Zipper.isToken, Zipper.kind, hfocus, Tree.isToken, Tree.kind]
  | insertAfter kind us =>
    rw [hc] at hsuits
    obtain ⟨x, rfl⟩ := hsuits
    have hempty : p.span.length = 0 := p.insertion_empty (by rw [hc]; rfl)
    obtain ⟨z, hz, hfocus, hstart⟩ := Zipper.mem_leaves_of_run hrun
    have hself : z.span.stop = (p.span.shift shift).start := by
      simp only [sizeAll_cons, sizeAll_nil, Span.stop] at hstop
      simp only [Zipper.span, Span.stop, hstart, hfocus, Span.shift]
      omega
    have hseek := Zipper.tokenLeftOf_leaf hz (by simpa [hfocus] using hpos)
    rw [hself] at hseek
    refine ⟨.after z, ?_⟩
    simp [resolveAnchor, hseek, hself, Zipper.kind, hfocus, Tree.kind]

end Part

end Lintel
