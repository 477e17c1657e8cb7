import Lintel.Proofs.Placement
import Lintel.Syntax.Trivia
import Mathlib.Data.List.Chain

namespace Lintel

theorem Span.contains_iff (a b : Span) : a.contains b = true ↔ a.start ≤ b.start ∧ b.stop ≤ a.stop := by
  simp [contains]

namespace Tree

mutual

def Filled : Tree → Prop
  | .token _ _ => True
  | .node _ cs => tokensAll cs ≠ [] ∧ FilledAll cs

def FilledAll : List Tree → Prop
  | [] => True
  | c :: cs => c.Filled ∧ FilledAll cs

end

theorem Filled.tokens_ne_nil {t : Tree} (h : t.Filled) : t.tokens ≠ [] := by
  cases t with
  | token k t => simp [tokens]
  | node k cs => exact h.1

end Tree

namespace Zipper

mutual

def leavesOf (above : List Frame) : Tree → List Zipper
  | .token k t => [⟨.token k t, above⟩]
  | .node k cs => leavesAll k above [] cs

def leavesAll (kind : Kind) (above : List Frame) (left : List Tree) : List Tree → List Zipper
  | [] => []
  | c :: cs => leavesOf (⟨kind, left, cs⟩ :: above) c ++ leavesAll kind above (c :: left) cs

end

def leaves (root : Tree) : List Zipper :=
  leavesOf [] root

mutual

theorem map_focus_leavesOf (above : List Frame) :
    (t : Tree) → (leavesOf above t).map (·.focus) = t.tokens.map Tree.leaf
  | .token _ _ => rfl
  | .node k cs => map_focus_leavesAll k above [] cs

theorem map_focus_leavesAll (kind : Kind) (above : List Frame) (left : List Tree) :
    (cs : List Tree) → (leavesAll kind above left cs).map (·.focus) = (Tree.tokensAll cs).map Tree.leaf
  | [] => rfl
  | c :: cs => by
    rw [leavesAll, List.map_append, map_focus_leavesOf _ c, map_focus_leavesAll kind above (c :: left) cs,
      Tree.tokensAll, List.map_append]

end

mutual

theorem flatMap_preorderOf {β : Type} {f : Zipper → List β} (hf : ∀ z, z.isNode = true → f z = [])
    (above : List Frame) : (t : Tree) → (preorderOf above t).flatMap f = (leavesOf above t).flatMap f
  | .token _ _ => rfl
  | .node k cs => by
    rw [preorderOf, List.flatMap_cons, hf _ rfl, List.nil_append]
    exact flatMap_preorderAll hf k above [] cs

theorem flatMap_preorderAll {β : Type} {f : Zipper → List β} (hf : ∀ z, z.isNode = true → f z = [])
    (kind : Kind) (above : List Frame) (left : List Tree) :
    (cs : List Tree) → (preorderAll kind above left cs).flatMap f = (leavesAll kind above left cs).flatMap f
  | [] => rfl
  | c :: cs => by
    rw [preorderAll, leavesAll, List.flatMap_append, List.flatMap_append, flatMap_preorderOf hf _ c,
      flatMap_preorderAll hf kind above (c :: left) cs]

end

theorem leavesOf_ne_nil {t : Tree} (h : t.Filled) (above : List Frame) : leavesOf above t ≠ [] := by
  intro hnil
  have := map_focus_leavesOf above t
  rw [hnil] at this
  exact h.tokens_ne_nil (by simpa using this.symm)

theorem leavesAll_ne_nil {c : Tree} {cs : List Tree} (h : Tree.FilledAll (c :: cs)) (kind : Kind)
    (above : List Frame) (left : List Tree) : leavesAll kind above left (c :: cs) ≠ [] := by
  rw [leavesAll]
  exact List.append_ne_nil_of_left_ne_nil (leavesOf_ne_nil h.1 _) _

mutual

theorem firstTokenOf_eq (above : List Frame) :
    (t : Tree) → t.Filled → firstTokenOf above t = (leavesOf above t).head?
  | .token _ _, _ => rfl
  | .node k [], h => absurd rfl h.1
  | .node k (c :: cs), h => by
    rw [firstTokenOf, firstTokenAll, leavesOf, leavesAll, firstTokenOf_eq _ c h.2.1,
      List.head?_append_of_ne_nil _ (leavesOf_ne_nil h.2.1 _)]

end

mutual

theorem lastTokenOf_eq (above : List Frame) :
    (t : Tree) → t.Filled → lastTokenOf above t = (leavesOf above t).getLast?
  | .token _ _, _ => rfl
  | .node k cs, h => lastTokenAll_eq k above [] cs h.2

theorem lastTokenAll_eq (kind : Kind) (above : List Frame) (left : List Tree) :
    (cs : List Tree) → Tree.FilledAll cs →
      lastTokenAll kind above left cs = (leavesAll kind above left cs).getLast?
  | [], _ => rfl
  | [c], h => by
    rw [lastTokenAll, leavesAll, leavesAll, List.append_nil]
    exact lastTokenOf_eq _ c h.1
  | c :: d :: cs, h => by
    rw [lastTokenAll, leavesAll, List.getLast?_append_of_ne_nil _ (leavesAll_ne_nil h.2 _ _ _)]
    exact lastTokenAll_eq kind above (c :: left) (d :: cs) h.2

end

mutual

theorem nextFrom_last (above : List Frame) : (t : Tree) → t.Filled → (y : Zipper) →
    (leavesOf above t).getLast? = some y → nextFrom y.focus y.above = nextFrom t above
  | .token _ _, _, y, hy => by
    obtain rfl : _ = y := by simpa [leavesOf] using hy
    rfl
  | .node k cs, h, y, hy => by
    simpa using nextFrom_lastAll k above [] cs h.2 y hy

theorem nextFrom_lastAll (kind : Kind) (above : List Frame) (left : List Tree) : (cs : List Tree) →
    Tree.FilledAll cs → (y : Zipper) → (leavesAll kind above left cs).getLast? = some y →
      nextFrom y.focus y.above = nextFrom (.node kind (left.reverse ++ cs)) above
  | [], _, y, hy => by simp [leavesAll] at hy
  | [c], h, y, hy => by
    rw [leavesAll, leavesAll, List.append_nil] at hy
    exact nextFrom_last _ c h.1 y hy
  | c :: d :: cs, h, y, hy => by
    rw [leavesAll, List.getLast?_append_of_ne_nil _ (leavesAll_ne_nil h.2 _ _ _)] at hy
    simpa using nextFrom_lastAll kind above (c :: left) (d :: cs) h.2 y hy

end

theorem prevFrom_first (above : List Frame) : (t : Tree) → t.Filled → (y : Zipper) →
    (leavesOf above t).head? = some y → prevFrom y.focus y.above = prevFrom t above
  | .token _ _, _, y, hy => by
    obtain rfl : _ = y := by simpa [leavesOf] using hy
    rfl
  | .node k [], h, _, _ => absurd rfl h.1
  | .node k (c :: cs), h, y, hy => by
    rw [leavesOf, leavesAll, List.head?_append_of_ne_nil _ (leavesOf_ne_nil h.2.1 _)] at hy
    exact prevFrom_first _ c h.2.1 y hy

theorem start_first (above : List Frame) : (t : Tree) → t.Filled → (y : Zipper) →
    (leavesOf above t).head? = some y → y.start = start ⟨t, above⟩
  | .token _ _, _, y, hy => by
    obtain rfl : _ = y := by simpa [leavesOf] using hy
    rfl
  | .node k [], h, _, _ => absurd rfl h.1
  | .node k (c :: cs), h, y, hy => by
    rw [leavesOf, leavesAll, List.head?_append_of_ne_nil _ (leavesOf_ne_nil h.2.1 _)] at hy
    rw [start_first _ c h.2.1 y hy]
    simp [start, Tree.sizeAll, Tree.textAll]

theorem start_cons (c : Tree) (kind : Kind) (left right : List Tree) (above : List Frame) :
    start ⟨c, ⟨kind, left, right⟩ :: above⟩ = Tree.sizeAll left + start ⟨.node kind [], above⟩ := by
  simp [start]

mutual

theorem bounds_leavesOf (above : List Frame) : (t : Tree) → (z : Zipper) → z ∈ leavesOf above t →
    start ⟨t, above⟩ ≤ z.start ∧ z.start + z.focus.size ≤ start ⟨t, above⟩ + t.size
  | .token _ _, z, hz => by
    obtain rfl : z = _ := by simpa [leavesOf] using hz
    exact ⟨Nat.le_refl _, Nat.le_refl _⟩
  | .node k cs, z, hz => by
    have := bounds_leavesAll k above [] cs z hz
    simpa [Tree.sizeAll, Tree.textAll, Tree.size, Tree.text, start] using this

theorem bounds_leavesAll (kind : Kind) (above : List Frame) (left : List Tree) : (cs : List Tree) →
    (z : Zipper) → z ∈ leavesAll kind above left cs →
      Tree.sizeAll left + start ⟨.node kind [], above⟩ ≤ z.start ∧
        z.start + z.focus.size ≤ Tree.sizeAll left + start ⟨.node kind [], above⟩ + Tree.sizeAll cs
  | [], z, hz => by simp [leavesAll] at hz
  | c :: cs, z, hz => by
    have hsize := Tree.sizeAll_cons c cs
    have hleft := Tree.sizeAll_cons c left
    rw [leavesAll, List.mem_append] at hz
    obtain hz | hz := hz
    · have := bounds_leavesOf _ c z hz
      rw [start_cons] at this
      omega
    · have := bounds_leavesAll kind above (c :: left) cs z hz
      omega

end

mutual

theorem stop_last (above : List Frame) : (t : Tree) → t.Filled → (y : Zipper) →
    (leavesOf above t).getLast? = some y → y.start + y.focus.size = start ⟨t, above⟩ + t.size
  | .token _ _, _, y, hy => by
    obtain rfl : _ = y := by simpa [leavesOf] using hy
    rfl
  | .node k cs, h, y, hy => by
    have := stop_lastAll k above [] cs h.2 y hy
    simpa [Tree.sizeAll, Tree.textAll, Tree.size, Tree.text, start] using this

theorem stop_lastAll (kind : Kind) (above : List Frame) (left : List Tree) : (cs : List Tree) →
    Tree.FilledAll cs → (y : Zipper) → (leavesAll kind above left cs).getLast? = some y →
      y.start + y.focus.size = Tree.sizeAll left + start ⟨.node kind [], above⟩ + Tree.sizeAll cs
  | [], _, y, hy => by simp [leavesAll] at hy
  | [c], h, y, hy => by
    rw [leavesAll, leavesAll, List.append_nil] at hy
    rw [stop_last _ c h.1 y hy, start_cons, Tree.sizeAll_cons]
    rfl
  | c :: d :: cs, h, y, hy => by
    rw [leavesAll, List.getLast?_append_of_ne_nil _ (leavesAll_ne_nil h.2 _ _ _)] at hy
    have := stop_lastAll kind above (c :: left) (d :: cs) h.2 y hy
    rw [Tree.sizeAll_cons c left] at this
    rw [Tree.sizeAll_cons c]
    omega

end

structure Link (y z : Zipper) : Prop where
  next : y.nextToken? = some z
  prev : z.prevToken? = some y
  start : z.start = y.start + y.focus.size

mutual

theorem isChain_leavesOf (above : List Frame) : (t : Tree) → t.Filled → (leavesOf above t).IsChain Link
  | .token _ _, _ => by simp [leavesOf]
  | .node k cs, h => isChain_leavesAll k above [] cs h.2

theorem isChain_leavesAll (kind : Kind) (above : List Frame) (left : List Tree) : (cs : List Tree) →
    Tree.FilledAll cs → (leavesAll kind above left cs).IsChain Link
  | [], _ => by simp [leavesAll]
  | [c], h => by
    rw [leavesAll, leavesAll, List.append_nil]
    exact isChain_leavesOf _ c h.1
  | c :: d :: cs, h => by
    rw [leavesAll, List.isChain_append]
    refine ⟨isChain_leavesOf _ c h.1, isChain_leavesAll kind above (c :: left) (d :: cs) h.2, ?_⟩
    -- At the seam: the last leaf of one child and the first leaf of the next.
    intro y hy z hz
    rw [Option.mem_def] at hy hz
    rw [leavesAll, List.head?_append_of_ne_nil _ (leavesOf_ne_nil h.2.1 _)] at hz
    refine ⟨?_, ?_, ?_⟩
    · rw [nextToken?, nextFrom_last _ c h.1 y hy, ← hz, ← firstTokenOf_eq _ d h.2.1]
      rfl
    · rw [prevToken?, prevFrom_first _ d h.2.1 z hz, ← hy, ← lastTokenOf_eq _ c h.1]
      rfl
    · rw [stop_last _ c h.1 y hy, start_first _ d h.2.1 z hz, start_cons, start_cons, Tree.sizeAll_cons]
      omega

end

mutual

theorem root_leavesOf (above : List Frame) : (t : Tree) → (z : Zipper) → z ∈ leavesOf above t →
    z.root = plug t above ∧ z.isToken = true
  | .token _ _, z, hz => by
    obtain rfl : z = _ := by simpa [leavesOf] using hz
    exact ⟨rfl, rfl⟩
  | .node k cs, z, hz => root_leavesAll k above [] cs z hz

theorem root_leavesAll (kind : Kind) (above : List Frame) (left : List Tree) : (cs : List Tree) →
    (z : Zipper) → z ∈ leavesAll kind above left cs →
      z.root = plug (.node kind (left.reverse ++ cs)) above ∧ z.isToken = true
  | [], z, hz => by simp [leavesAll] at hz
  | c :: cs, z, hz => by
    rw [leavesAll, List.mem_append] at hz
    obtain hz | hz := hz
    · exact root_leavesOf _ c z hz
    · simpa using root_leavesAll kind above (c :: left) cs z hz

end

mutual

theorem coverOf_leaf (above : List Frame) : (t : Tree) → (z : Zipper) → z ∈ leavesOf above t →
    0 < z.focus.size → coverOf z.span above (start ⟨t, above⟩) t = z
  | .token _ _, z, hz, _ => by
    obtain rfl : z = _ := by simpa [leavesOf] using hz
    rfl
  | .node k cs, z, hz, hpos => by
    have hcover := coverAll_leaf k above [] cs z hz hpos
    have hstart : Tree.sizeAll [] + start ⟨.node k [], above⟩ = start ⟨.node k cs, above⟩ := by
      simp [Tree.sizeAll, Tree.textAll, start]
    rw [hstart] at hcover
    rw [coverOf, hcover, Option.getD_some]

theorem coverAll_leaf (kind : Kind) (above : List Frame) (left : List Tree) : (cs : List Tree) →
    (z : Zipper) → z ∈ leavesAll kind above left cs → 0 < z.focus.size →
      coverAll z.span kind above left (Tree.sizeAll left + start ⟨.node kind [], above⟩) cs = some z
  | [], z, hz, _ => by simp [leavesAll] at hz
  | c :: cs, z, hz, hpos => by
    have hleft := Tree.sizeAll_cons c left
    rw [leavesAll, List.mem_append] at hz
    obtain hz | hz := hz
    · have hbounds := bounds_leavesOf _ c z hz
      have hcover := coverOf_leaf _ c z hz hpos
      rw [start_cons] at hbounds hcover
      have hin : Span.contains ⟨Tree.sizeAll left + start ⟨.node kind [], above⟩, c.size⟩ z.span = true :=
        (Span.contains_iff _ _).mpr hbounds
      have hout : ¬ Tree.sizeAll left + start ⟨.node kind [], above⟩ + c.size ≤ z.span.start := by
        simp only [span]
        omega
      cases cs with
      | nil => simp only [coverAll, if_pos hin, hcover]
      | cons d ds => simp only [coverAll, if_pos hin, if_neg hout, hcover]
    · have hbounds := bounds_leavesAll kind above (c :: left) cs z hz
      have hcover := coverAll_leaf kind above (c :: left) cs z hz hpos
      cases cs with
      | nil => simp [leavesAll] at hz
      | cons d ds =>
        have hafter : Tree.sizeAll left + start ⟨.node kind [], above⟩ + c.size ≤ z.span.start := by
          simp only [span]
          omega
        have hgoes : Tree.sizeAll left + start ⟨.node kind [], above⟩ + c.size < z.span.stop := by
          simp only [span, Span.stop]
          omega
        have hstart : Tree.sizeAll (c :: left) + start ⟨.node kind [], above⟩ =
            Tree.sizeAll left + start ⟨.node kind [], above⟩ + c.size := by omega
        rw [hstart] at hcover
        rw [coverAll, if_pos hafter, if_pos (by simp [hgoes]), hcover]

end

theorem covering_leaf {root : Tree} {z : Zipper} (hz : z ∈ leaves root) (hpos : 0 < z.focus.size) :
    covering root z.span = z :=
  coverOf_leaf [] root z hz hpos

section Seek

variable {p : Span → Bool} {z : Zipper} (hup : ∀ s : Span, s.contains z.span = true → p s = true)
  (hbefore : ∀ s : Span, s.stop ≤ z.start → p s = false)

include hup hbefore

mutual

theorem seekIn_leaf (above : List Frame) : (t : Tree) → z ∈ leavesOf above t →
    seekIn p above (start ⟨t, above⟩) t = some z
  | .token k t, hz => by
    obtain rfl : z = _ := by simpa [leavesOf] using hz
    have hp := hup ⟨start ⟨.token k t, above⟩, t.size⟩
      ((Span.contains_iff _ _).mpr ⟨Nat.le_refl _, Nat.le_refl _⟩)
    rw [seekIn, if_pos hp]
  | .node k cs, hz => by
    have hseek := seekAll_leaf k above [] cs hz
    have hstart : Tree.sizeAll [] + start ⟨.node k [], above⟩ = start ⟨.node k cs, above⟩ := by
      simp [Tree.sizeAll, Tree.textAll, start]
    rw [hstart] at hseek
    exact hseek

theorem seekAll_leaf (kind : Kind) (above : List Frame) (left : List Tree) : (cs : List Tree) →
    z ∈ leavesAll kind above left cs →
      seekAll p kind above left (Tree.sizeAll left + start ⟨.node kind [], above⟩) cs = some z
  | [], hz => by simp [leavesAll] at hz
  | c :: cs, hz => by
    have hleft := Tree.sizeAll_cons c left
    rw [leavesAll, List.mem_append] at hz
    obtain hz | hz := hz
    · have hbounds := bounds_leavesOf _ c z hz
      have hseek := seekIn_leaf _ c hz
      rw [start_cons] at hbounds hseek
      have hp := hup ⟨Tree.sizeAll left + start ⟨.node kind [], above⟩, c.size⟩
        ((Span.contains_iff _ _).mpr hbounds)
      rw [seekAll, if_pos hp, hseek]
    · have hbounds := bounds_leavesAll kind above (c :: left) cs z hz
      have hseek := seekAll_leaf kind above (c :: left) cs hz
      have hp := hbefore ⟨Tree.sizeAll left + start ⟨.node kind [], above⟩, c.size⟩ (by
        simp only [Span.stop]
        omega)
      have hstart : Tree.sizeAll (c :: left) + start ⟨.node kind [], above⟩ =
          Tree.sizeAll left + start ⟨.node kind [], above⟩ + c.size := by omega
      rw [hstart] at hseek
      rw [seekAll, hp, if_neg (by simp), hseek]

end

end Seek

theorem tokenLeftOf_leaf {root : Tree} {z : Zipper} (hz : z ∈ leaves root) (hpos : 0 < z.focus.size) :
    tokenLeftOf root z.span.stop = some z := by
  have hseek : seekIn (fun s => s.start < z.span.stop && z.span.stop ≤ s.stop) [] 0 root = some z := by
    refine seekIn_leaf (fun s hs => ?_) (fun s hs => ?_) [] root hz
    · rw [Span.contains_iff] at hs
      have hlt : s.start < z.span.stop := by
        simp only [span, Span.stop] at hs ⊢
        omega
      simp [hlt, hs.2]
    · have hle : ¬ z.span.stop ≤ s.stop := by
        simp only [span, Span.stop] at hs ⊢
        omega
      simp [hle]
  simp only [tokenLeftOf, tokensAt, hseek, Option.some_or]

theorem tokenRightOf_leaf {root : Tree} {z : Zipper} (hz : z ∈ leaves root) (hpos : 0 < z.focus.size) :
    tokenRightOf root z.start = some z := by
  have hseek : seekIn (fun s => s.start ≤ z.start && z.start < s.stop) [] 0 root = some z := by
    refine seekIn_leaf (fun s hs => ?_) (fun s hs => ?_) [] root hz
    · rw [Span.contains_iff] at hs
      have hle : s.start ≤ z.start := hs.1
      have hlt : z.start < s.stop := by
        have := hs.2
        simp only [span, Span.stop] at this ⊢
        omega
      simp [hle, hlt]
    · have hlt : ¬ z.start < s.stop := by omega
      simp [hlt]
  simp only [tokenRightOf, tokensAt, hseek, Option.some_or]

theorem walk_eq {step : Zipper → Option Zipper} {z : Zipper} {zs : List Zipper}
    (hchain : (z :: zs).IsChain (fun x y => step x = some y))
    (hlast : ∀ y ∈ (z :: zs).getLast?, step y = none) {n : Nat} (hn : zs.length ≤ n) : walk step n z = zs := by
  induction zs generalizing z n with
  | nil =>
    have hz : step z = none := hlast z (by simp)
    cases n with
    | zero => rfl
    | succ n => simp [walk, hz]
  | cons y zs ih =>
    cases n with
    | zero => simp at hn
    | succ n =>
      obtain ⟨hzy, hchain⟩ := List.isChain_cons_cons.mp hchain
      rw [List.length_cons] at hn
      simp only [walk, hzy]
      rw [ih hchain (by simpa using hlast) (by omega)]

theorem start_of_isChain {ls rs : List Zipper} {z : Zipper} (hchain : (ls ++ z :: rs).IsChain Link) {n : Nat}
    (hfirst : ∀ y ∈ (ls ++ z :: rs).head?, y.start = n) : z.start = n + Tree.sizeAll (ls.map (·.focus)) := by
  induction ls generalizing n with
  | nil => exact hfirst z (by simp)
  | cons y ls ih =>
    have hy : y.start = n := hfirst y (by simp)
    rw [List.cons_append, List.isChain_cons] at hchain
    rw [ih hchain.2 (fun x hx => (hchain.1 x hx).start), hy]
    simp [Nat.add_assoc]

section Neighbours

variable {k : Kind} {cs : List Tree} (hfill : Tree.FilledAll cs) {ls rs : List Zipper} {z : Zipper}
  (h : leaves (.node k cs) = ls ++ z :: rs)

include h

theorem reach_leaf : z.reach = ls.length + (rs.length + 1) := by
  have hroot := (root_leavesOf [] (.node k cs) z (by rw [← leaves, h]; simp)).1
  have hlen := congrArg List.length (map_focus_leavesOf [] (.node k cs))
  rw [List.length_map, List.length_map, ← leaves, h] at hlen
  rw [reach, hroot, plug, ← hlen]
  simp

include hfill

theorem following_leaf : z.following = rs := by
  have hchain := isChain_leavesAll k [] [] cs hfill
  have hleaves : leavesAll k [] [] cs = ls ++ z :: rs := h
  rw [hleaves] at hchain
  refine walk_eq ((List.isChain_append.mp hchain).2.1.imp fun _ _ hl => hl.next) (fun y hy => ?_) ?_
  · have hlast : (leavesAll k [] [] cs).getLast? = some y := by
      rw [hleaves, List.getLast?_append_of_ne_nil _ (by simp)]
      exact hy
    rw [nextToken?, nextFrom_lastAll k [] [] cs hfill y hlast]
    rfl
  · rw [reach_leaf h]
    omega

theorem preceding_leaf : z.preceding = ls.reverse := by
  have hchain := isChain_leavesAll k [] [] cs hfill
  have hleaves : leavesAll k [] [] cs = (ls ++ [z]) ++ rs := by
    rw [List.append_assoc]
    exact h
  rw [hleaves] at hchain
  have hfirst : (z :: ls.reverse).getLast? = (leavesAll k [] [] cs).head? := by
    have hrev : z :: ls.reverse = (ls ++ [z]).reverse := by simp
    have hne : ls ++ [z] ≠ [] := by simp
    rw [hrev, List.getLast?_reverse, hleaves, List.head?_append_of_ne_nil _ hne]
  have hback : (z :: ls.reverse).IsChain (fun x y => x.prevToken? = some y) := by
    simpa using List.isChain_reverse.mpr ((List.isChain_append.mp hchain).1.imp fun _ _ hl => hl.prev)
  refine walk_eq hback (fun y hy => ?_) ?_
  · rw [Option.mem_def, hfirst] at hy
    cases cs with
    | nil => simp [leavesAll] at hy
    | cons c cs =>
      rw [leavesAll, List.head?_append_of_ne_nil _ (leavesOf_ne_nil hfill.1 _)] at hy
      rw [prevToken?, prevFrom_first _ c hfill.1 y hy]
      rfl
  · rw [reach_leaf h, List.length_reverse]
    omega

theorem nextToken?_leaf : z.nextToken? = rs.head? := by
  have hfollow := following_leaf hfill h
  rw [following, reach_leaf h, ← Nat.add_assoc, walk] at hfollow
  rw [← hfollow]
  cases z.nextToken? <;> rfl

theorem prevToken?_leaf : z.prevToken? = ls.getLast? := by
  have hpre := preceding_leaf hfill h
  rw [preceding, reach_leaf h, ← Nat.add_assoc, walk] at hpre
  rw [← List.head?_reverse, ← hpre]
  cases z.prevToken? <;> rfl

theorem start_leaf : z.start = Tree.sizeAll (ls.map (·.focus)) := by
  have hchain := isChain_leavesAll k [] [] cs hfill
  have hleaves : leavesAll k [] [] cs = ls ++ z :: rs := h
  rw [hleaves] at hchain
  rw [start_of_isChain (n := 0) hchain ?_, Nat.zero_add]
  intro y hy
  rw [Option.mem_def, ← hleaves] at hy
  cases cs with
  | nil => simp [leavesAll] at hy
  | cons c cs =>
    rw [leavesAll, List.head?_append_of_ne_nil _ (leavesOf_ne_nil hfill.1 _)] at hy
    rw [start_first _ c hfill.1 y hy]
    rfl

end Neighbours

end Zipper

end Lintel
