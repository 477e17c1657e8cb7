import Lintel.Proofs.TextCuts
import Lintel.Syntax.Search

namespace Lintel

namespace Tree

@[simp] theorem sizeAll_nil : sizeAll [] = 0 := rfl

@[simp] theorem sizeAll_cons (t : Tree) (ts : List Tree) : sizeAll (t :: ts) = t.size + sizeAll ts := by
  simp [sizeAll, size, textAll]

@[simp] theorem sizeAll_append (ts us : List Tree) : sizeAll (ts ++ us) = sizeAll ts + sizeAll us := by
  simp [sizeAll]

theorem size_node (k : Kind) (cs : List Tree) : (node k cs).size = sizeAll cs := rfl

theorem size_token (k : Kind) (t : Text) : (token k t).size = t.size := rfl

theorem size_textAll_reverse (ts : List Tree) : (textAll ts.reverse).size = sizeAll ts := by
  induction ts with
  | nil => rfl
  | cons t ts ih =>
    rw [sizeAll] at ih
    simp only [List.reverse_cons, textAll_append, textAll, Text.size_append, Text.size_nil, sizeAll, ih]
    omega

@[simp] theorem sizeAll_reverse (ts : List Tree) : sizeAll ts.reverse = sizeAll ts :=
  size_textAll_reverse ts

end Tree

namespace Zipper

theorem start_above (t u : Tree) (f : Frame) (fs : List Frame) :
    start ⟨t, f :: fs⟩ = start ⟨u, fs⟩ + Tree.sizeAll f.left := by
  simp only [start, List.foldr_cons]
  omega

theorem size_textBefore (z : Zipper) : (textBefore z.above).size = z.start := by
  obtain ⟨t, fs⟩ := z
  induction fs with
  | nil => rfl
  | cons f fs ih =>
    simp only [start] at ih
    simp only [textBefore, Text.size_append, Tree.size_textAll_reverse, start, List.foldr_cons, ih]
    omega

theorem text_fillMany (f : Frame) (fs : List Frame) (ts : List Tree) :
    (plug (f.fillMany ts) fs).text = textBefore (f :: fs) ++ Tree.textAll ts ++ textAfter (f :: fs) := by
  rw [text_plug]
  simp [Frame.fillMany, Tree.text, textBefore, textAfter]

mutual

theorem root_coverOf (s : Span) (above : List Frame) (start : Nat) :
    (t : Tree) → (coverOf s above start t).root = plug t above
  | .token _ _ => rfl
  | .node k cs => by
    rw [coverOf]
    cases h : coverAll s k above [] start cs with
    | none => rfl
    | some z => exact root_coverAll s k above [] start cs z h

theorem root_coverAll (s : Span) (kind : Kind) (above : List Frame) (left : List Tree) (start : Nat) :
    (cs : List Tree) → (z : Zipper) → coverAll s kind above left start cs = some z →
      z.root = plug (.node kind (left.reverse ++ cs)) above
  | [], z, h => by simp [coverAll] at h
  | c :: cs, z, h => by
    have here (h : (if (⟨start, c.size⟩ : Span).contains s then
        some (coverOf s (⟨kind, left, cs⟩ :: above) start c) else none) = some z) :
        z.root = plug (.node kind (left.reverse ++ c :: cs)) above := by
      split at h
      · cases h
        exact root_coverOf s _ start c
      · cases h
    cases cs with
    | nil => exact here (by simpa only [coverAll] using h)
    | cons d ds =>
      rw [coverAll] at h
      split at h
      · split at h
        · simpa using root_coverAll s kind above (c :: left) _ (d :: ds) z h
        · exact here h
      · exact here h

end

theorem root_covering (root : Tree) (s : Span) : (covering root s).root = root :=
  root_coverOf s [] 0 root

mutual

theorem root_seekIn (p : Span → Bool) (above : List Frame) (start : Nat) :
    (t : Tree) → (z : Zipper) → seekIn p above start t = some z → z.root = plug t above
  | .token k t, z, h => by
    rw [seekIn] at h
    split at h
    · cases h
      rfl
    · cases h
  | .node k cs, z, h => root_seekAll p k above [] start cs z h

theorem root_seekAll (p : Span → Bool) (kind : Kind) (above : List Frame) (left : List Tree) (start : Nat) :
    (cs : List Tree) → (z : Zipper) → seekAll p kind above left start cs = some z →
      z.root = plug (.node kind (left.reverse ++ cs)) above
  | [], z, h => by simp [seekAll] at h
  | c :: cs, z, h => by
    rw [seekAll] at h
    split at h
    · exact root_seekIn p _ start c z h
    · simpa using root_seekAll p kind above (c :: left) _ cs z h

end

theorem root_tokenLeftOf {root : Tree} {offset : Nat} {z : Zipper} (h : tokenLeftOf root offset = some z) :
    z.root = root := by
  simp only [tokenLeftOf, tokensAt, Option.or_eq_some_iff] at h
  rcases h with h | ⟨-, h⟩
  · exact root_seekIn _ [] 0 root z h
  · exact root_seekIn _ [] 0 root z h

theorem root_parentsOf (t : Tree) (fs : List Frame) : ∀ z ∈ parentsOf t fs, z.root = plug t fs := by
  induction fs generalizing t with
  | nil => simp [parentsOf]
  | cons f fs ih =>
    intro z hz
    rw [parentsOf, List.mem_cons] at hz
    rcases hz with rfl | hz
    · rfl
    · exact ih _ z hz

theorem root_ancestors (z : Zipper) : ∀ y ∈ z.ancestors, y.root = z.root := by
  intro y hy
  rw [ancestors, List.mem_cons] at hy
  rcases hy with rfl | hy
  · rfl
  · exact root_parentsOf _ _ y hy

theorem nodeAt?_place {root : Tree} {s : Span} {kind : Kind} {z : Zipper} (h : nodeAt? root s kind = some z) :
    z.root = root ∧ z.span = s := by
  rw [nodeAt?] at h
  have hmem := List.mem_of_find?_eq_some h
  have hspan : (z.span == s) = true := List.all_eq_true.mp List.all_takeWhile z hmem
  refine ⟨?_, by simpa using hspan⟩
  have hz := (List.takeWhile_prefix _).subset hmem
  rw [← root_covering root s]
  split at hz
  · exact root_ancestors _ z (List.mem_cons_of_mem _ hz)
  · exact root_ancestors _ z hz

theorem getElem?_siblings (kind : Kind) (above : List Frame) (left cs : List Tree) (i : Nat) (z : Zipper)
    (h : (siblings kind above left cs)[i]? = some z) :
    ∃ c, cs[i]? = some c ∧ z = ⟨c, ⟨kind, (cs.take i).reverse ++ left, cs.drop (i + 1)⟩ :: above⟩ := by
  induction cs generalizing left i with
  | nil => simp [siblings] at h
  | cons c cs ih =>
    cases i with
    | zero => exact ⟨c, rfl, by simpa [siblings] using h.symm⟩
    | succ i =>
      obtain ⟨d, hd, hz⟩ := ih (c :: left) i (by simpa [siblings] using h)
      exact ⟨d, by simpa using hd, by simpa using hz⟩

end Zipper

end Lintel
