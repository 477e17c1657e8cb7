import Lintel.Proofs.Cells

/-!
Taking a delimiter out of a tree without trivia. The node it stood in dissolves if nothing but nodes is left in it.
The tokens are counted, so that taking one out leaves the places of those before it.
-/

namespace Lintel

namespace Tree

def standsAt (n : Nat) : List Tree → Bool
  | [] => false
  | c :: cs => if n < c.tokens.length then c.isToken else standsAt (n - c.tokens.length) cs

mutual

def shed (n : Nat) : Tree → List Tree
  | .token _ _ => []
  | .node k cs =>
    if standsAt n cs && (shedAll n cs).all (·.isNode) then shedAll n cs else [.node k (shedAll n cs)]

def shedAll (n : Nat) : List Tree → List Tree
  | [] => []
  | c :: cs => if n < c.tokens.length then c.shed n ++ cs else c :: shedAll (n - c.tokens.length) cs

end

theorem standsAt_append (l r : List Tree) (n : Nat) : standsAt ((tokensAll l).length + n) (l ++ r) = standsAt n r := by
  induction l with
  | nil => simp [tokensAll]
  | cons c l ih =>
    have hle : ¬ c.tokens.length + (tokensAll l).length + n < c.tokens.length := by omega
    rw [List.cons_append, standsAt, tokensAll, List.length_append, if_neg hle, ← ih]
    congr 1
    omega

theorem shedAll_append (l r : List Tree) (n : Nat) :
    shedAll ((tokensAll l).length + n) (l ++ r) = l ++ shedAll n r := by
  induction l with
  | nil => simp [tokensAll]
  | cons c l ih =>
    have hle : ¬ c.tokens.length + (tokensAll l).length + n < c.tokens.length := by omega
    rw [List.cons_append, shedAll, tokensAll, List.length_append, if_neg hle, List.cons_append, ← ih]
    congr 2
    omega

theorem shedAll_element (l r : List Tree) {c : Tree} {n : Nat} (h : n < c.tokens.length) :
    shedAll ((tokensAll l).length + n) (l ++ c :: r) = l ++ c.shed n ++ r := by
  rw [shedAll_append, shedAll, if_pos h, List.append_assoc]

theorem standsAt_element (l r : List Tree) {c : Tree} {n : Nat} (h : n < c.tokens.length) :
    standsAt ((tokensAll l).length + n) (l ++ c :: r) = c.isToken := by
  rw [standsAt_append, standsAt, if_pos h]

theorem shed_inside (k : Kind) (l r : List Tree) {c : Tree} {n : Nat} (hc : c.isNode = true) (h : n < c.tokens.length) :
    (node k (l ++ c :: r)).shed ((tokensAll l).length + n) = [node k (l ++ c.shed n ++ r)] := by
  have hnode : c.isToken = false := by simpa [isNode_eq] using hc
  rw [shed, standsAt_element l r h, hnode, shedAll_element l r h]
  rfl

theorem shed_token (k : Kind) (l r : List Tree) (y : Token) :
    (node k (l ++ leaf y :: r)).shed (tokensAll l).length =
      if (l ++ r).all (·.isNode) then l ++ r else [node k (l ++ r)] := by
  have hlt : 0 < (leaf y).tokens.length := Nat.one_pos
  have hstands := standsAt_element l r hlt
  have hshed := shedAll_element l r hlt
  rw [Nat.add_zero] at hstands hshed
  rw [shed, hstands, hshed, show (leaf y).shed 0 = [] from rfl, List.append_nil]
  rfl

mutual

def Each (Q : Kind → List Tree → Prop) : Tree → Prop
  | .token _ _ => True
  | .node k cs => Q k cs ∧ EachAll Q cs

def EachAll (Q : Kind → List Tree → Prop) : List Tree → Prop
  | [] => True
  | c :: cs => c.Each Q ∧ EachAll Q cs

end

theorem eachAll_append {Q : Kind → List Tree → Prop} {ts us : List Tree} :
    EachAll Q (ts ++ us) ↔ EachAll Q ts ∧ EachAll Q us := by
  induction ts with
  | nil => simp [EachAll]
  | cons t ts ih => simp [EachAll, ih, and_assoc]

theorem filledAll_append {ts us : List Tree} : FilledAll (ts ++ us) ↔ FilledAll ts ∧ FilledAll us := by
  induction ts with
  | nil => simp [FilledAll]
  | cons t ts ih => simp [FilledAll, ih, and_assoc]

theorem length_cells (owner : Kind) (t : Tree) : (t.cells owner).length = t.tokens.length := by
  rw [← map_toToken_cells owner t, List.length_map]

theorem tokensAll_ne_nil {ts : List Tree} (hfill : FilledAll ts) (h : ts.any (·.isNode) = true) :
    tokensAll ts ≠ [] := by
  induction ts with
  | nil => simp at h
  | cons t ts ih => simp [tokensAll, hfill.1.tokens_ne_nil]

theorem owner_of_standsAt {k : Kind} {cs : List Tree} {n : Nat} (h : standsAt n cs = true) :
    (cellsAll k cs)[n]?.map (·.owner) = some k := by
  induction cs generalizing n with
  | nil => simp [standsAt] at h
  | cons c cs ih =>
    have hlen := length_cells k c
    rw [standsAt] at h
    rw [cellsAll]
    split at h
    · rename_i hlt
      cases c with
      | token k' t =>
        obtain rfl : n = 0 := by simpa [tokens] using hlt
        rfl
      | node k' cs' => simp [isToken] at h
    · rw [List.getElem?_append_right (by omega), hlen]
      exact ih h

theorem cellsAll_nodes (owner owner' : Kind) : (ts : List Tree) → (∀ t ∈ ts, t.isNode = true) →
    cellsAll owner ts = cellsAll owner' ts
  | [], _ => rfl
  | .token k t :: ts, h => by
    have hnode : (Tree.token k t).isNode = true := h _ List.mem_cons_self
    cases hnode
  | .node k cs :: ts, h => by
    rw [cellsAll, cellsAll, cellsAll_nodes owner owner' ts (fun u hu => h u (List.mem_cons_of_mem _ hu))]
    rfl

mutual

theorem cells_shed (owner : Kind) : (t : Tree) → (n : Nat) → n < t.tokens.length →
    cellsAll owner (t.shed n) = (t.cells owner).eraseIdx n
  | .token k t, n, h => by
    obtain rfl : n = 0 := by simpa [tokens] using h
    rfl
  | .node k cs, n, h => by
    have hcs := cells_shedAll k cs n
    rw [shed]
    split
    · rename_i hd
      simp only [Bool.and_eq_true, List.all_eq_true] at hd
      rw [cells, ← hcs]
      exact cellsAll_nodes owner k _ hd.2
    · simpa [cellsAll, cells] using hcs

theorem cells_shedAll (owner : Kind) : (cs : List Tree) → (n : Nat) →
    cellsAll owner (shedAll n cs) = (cellsAll owner cs).eraseIdx n
  | [], _ => rfl
  | c :: cs, n => by
    have hlen := length_cells owner c
    rw [shedAll, cellsAll]
    split
    · rename_i hlt
      rw [cellsAll_append, cells_shed owner c n hlt, List.eraseIdx_append_of_lt_length (by omega)]
    · rename_i hge
      rw [cellsAll, cells_shedAll owner cs, List.eraseIdx_append_of_length_le (by omega), hlen]

end

def Holding (k : Kind) (cs : List Tree) : Prop :=
  k = .parenExpr → cs.any (·.isNode) = true

mutual

theorem shed_holding : (t : Tree) → t.isNode = true → (owner : Kind) → (n : Nat) → t.Filled → t.Each Holding →
    (t.cells owner)[n]?.map (·.owner) = some .parenExpr →
    t.shed n ≠ [] ∧ (∀ u ∈ t.shed n, u.isNode = true) ∧ FilledAll (t.shed n) ∧ EachAll Holding (t.shed n)
  | .node k cs, _, _, n, hfill, heach, hown => by
    rw [cells] at hown
    obtain ⟨hfilled, hholds, hkeeps, hdeep⟩ := shedAll_holding cs k n hfill.2 heach.2 hown
    have hany : (shedAll n cs).any (·.isNode) = true := by
      cases hs : standsAt n cs with
      | false => exact hdeep hs
      | true =>
        rw [owner_of_standsAt hs, Option.some.injEq] at hown
        exact hkeeps (heach.1 hown)
    rw [shed]
    split
    · rename_i hd
      simp only [Bool.and_eq_true, List.all_eq_true] at hd
      refine ⟨fun hnil => ?_, hd.2, hfilled, hholds⟩
      rw [hnil] at hany
      cases hany
    · refine ⟨by simp, by simp [isNode], ⟨⟨tokensAll_ne_nil hfilled hany, hfilled⟩, trivial⟩,
        ⟨⟨fun _ => hany, hholds⟩, trivial⟩⟩
  | .token _ _, h, _, _, _, _, _ => by simp [isNode] at h

theorem shedAll_holding : (cs : List Tree) → (k : Kind) → (n : Nat) → FilledAll cs → EachAll Holding cs →
    (cellsAll k cs)[n]?.map (·.owner) = some .parenExpr →
    FilledAll (shedAll n cs) ∧ EachAll Holding (shedAll n cs) ∧
      (cs.any (·.isNode) = true → (shedAll n cs).any (·.isNode) = true) ∧
      (standsAt n cs = false → (shedAll n cs).any (·.isNode) = true)
  | [], _, _, _, _, hown => by simp [cellsAll] at hown
  | c :: cs, k, n, hfill, heach, hown => by
    have hlen := length_cells k c
    rw [cellsAll] at hown
    rw [shedAll, standsAt]
    split
    · rename_i hlt
      rw [List.getElem?_append_left (by omega)] at hown
      cases c with
      | token k' t => exact ⟨hfill.2, heach.2, by simp [isNode, shed], by simp [isToken]⟩
      | node k' cs' =>
        obtain ⟨hne, hnodes, hfilled, hholds⟩ := shed_holding (.node k' cs') rfl k n hfill.1 heach.1 hown
        have hany : ((node k' cs').shed n ++ cs).any (·.isNode) = true := by
          obtain ⟨u, us, hu⟩ := List.exists_cons_of_ne_nil hne
          rw [hu, List.cons_append, List.any_cons, hnodes u (by simp [hu])]
          rfl
        exact ⟨filledAll_append.mpr ⟨hfilled, hfill.2⟩, eachAll_append.mpr ⟨hholds, heach.2⟩, fun _ => hany,
          fun _ => hany⟩
    · rename_i hge
      rw [List.getElem?_append_right (by omega), hlen] at hown
      obtain ⟨hfilled, hholds, hkeeps, hdeep⟩ := shedAll_holding cs k _ hfill.2 heach.2 hown
      refine ⟨⟨hfill.1, hfilled⟩, ⟨heach.1, hholds⟩, fun h => ?_, fun h => ?_⟩
      · rw [List.any_cons, Bool.or_eq_true] at h ⊢
        exact h.imp_right hkeeps
      · rw [List.any_cons, hdeep h, Bool.or_true]

end

end Tree

namespace Zipper

def tokensBefore (fs : List Frame) : Nat :=
  fs.foldr (fun f n => (Tree.tokensAll f.left).length + n) 0

theorem length_tokensAll_reverse (ts : List Tree) :
    (Tree.tokensAll ts.reverse).length = (Tree.tokensAll ts).length := by
  induction ts with
  | nil => rfl
  | cons t ts ih =>
    simp only [List.reverse_cons, Tree.tokensAll_append, List.length_append, ih, Tree.tokensAll, List.length_nil]
    omega

theorem plug_snoc (t : Tree) (fs : List Frame) (f : Frame) : plug t (fs ++ [f]) = f.fill (plug t fs) := by
  induction fs generalizing t with
  | nil => rfl
  | cons g fs ih => exact ih (g.fill t)

theorem tokensBefore_snoc (fs : List Frame) (f : Frame) :
    tokensBefore (fs ++ [f]) = (Tree.tokensAll f.left).length + tokensBefore fs := by
  induction fs with
  | nil => rfl
  | cons g fs ih =>
    simp only [tokensBefore, List.cons_append, List.foldr_cons] at ih ⊢
    omega

theorem shedAll_plug {t : Tree} (ht : t.isNode = true) {n : Nat} (hn : n < t.tokens.length) (f : Frame)
    (fs : List Frame)
    {k : Kind} {bs : List Tree} (h : plug t (f :: fs) = .node k bs) :
    plug (f.fillMany (t.shed n)) fs = .node k (Tree.shedAll (tokensBefore (f :: fs) + n) bs) := by
  have hleft : (Tree.tokensAll f.left.reverse).length = (Tree.tokensAll f.left).length := length_tokensAll_reverse _
  induction fs generalizing t n f with
  | nil =>
    simp only [plug, Frame.fill, Tree.node.injEq] at h
    obtain ⟨rfl, rfl⟩ := h
    have hbefore : tokensBefore [f] = (Tree.tokensAll f.left.reverse).length := by simp [tokensBefore, hleft]
    rw [hbefore, Tree.shedAll_element _ _ hn, plug, Frame.fillMany]
  | cons g fs ih =>
    have hfill : (f.fill t).shed ((Tree.tokensAll f.left.reverse).length + n) = [f.fillMany (t.shed n)] :=
      Tree.shed_inside f.kind _ _ ht hn
    have hlt : (Tree.tokensAll f.left.reverse).length + n < (f.fill t).tokens.length := by
      simp only [Frame.fill, Tree.tokens, Tree.tokensAll_append, Tree.tokensAll, List.length_append]
      omega
    have hrest := ih (t := f.fill t) rfl hlt g h (length_tokensAll_reverse _)
    rw [hfill, hleft] at hrest
    have hcount : tokensBefore (f :: g :: fs) + n = tokensBefore (g :: fs) + ((Tree.tokensAll f.left).length + n) := by
      simp only [tokensBefore, List.foldr_cons]
      omega
    rw [hcount, ← hrest]
    simp [plug, Frame.fill, Frame.fillMany]

end Zipper

end Lintel
