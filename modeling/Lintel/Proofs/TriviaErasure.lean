import Lintel.Proofs.Weaving

namespace Lintel

open Outline

namespace Tree

@[simp] theorem eraseAll_append (ts us : List Tree) : eraseAll (ts ++ us) = eraseAll ts ++ eraseAll us := by
  induction ts with
  | nil => rfl
  | cons t ts ih =>
    by_cases ht : t.isTrivia
    · simp [eraseAll, ht, ih]
    · simp [eraseAll, ht, ih]

theorem eraseAll_leaves {ts : List Token} (h : ∀ t ∈ ts, t.isTrivia = true) :
    eraseAll (ts.map leaf) = [] := by
  induction ts with
  | nil => rfl
  | cons t ts ih =>
    have ht : (leaf t).isTrivia = true := h t (by simp)
    simp [eraseAll, ht, ih (fun u hu => h u (by simp [hu]))]

end Tree

def Outline.Clear (gaps : Gaps) : Prop :=
  ∀ g ∈ gaps, ∀ t ∈ g, t.isTrivia = true

mutual

theorem Outline.erase_weave : (c : Outline) → (gaps : Gaps) → Clear gaps →
    (∀ t ∈ c.tokens, t.isTrivia = false) →
    Tree.eraseAll (weave c gaps).1 = bare c ∧ Clear (weave c gaps).2
  | .token t, gaps, hg, hc => by
    have ht : (Tree.leaf t).isTrivia = false := hc t (by simp [tokens])
    have he : Tree.eraseAll [.leaf t] = [.leaf t] := by
      simp only [Tree.eraseAll, ht]
      rfl
    cases gaps with
    | nil => exact ⟨he, hg⟩
    | cons g gaps =>
      refine ⟨?_, fun h hh => hg h (List.mem_cons_of_mem g hh)⟩
      rw [weave, Tree.eraseAll_append, Tree.eraseAll_leaves (hg g (by simp)), he]
      rfl
  | .gap, gaps, hg, _ => by
    cases gaps with
    | nil => exact ⟨rfl, hg⟩
    | cons g gaps =>
      refine ⟨Tree.eraseAll_leaves (hg g (by simp)), ?_⟩
      intro h hh
      obtain rfl | hh := List.mem_cons.mp hh
      · simp
      · exact hg h (by simp [hh])
  | .node k cs, gaps, hg, hc => by
    obtain ⟨he, hclear⟩ := erase_weaveAll cs gaps hg hc
    refine ⟨?_, hclear⟩
    simp [weave, bare, Tree.eraseAll, Tree.isTrivia, Tree.erase, he]

theorem Outline.erase_weaveAll : (cs : List Outline) → (gaps : Gaps) → Clear gaps →
    (∀ t ∈ tokensAll cs, t.isTrivia = false) →
    Tree.eraseAll (weaveAll cs gaps).1 = bareAll cs ∧ Clear (weaveAll cs gaps).2
  | [], _, hg, _ => ⟨rfl, hg⟩
  | c :: cs, gaps, hg, hc => by
    obtain ⟨hec, hgc⟩ := erase_weave c gaps hg (fun t ht => hc t (by simp [tokensAll, ht]))
    obtain ⟨hecs, hgcs⟩ := erase_weaveAll cs (weave c gaps).2 hgc (fun t ht => hc t (by simp [tokensAll, ht]))
    refine ⟨?_, hgcs⟩
    simp only [weaveAll, bareAll, Tree.eraseAll_append, hec, hecs]

end

theorem Kind.isTrivia_contextualWord? {t : Text} {k : Kind} (h : contextualWord? t = some k) :
    k.isTrivia = false := by
  simp only [contextualWord?, Option.map_eq_some_iff] at h
  obtain ⟨w, hw, rfl⟩ := h
  have hall : ∀ w ∈ contextualWords, w.2.isTrivia = false := by decide
  exact hall w (List.mem_of_find?_eq_some hw)

theorem Token.Shows.isTrivia_eq {t u : Token} (h : t.Shows u) : u.isTrivia = t.isTrivia := by
  obtain ⟨-, hk | ⟨ht, hk⟩⟩ := h
  · simp [Token.isTrivia, hk]
  · simp only [Token.isTrivia, ht, Kind.isTrivia_contextualWord? hk]
    rfl

theorem Token.isTrivia_of_shows {ts us : List Token} (h : List.Forall₂ Token.Shows ts us)
    (ht : ∀ t ∈ ts, t.isTrivia = false) : ∀ u ∈ us, u.isTrivia = false := by
  induction h with
  | nil => simp
  | cons hs _ ih =>
    intro u hu
    obtain rfl | hu := List.mem_cons.mp hu
    · rw [hs.isTrivia_eq]
      exact ht _ (by simp)
    · exact ih (fun t h => ht t (by simp [h])) u hu

theorem isTrivia_tokens_outline (ts : List Token) :
    ∀ t ∈ tokensAll (Grammar.outline (Group.items (Group.split ts).1)).1, t.isTrivia = false := by
  apply Token.isTrivia_of_shows (Grammar.shows_outline _)
  intro t ht
  obtain ⟨i, hi, rfl⟩ := List.mem_map.mp ht
  exact Group.isTrivia_items hi

def itemsOf (t : Text) : List Item :=
  Group.items (Group.split ((lex t).map (·.toToken))).1

theorem erase_parse (t : Text) :
    (parse t).tree.erase = .node .compilationUnit (bareAll (Grammar.outline (itemsOf t)).1) := by
  have hgaps : Clear ((Group.split ((lex t).map (·.toToken))).1.map (·.before)) := by
    intro g hg
    obtain ⟨u, hu, rfl⟩ := List.mem_map.mp hg
    exact (Group.split_spec _ u hu).1
  obtain ⟨he, -⟩ := erase_weaveAll _ _ hgaps (isTrivia_tokens_outline ((lex t).map (·.toToken)))
  have htrail := Tree.eraseAll_leaves (Group.isTrivia_trailing ((lex t).map (·.toToken)))
  simp only [parse, Parse.weave, Tree.erase, Tree.eraseAll_append, he, htrail, List.append_nil]
  rfl

end Lintel
