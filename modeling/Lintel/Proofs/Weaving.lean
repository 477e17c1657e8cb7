import Lintel.Proofs.TokenAccounting

namespace Lintel

open Outline

def Outline.stitch : Gaps → List Token → List Token
  | g :: gaps, t :: ts => g ++ t :: stitch gaps ts
  | _, _ => []

mutual

theorem Outline.weave_spec : (c : Outline) → (gaps : Gaps) → (ts : List Token) →
    gaps.length = c.tokens.length + ts.length →
    Tree.tokensAll (weave c gaps).1 ++ stitch (weave c gaps).2 ts = stitch gaps (c.tokens ++ ts) ∧
      (weave c gaps).2.length = ts.length
  | .token t, gaps, ts, h => by
    cases gaps with
    | nil =>
      simp only [tokens, List.length_cons, List.length_nil] at h
      omega
    | cons g gaps =>
      simp only [tokens, List.length_cons, List.length_nil] at h
      refine ⟨by simp [weave, stitch, tokens, Tree.tokensAll, Tree.leaf, Tree.tokens], ?_⟩
      show gaps.length = ts.length
      omega
  | .gap, gaps, ts, h => by
    simp only [tokens, List.length_nil, Nat.zero_add] at h
    cases gaps with
    | nil => exact ⟨rfl, h⟩
    | cons g gaps =>
      refine ⟨?_, h⟩
      cases ts with
      | nil => simp at h
      | cons t ts => simp [weave, stitch, tokens]
  | .node k cs, gaps, ts, h => by
    have ih := weaveAll_spec cs gaps ts h
    refine ⟨?_, ih.2⟩
    simpa [weave, tokens, Tree.tokensAll, Tree.tokens] using ih.1

theorem Outline.weaveAll_spec : (cs : List Outline) → (gaps : Gaps) → (ts : List Token) →
    gaps.length = (tokensAll cs).length + ts.length →
    Tree.tokensAll (weaveAll cs gaps).1 ++ stitch (weaveAll cs gaps).2 ts =
        stitch gaps (tokensAll cs ++ ts) ∧
      (weaveAll cs gaps).2.length = ts.length
  | [], gaps, ts, h => ⟨rfl, by simpa [tokensAll, weaveAll] using h⟩
  | c :: cs, gaps, ts, h => by
    simp only [tokensAll, List.length_append] at h
    have hc := weave_spec c gaps (tokensAll cs ++ ts) (by simp only [List.length_append]; omega)
    have hcs := weaveAll_spec cs (weave c gaps).2 ts (by simpa using hc.2)
    refine ⟨?_, hcs.2⟩
    simp only [weaveAll, tokensAll, Tree.tokensAll_append, List.append_assoc, hcs.1, hc.1]

end

theorem Outline.tokens_weaveAll {cs : List Outline} {gaps : Gaps}
    (h : gaps.length = (tokensAll cs).length) :
    Tree.tokensAll (weaveAll cs gaps).1 = stitch gaps (tokensAll cs) := by
  obtain ⟨hw, hl⟩ := weaveAll_spec cs gaps [] h
  rw [List.length_eq_zero_iff.mp hl] at hw
  simpa [stitch] using hw

theorem Group.map_toToken_items (groups : List Group) :
    (items groups).map (·.toToken) = groups.map (·.token) := by
  induction groups with
  | nil => rfl
  | cons g gs ih => simp [items, ih]

theorem Group.split_spec (ts : List Token) :
    ∀ g ∈ (split ts).1, (∀ t ∈ g.before, t.isTrivia = true) ∧ g.token.isTrivia = false := by
  induction ts with
  | nil => simp [split]
  | cons t ts ih =>
    simp only [split]
    split
    · rename_i ht
      split
      · simp
      · rename_i g gs hg
        rw [hg] at ih
        have hhead := ih g (by simp)
        intro u hu
        obtain rfl | hu := List.mem_cons.mp hu
        · refine ⟨?_, hhead.2⟩
          intro v hv
          obtain rfl | hv := List.mem_cons.mp hv
          · exact ht
          · exact hhead.1 v hv
        · exact ih u (by simp [hu])
    · rename_i ht
      intro u hu
      obtain rfl | hu := List.mem_cons.mp hu
      · exact ⟨by simp, by simpa using ht⟩
      · exact ih u hu

theorem Group.isTrivia_trailing (ts : List Token) : ∀ t ∈ (split ts).2, t.isTrivia = true := by
  induction ts with
  | nil => simp [split]
  | cons t ts ih =>
    simp only [split]
    split
    · rename_i ht
      split
      · intro u hu
        obtain rfl | hu := List.mem_cons.mp hu
        · exact ht
        · exact ih u hu
      · exact ih
    · exact ih

theorem Group.stitch_flatten (groups : List Group) :
    stitch (groups.map (·.before)) (groups.map (·.token)) = flatten groups := by
  induction groups with
  | nil => rfl
  | cons g gs ih => simpa [stitch, flatten] using ih

theorem Group.isTrivia_items {ts : List Token} {i : Item} (h : i ∈ items (split ts).1) :
    i.isTrivia = false := by
  have hi : i.toToken ∈ (split ts).1.map (·.token) := by
    rw [← map_toToken_items]
    exact List.mem_map_of_mem h
  obtain ⟨g, hg, hgi⟩ := List.mem_map.mp hi
  rw [← hgi]
  exact (split_spec ts g hg).2

theorem Token.forall₂_shows_refl (ts : List Token) : List.Forall₂ Token.Shows ts ts :=
  List.forall₂_same.mpr (fun t _ => .refl t)

theorem Group.shows_stitch {groups : List Group} {ts : List Token}
    (h : List.Forall₂ Token.Shows (groups.map (·.token)) ts) :
    List.Forall₂ Token.Shows (flatten groups) (stitch (groups.map (·.before)) ts) := by
  induction groups generalizing ts with
  | nil => exact .nil
  | cons g gs ih =>
    cases h with
    | cons hg hgs =>
      simpa [flatten, stitch] using
        List.rel_append (Token.forall₂_shows_refl g.before) (.cons hg (ih hgs))

theorem Parse.shows_weave {groups : List Group} {outlines : List Outline}
    (trailing : List Token)
    (h : List.Forall₂ Token.Shows (groups.map (·.token)) (tokensAll outlines)) :
    List.Forall₂ Token.Shows (Group.flatten groups ++ trailing)
      (weave groups trailing outlines).tokens := by
  have hw : (weave groups trailing outlines).tokens =
      stitch (groups.map (·.before)) (tokensAll outlines) ++ trailing := by
    have hlen : (groups.map (·.before)).length = (tokensAll outlines).length := by
      simpa using h.length_eq
    simp [weave, Tree.tokens, tokens_weaveAll hlen]
  rw [hw]
  exact List.rel_append (Group.shows_stitch h) (Token.forall₂_shows_refl trailing)

theorem shows_tokens_parse (t : Text) :
    List.Forall₂ Token.Shows ((lex t).map (·.toToken)) (parse t).tree.tokens := by
  have h := Grammar.shows_outline (Group.items (Group.split ((lex t).map (·.toToken))).1)
  rw [Group.map_toToken_items] at h
  have hall := Parse.shows_weave (Group.split ((lex t).map (·.toToken))).2 h
  rwa [Group.flatten_split] at hall

theorem Token.textOf_eq_of_shows {ts us : List Token} (h : List.Forall₂ Token.Shows ts us) :
    textOf us = textOf ts := by
  induction h with
  | nil => rfl
  | cons h _ ih =>
    simp only [textOf] at ih
    simp [textOf, h.1, ih]

theorem text_parse (t : Text) : (parse t).tree.text = t := by
  rw [← Tree.textOf_tokens, Token.textOf_eq_of_shows (shows_tokens_parse t), textOf_lex]

end Lintel
