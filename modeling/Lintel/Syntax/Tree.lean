import Lintel.Syntax.Token

namespace Lintel

inductive Tree where
  | token (kind : Kind) (text : Text)
  | node (kind : Kind) (children : List Tree)
  deriving Inhabited

namespace Tree

def leaf (t : Token) : Tree :=
  .token t.kind t.text

def kind : Tree → Kind
  | .token k _ => k
  | .node k _ => k

def children : Tree → List Tree
  | .token _ _ => []
  | .node _ cs => cs

def isNode : Tree → Bool
  | .token _ _ => false
  | .node _ _ => true

def isToken : Tree → Bool
  | .token _ _ => true
  | .node _ _ => false

theorem isNode_eq (t : Tree) : t.isNode = !t.isToken := by
  cases t <;> rfl

def isTrivia : Tree → Bool
  | .token k _ => k.isTrivia
  | .node _ _ => false

mutual

def text : Tree → Text
  | .token _ t => t
  | .node _ cs => textAll cs

def textAll : List Tree → Text
  | [] => []
  | c :: cs => c.text ++ textAll cs

end

mutual

def tokens : Tree → List Token
  | .token k t => [⟨k, t⟩]
  | .node _ cs => tokensAll cs

def tokensAll : List Tree → List Token
  | [] => []
  | c :: cs => c.tokens ++ tokensAll cs

end

mutual

def erase : Tree → Tree
  | .token k t => .token k t
  | .node k cs => .node k (eraseAll cs)

def eraseAll : List Tree → List Tree
  | [] => []
  | c :: cs => if c.isTrivia then eraseAll cs else c.erase :: eraseAll cs

end

mutual

def nodeKinds : Tree → List Kind
  | .token _ _ => []
  | .node k cs => k :: nodeKindsAll cs

def nodeKindsAll : List Tree → List Kind
  | [] => []
  | c :: cs => c.nodeKinds ++ nodeKindsAll cs

end

mutual

def same : Tree → Tree → Bool
  | .token k t, .token k' t' => k == k' && t == t'
  | .node k cs, .node k' cs' => k == k' && sameAll cs cs'
  | _, _ => false

def sameAll : List Tree → List Tree → Bool
  | [], [] => true
  | c :: cs, d :: ds => c.same d && sameAll cs ds
  | _, _ => false

end

def size (t : Tree) : Nat :=
  t.text.size

def sizeAll (ts : List Tree) : Nat :=
  (textAll ts).size

@[simp] theorem textAll_append (ts us : List Tree) : textAll (ts ++ us) = textAll ts ++ textAll us := by
  induction ts with
  | nil => simp [textAll]
  | cons t ts ih => simp [textAll, ih]

@[simp] theorem tokensAll_append (ts us : List Tree) :
    tokensAll (ts ++ us) = tokensAll ts ++ tokensAll us := by
  induction ts with
  | nil => simp [tokensAll]
  | cons t ts ih => simp [tokensAll, ih]

@[simp] theorem tokensAll_map_leaf (ts : List Token) : tokensAll (ts.map leaf) = ts := by
  induction ts with
  | nil => rfl
  | cons t ts ih => simp [tokensAll, leaf, tokens, ih]

mutual

theorem textOf_tokens : (t : Tree) → Token.textOf t.tokens = t.text
  | .token k t => by simp [tokens, text, Token.textOf]
  | .node k cs => textOf_tokensAll cs

theorem textOf_tokensAll : (ts : List Tree) → Token.textOf (tokensAll ts) = textAll ts
  | [] => rfl
  | c :: cs => by
    have hc := textOf_tokens c
    have hcs := textOf_tokensAll cs
    simp only [Token.textOf] at hc hcs
    simp [tokensAll, textAll, Token.textOf, hc, hcs]

end

mutual

theorem eq_of_same : (t u : Tree) → t.same u = true → t = u
  | .token k t, .token k' t', h => by simp_all [same]
  | .node k cs, .node k' cs', h => by
    simp only [same, Bool.and_eq_true, beq_iff_eq] at h
    rw [h.1, eq_of_sameAll cs cs' h.2]
  | .token _ _, .node _ _, h => by simp [same] at h
  | .node _ _, .token _ _, h => by simp [same] at h

theorem eq_of_sameAll : (ts us : List Tree) → sameAll ts us = true → ts = us
  | [], [], _ => rfl
  | c :: cs, d :: ds, h => by
    simp only [sameAll, Bool.and_eq_true] at h
    rw [eq_of_same c d h.1, eq_of_sameAll cs ds h.2]
  | [], _ :: _, h => by simp [sameAll] at h
  | _ :: _, [], h => by simp [sameAll] at h

end

end Tree

end Lintel
